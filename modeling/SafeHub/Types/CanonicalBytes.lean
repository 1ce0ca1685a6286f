import SafeHub.Client.Error
import SafeHub.Types.Canon
import Mathlib.Data.Set.Function

/-!
# One byte form for a head

Encoding loses nothing: a head whose fields have 32-bit lengths is read back, so two such
heads with the same bytes are the same head, and hashes tell heads apart as far as the hash
function tells their bytes apart. Decoding is more lenient than encoding. The two flag bytes
of a head are read as "not zero" and written as 0 or 1, so the bytes of a head with another
flag are accepted and are not what the head is written as.

## Main results

* `decodeRefHead_eq_ok_iff` — what the decoder accepts, and as which head
* `refHead_codec_faithful` — the round trip, injectivity of the bytes and of the hash
* `encodeRefHead_decodeRefHead_iff` — which bytes are the bytes of the head they decode to
-/

namespace SafeHub

open FixedWidth

variable {bytes front rest : Bytes} {n : ℕ}

/-! ### What a successful cut says about the input -/

theorem takeBytes_eq_ok_iff :
    takeBytes bytes n = .ok (front, rest) ↔ front.length = n ∧ bytes = front ++ rest := by
  constructor
  · intro h
    rw [takeBytes] at h
    split at h
    · cases h
    · rename_i hlength
      rw [List.splitAt_eq] at h
      obtain ⟨rfl, rfl⟩ := Prod.mk.inj (Except.ok.inj h)
      exact ⟨List.length_take_of_le (Nat.le_of_not_lt hlength),
        (List.take_append_drop n bytes).symm⟩
  · rintro ⟨hlength, rfl⟩
    exact takeBytes_append hlength rest

theorem takeOpaque_eq_ok_iff :
    takeOpaque bytes = .ok (front, rest) ↔
      front.length < 2 ^ 32 ∧ bytes = putOpaque front ++ rest := by
  constructor
  · intro h
    rw [takeOpaque] at h
    obtain ⟨⟨len, body⟩, hlen, hbody⟩ := bind_eq_ok_iff.mp h
    obtain ⟨hfour, rfl⟩ := takeBytes_eq_ok_iff.mp hlen
    obtain ⟨hfront, rfl⟩ := takeBytes_eq_ok_iff.mp hbody
    have hlt := readBE_lt len
    have hwidth := beBytes_readBE len
    rw [hfour] at hlt hwidth
    exact ⟨hfront ▸ hlt, by rw [putOpaque, hfront, hwidth, List.append_assoc]⟩
  · rintro ⟨hlength, rfl⟩
    exact takeOpaque_putOpaque hlength rest

theorem u64BE_readU64BE (h : bytes.length = 8) : u64BE (readU64BE bytes) = bytes := by
  have hlt := readBE_lt bytes
  have hread := beBytes_readBE bytes
  rw [h] at hlt hread
  rw [u64BE, readU64BE, UInt64.toNat_ofNat_of_lt' hlt, hread]

theorem finish_eq_ok_iff {α : Type} {value result : α} :
    finish value rest = .ok result ↔ rest = [] ∧ value = result := by
  cases rest with
  | nil => exact ⟨fun h => ⟨rfl, Except.ok.inj h⟩, fun h => congrArg Except.ok h.2⟩
  | cons b rest => exact iff_of_false nofun nofun

theorem takeAdminCosig_eq_ok_iff {flag : UInt8} {adminCosig : Option Bytes} :
    takeAdminCosig [flag] bytes = .ok (adminCosig, rest) ↔
      (∀ sig ∈ adminCosig, sig.length < 2 ^ 32) ∧ (flag = 0 ↔ adminCosig = none) ∧
        bytes = adminBody adminCosig ++ rest := by
  constructor
  · intro h
    rw [takeAdminCosig] at h
    split at h
    · rename_i hflag
      obtain ⟨rfl, rfl⟩ := Prod.mk.inj (Except.ok.inj h)
      refine ⟨fun _ hmem => ?_, by simpa using hflag, rfl⟩
      cases hmem
    · rename_i hflag
      cases htake : takeOpaque bytes with
      | error e =>
        rw [htake] at h
        cases h
      | ok cut =>
        rw [htake] at h
        obtain ⟨rfl, rfl⟩ := Prod.mk.inj (Except.ok.inj h)
        obtain ⟨hlength, rfl⟩ := takeOpaque_eq_ok_iff.mp htake
        exact ⟨fun _ hmem => Option.some.inj hmem ▸ hlength, by simpa using hflag, rfl⟩
  · rintro ⟨hlength, hflag, rfl⟩
    exact takeAdminCosig_adminBody rest hlength hflag

variable {D : Type} [Sha512 D]

/-! ### The layout of a head -/

theorem flagByte_le_one (flag : Bool) : flagByte flag ≤ 1 := by
  cases flag <;> decide

/-- A flag byte above 1 is not the one the encoder writes. -/
theorem eq_flagByte_iff {byte : UInt8} {flag : Bool} (h : byte = 0 ↔ flag = false) :
    byte = flagByte flag ↔ byte ≤ 1 := by
  constructor
  · rintro rfl
    exact flagByte_le_one flag
  · intro hle
    have hcases : byte = 0 ∨ byte = 1 := by
      rw [← UInt8.toNat_inj, ← UInt8.toNat_inj]
      have htoNat : byte.toNat ≤ 1 := UInt8.le_iff_toNat_le.mp hle
      simp only [UInt8.toNat_zero, UInt8.toNat_one]
      omega
    rcases hcases with rfl | rfl
    · rw [h.mp rfl]
      rfl
    · cases flag with
      | false => exact absurd (h.mpr rfl) (by decide)
      | true => rfl

@[simp] theorem encodeWithFlags_inj {head : RefHead D} {nonFf nonFf' hasAdmin hasAdmin' : UInt8} :
    encodeWithFlags nonFf hasAdmin head = encodeWithFlags nonFf' hasAdmin' head ↔
      nonFf = nonFf' ∧ hasAdmin = hasAdmin' := by
  simp only [encodeWithFlags, List.append_cancel_left_eq, List.singleton_append, List.cons.injEq,
    and_true]

variable [DigestBytes D] {head : RefHead D}

/-- What the decoder accepts: the layout of a head with lengths of 32 bits, under any flag
bytes that say the same as the head. -/
theorem decodeRefHead_eq_ok_iff :
    decodeRefHead bytes = .ok head ↔ head.Encodable ∧
      ∃ nonFf hasAdmin, head.HasFlags nonFf hasAdmin ∧
        bytes = encodeWithFlags nonFf hasAdmin head := by
  constructor
  · -- every reader determines the bytes in front of those that it leaves
    intro h
    rw [decodeRefHead] at h
    obtain ⟨⟨repo, _⟩, hrepo, h⟩ := bind_eq_ok_iff.mp h
    obtain ⟨⟨seq, _⟩, hseq, h⟩ := bind_eq_ok_iff.mp h
    obtain ⟨⟨encRefs, _⟩, hrefs, h⟩ := bind_eq_ok_iff.mp h
    obtain ⟨⟨bundle, _⟩, hbundle, h⟩ := bind_eq_ok_iff.mp h
    obtain ⟨⟨dekWrap, _⟩, hdek, h⟩ := bind_eq_ok_iff.mp h
    obtain ⟨⟨prev, _⟩, hprev, h⟩ := bind_eq_ok_iff.mp h
    obtain ⟨⟨epoch, _⟩, hepoch, h⟩ := bind_eq_ok_iff.mp h
    obtain ⟨⟨epochTag, _⟩, htag, h⟩ := bind_eq_ok_iff.mp h
    obtain ⟨⟨nonFf, _⟩, hnonFf, h⟩ := bind_eq_ok_iff.mp h
    obtain ⟨⟨pusherSig, _⟩, hpusher, h⟩ := bind_eq_ok_iff.mp h
    obtain ⟨⟨hasAdmin, _⟩, hhas, h⟩ := bind_eq_ok_iff.mp h
    obtain ⟨⟨adminCosig, _⟩, hadmin, h⟩ := bind_eq_ok_iff.mp h
    obtain ⟨rfl, rfl⟩ := finish_eq_ok_iff.mp h
    -- from the front, each field's bytes are substituted into what is left of the input
    simp only [takeBytes_eq_ok_iff, takeOpaque_eq_ok_iff] at *
    obtain ⟨hrepo, rfl⟩ := hrepo
    obtain ⟨hseq, rfl⟩ := hseq
    obtain ⟨hrefs, rfl⟩ := hrefs
    obtain ⟨hbundle, rfl⟩ := hbundle
    obtain ⟨hdek, rfl⟩ := hdek
    obtain ⟨hprev, rfl⟩ := hprev
    obtain ⟨hepoch, rfl⟩ := hepoch
    obtain ⟨htag, rfl⟩ := htag
    obtain ⟨hnonFf, rfl⟩ := hnonFf
    obtain ⟨hpusher, rfl⟩ := hpusher
    obtain ⟨hhas, rfl⟩ := hhas
    obtain ⟨force, rfl⟩ := List.length_eq_one_iff.mp hnonFf
    obtain ⟨presence, rfl⟩ := List.length_eq_one_iff.mp hhas
    obtain ⟨hcosig, hpresence, rfl⟩ := takeAdminCosig_eq_ok_iff.mp hadmin
    refine ⟨⟨hrefs, hdek, htag, hpusher, hcosig⟩, force, presence, ⟨by simp, hpresence⟩, ?_⟩
    rw [encodeWithFlags, toList_byteArray repo hrepo, u64BE_readU64BE hseq,
      DigestBytes.toBytes_ofBytes bundle hbundle, DigestBytes.toBytes_ofBytes prev hprev,
      u64BE_readU64BE hepoch, List.append_nil]
  · rintro ⟨hencodable, nonFf, hasAdmin, hflags, rfl⟩
    exact decodeRefHead_encodeWithFlags hencodable hflags

/-! ### Encoding loses nothing -/

/-- A head with 32-bit lengths survives the round trip. Its bytes therefore determine it, and
so does its hash among any heads whose bytes the hash function keeps apart. -/
theorem refHead_codec_faithful :
    (∀ head : RefHead D, head.Encodable → decodeRefHead (encodeRefHead head) = .ok head) ∧
      Set.InjOn encodeRefHead {head : RefHead D | head.Encodable} ∧
      ∀ heads ⊆ {head : RefHead D | head.Encodable},
        Set.InjOn (Sha512.digest : Bytes → D) (encodeRefHead '' heads) →
          Set.InjOn RefHead.hash heads := by
  have hinj : Set.InjOn encodeRefHead {head : RefHead D | head.Encodable} := by
    -- equal bytes are read as one head
    intro head hhead head' hhead' heq
    have hread := decodeRefHead_encodeRefHead hhead
    rw [heq, decodeRefHead_encodeRefHead hhead'] at hread
    exact (Except.ok.inj hread).symm
  refine ⟨fun head h => decodeRefHead_encodeRefHead h, hinj, fun heads hsub hdigest => ?_⟩
  exact hdigest.comp (hinj.mono hsub) (Set.mapsTo_image encodeRefHead heads)

section Sample

attribute [local instance] leadingSha512 leadingDigestBytes

/-- A head of a repository with refs, a wrapped key, a tag and both signatures. -/
def signedHead (repo : UInt8) : RefHead Digest where
  repoId := Vector.replicate 32 repo
  seq := 7
  encRefs := [1, 2, 3]
  bundleRoot := Vector.replicate 64 4
  dekWrap := [5, 6]
  prevHeadHash := Vector.replicate 64 8
  mlsEpoch := 9
  epochTag := [10]
  nonFf := true
  pusherSig := [11, 12]
  adminCosig := some [13, 14, 15]

theorem encodable_signedHead (repo : UInt8) : (signedHead repo).Encodable := by
  constructor <;> simp [signedHead]

/-- The hashes of such heads of two repositories. -/
theorem refHead_codec_faithful_signedHead :
    decodeRefHead (encodeRefHead (signedHead 0)) = .ok (signedHead 0) ∧
      ((signedHead 0).hash = (signedHead 1).hash → signedHead 0 = signedHead 1) := by
  have hfaithful := refHead_codec_faithful (D := Digest)
  have hdigest : Set.InjOn (Sha512.digest : Bytes → Digest)
      (encodeRefHead '' {signedHead 0, signedHead 1}) := by
    rw [Set.image_pair, Set.injOn_pair]
    intro h
    exact absurd (congrArg (fun digest => digest[0]) h) (by decide)
  refine ⟨hfaithful.1 _ (encodable_signedHead 0),
    fun h => hfaithful.2.2 {signedHead 0, signedHead 1} ?_ hdigest (.inl rfl) (.inr rfl) h⟩
  rintro head (rfl | rfl)
  · exact encodable_signedHead 0
  · exact encodable_signedHead 1

end Sample

/-! ### Decoding accepts more than one form -/

/-- A byte string is the bytes of the head it decodes to exactly when it is not the layout of a
head under a flag byte other than 0 and 1. -/
theorem encodeRefHead_decodeRefHead_iff :
    (∀ head : RefHead D, decodeRefHead bytes = .ok head → encodeRefHead head = bytes) ↔
      ∀ head : RefHead D, ∀ nonFf hasAdmin, head.Encodable → head.HasFlags nonFf hasAdmin →
        bytes = encodeWithFlags nonFf hasAdmin head → nonFf ≤ 1 ∧ hasAdmin ≤ 1 := by
  -- what is written back differs from what was read in the flag bytes only
  have hstep {head : RefHead D} {nonFf hasAdmin : UInt8} (hflags : head.HasFlags nonFf hasAdmin) :
      encodeRefHead head = encodeWithFlags nonFf hasAdmin head ↔ nonFf ≤ 1 ∧ hasAdmin ≤ 1 := by
    rw [encodeRefHead_eq_encodeWithFlags, encodeWithFlags_inj, eq_comm,
      eq_flagByte_iff hflags.nonFf, eq_comm, eq_flagByte_iff]
    rw [hflags.hasAdmin, Option.isSome_eq_false_iff, Option.isNone_iff_eq_none]
  constructor
  · intro h head nonFf hasAdmin hencodable hflags heq
    have hdecode := decodeRefHead_eq_ok_iff.mpr ⟨hencodable, nonFf, hasAdmin, hflags, heq⟩
    exact (hstep hflags).mp ((h head hdecode).trans heq)
  · intro h head hdecode
    obtain ⟨hencodable, nonFf, hasAdmin, hflags, heq⟩ := decodeRefHead_eq_ok_iff.mp hdecode
    rw [heq, hstep hflags]
    exact h head nonFf hasAdmin hencodable hflags heq

section Sample

attribute [local instance] leadingSha512 leadingDigestBytes

/-- Under the flag byte 2 a head is read as under 1, which is how it is written. -/
theorem encodeRefHead_ne_of_flag_two :
    ¬ ∀ bytes : Bytes, ∀ head : RefHead Digest,
      decodeRefHead bytes = .ok head → encodeRefHead head = bytes := by
  intro h
  have hflags : (signedHead 0).HasFlags 2 1 := ⟨by decide, by decide⟩
  have hdecode := decodeRefHead_encodeWithFlags (encodable_signedHead 0) hflags
  have hsame := h _ _ hdecode
  rw [encodeRefHead_eq_encodeWithFlags, encodeWithFlags_inj] at hsame
  exact absurd hsame.1 (by decide)

end Sample

end SafeHub
