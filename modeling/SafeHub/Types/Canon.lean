import SafeHub.Types.RefHead

/-!
# Reading canonical heads

The decoder of the canonical bytes of a head. It cuts fields off the front of its input
and fails where the input is too short or bytes are left at the end.

## Main definitions

* `decodeRefHead` — the decoder
* `encodeWithFlags` — the bytes of a head with flag bytes of any value
* `RefHead.HasFlags` — the flag bytes the decoder reads as this head's

## Main results

* `decodeRefHead_encodeRefHead` — decoding undoes encoding
-/

namespace SafeHub

open FixedWidth

/-- Cut `n` bytes off the front. -/
def takeBytes (buf : Bytes) (n : ℕ) : Except String (Bytes × Bytes) :=
  if buf.length < n then .error "truncated RefHead" else .ok (buf.splitAt n)

/-- Cut a field with a 32-bit big-endian length off the front. -/
def takeOpaque (buf : Bytes) : Except String (Bytes × Bytes) := do
  let (len, buf) ← takeBytes buf 4
  takeBytes buf (readBE len)

/-- The big-endian word of eight bytes. -/
def readU64BE (bytes : Bytes) : UInt64 := UInt64.ofNat (readBE bytes)

/-- Cut the optional last field off the front. -/
def takeAdminCosig (flag : Bytes) (buf : Bytes) : Except String (Option Bytes × Bytes) :=
  if flag = [0] then .ok (none, buf)
  else (takeOpaque buf).map fun (sig, buf) => (some sig, buf)

/-- Fail unless all bytes were read. -/
def finish {α : Type} (value : α) (rest : Bytes) : Except String α :=
  if rest.isEmpty then .ok value else .error "trailing bytes in RefHead"

variable {D : Type} [Sha512 D]

/-- Decode the canonical bytes of a head. -/
def decodeRefHead [DigestBytes D] (bytes : Bytes) : Except String (RefHead D) := do
  let (repo, bytes) ← takeBytes bytes 32
  let (seq, bytes) ← takeBytes bytes 8
  let (encRefs, bytes) ← takeOpaque bytes
  let (bundle, bytes) ← takeBytes bytes 64
  let (dekWrap, bytes) ← takeOpaque bytes
  let (prev, bytes) ← takeBytes bytes 64
  let (epoch, bytes) ← takeBytes bytes 8
  let (epochTag, bytes) ← takeOpaque bytes
  let (nonFf, bytes) ← takeBytes bytes 1
  let (pusherSig, bytes) ← takeOpaque bytes
  let (hasAdmin, bytes) ← takeBytes bytes 1
  let (adminCosig, bytes) ← takeAdminCosig hasAdmin bytes
  finish {
    repoId := byteArray 32 repo
    seq := readU64BE seq
    encRefs := encRefs
    bundleRoot := DigestBytes.ofBytes bundle
    dekWrap := dekWrap
    prevHeadHash := DigestBytes.ofBytes prev
    mlsEpoch := readU64BE epoch
    epochTag := epochTag
    nonFf := nonFf != [0]
    pusherSig := pusherSig
    adminCosig := adminCosig } bytes

/-- Every field of variable length has a 32-bit length, so that encoding does not panic. -/
structure RefHead.Encodable {D : Type} (head : RefHead D) : Prop where
  encRefs : head.encRefs.length < 2 ^ 32
  dekWrap : head.dekWrap.length < 2 ^ 32
  epochTag : head.epochTag.length < 2 ^ 32
  pusherSig : head.pusherSig.length < 2 ^ 32
  adminCosig : ∀ sig ∈ head.adminCosig, sig.length < 2 ^ 32

instance {D : Type} (head : RefHead D) : Decidable head.Encodable :=
  decidable_of_iff (head.encRefs.length < 2 ^ 32 ∧ head.dekWrap.length < 2 ^ 32 ∧
      head.epochTag.length < 2 ^ 32 ∧ head.pusherSig.length < 2 ^ 32 ∧
      ∀ sig ∈ head.adminCosig, sig.length < 2 ^ 32)
    ⟨fun ⟨a, b, c, d, e⟩ => ⟨a, b, c, d, e⟩, fun ⟨a, b, c, d, e⟩ => ⟨a, b, c, d, e⟩⟩

/-! ### Round trip -/

theorem ok_bind {α β : Type} (a : α) (next : α → Except String β) :
    (Except.ok a >>= next) = next a := rfl

theorem takeBytes_append {front : Bytes} {n : ℕ} (h : front.length = n) (rest : Bytes) :
    takeBytes (front ++ rest) n = .ok (front, rest) := by
  have hlength : ¬ (front ++ rest).length < n := by
    rw [List.length_append, h]
    omega
  rw [takeBytes, if_neg hlength, List.splitAt_eq, List.take_left' h, List.drop_left' h]

theorem takeOpaque_putOpaque {bytes : Bytes} (h : bytes.length < 2 ^ 32) (rest : Bytes) :
    takeOpaque (putOpaque bytes ++ rest) = .ok (bytes, rest) := by
  rw [takeOpaque, putOpaque, List.append_assoc, takeBytes_append (length_beBytes 4 _)]
  change takeBytes _ (readBE _) = _
  rw [readBE_beBytes h, takeBytes_append rfl]

theorem readU64BE_u64BE (x : UInt64) : readU64BE (u64BE x) = x := by
  rw [readU64BE, u64BE, readBE_beBytes x.toNat_lt, UInt64.ofNat_toNat]

/-- The flag byte that the encoder writes. -/
def flagByte (flag : Bool) : UInt8 := if flag then 1 else 0

theorem flagByte_eq_zero_iff {flag : Bool} : flagByte flag = 0 ↔ flag = false := by
  cases flag <;> decide

/-- The optional field behind its flag. -/
def adminBody (adminCosig : Option Bytes) : Bytes := adminCosig.elim [] putOpaque

/-- The bytes of a head with flag bytes of any value. -/
def encodeWithFlags (nonFf hasAdmin : UInt8) (head : RefHead D) : Bytes :=
  head.repoId.toList ++ (u64BE head.seq ++ (putOpaque head.encRefs ++
    (Sha512.toBytes head.bundleRoot ++ (putOpaque head.dekWrap ++
    (Sha512.toBytes head.prevHeadHash ++ (u64BE head.mlsEpoch ++ (putOpaque head.epochTag ++
    ([nonFf] ++ (putOpaque head.pusherSig ++
    ([hasAdmin] ++ adminBody head.adminCosig))))))))))

theorem encodeRefHead_eq_encodeWithFlags (head : RefHead D) : encodeRefHead head =
    encodeWithFlags (flagByte head.nonFf) (flagByte head.adminCosig.isSome) head := by
  rw [encodeRefHead, encodeWithFlags]
  cases head.adminCosig <;> simp [flagByte, adminBody]

/-- The flag bytes that the decoder reads as this head's: it asks only whether they are zero. -/
structure RefHead.HasFlags (head : RefHead D) (nonFf hasAdmin : UInt8) : Prop where
  nonFf : nonFf = 0 ↔ head.nonFf = false
  hasAdmin : hasAdmin = 0 ↔ head.adminCosig = none

theorem RefHead.hasFlags_flagByte {D : Type} (head : RefHead D) :
    head.HasFlags (flagByte head.nonFf) (flagByte head.adminCosig.isSome) :=
  ⟨flagByte_eq_zero_iff, by rw [flagByte_eq_zero_iff, Option.isSome_eq_false_iff,
    Option.isNone_iff_eq_none]⟩

theorem takeAdminCosig_adminBody {flag : UInt8} {adminCosig : Option Bytes} (rest : Bytes)
    (hlength : ∀ sig ∈ adminCosig, sig.length < 2 ^ 32) (hflag : flag = 0 ↔ adminCosig = none) :
    takeAdminCosig [flag] (adminBody adminCosig ++ rest) = .ok (adminCosig, rest) := by
  cases adminCosig with
  | none =>
    rw [hflag.mpr rfl]
    rfl
  | some sig =>
    have hne : ¬ [flag] = [0] := by
      rw [List.singleton_inj, hflag]
      exact Option.some_ne_none sig
    change takeAdminCosig [flag] (putOpaque sig ++ rest) = _
    rw [takeAdminCosig, if_neg hne, takeOpaque_putOpaque (hlength sig rfl)]
    rfl

variable [DigestBytes D] {head : RefHead D}

/-- Decoding reads back a head written under any flag bytes that say the same as the head. -/
theorem decodeRefHead_encodeWithFlags {nonFf hasAdmin : UInt8} (h : head.Encodable)
    (hflags : head.HasFlags nonFf hasAdmin) :
    decodeRefHead (encodeWithFlags nonFf hasAdmin head) = .ok head := by
  have hrepo (rest : Bytes) : takeBytes (head.repoId.toList ++ rest) 32 =
      .ok (head.repoId.toList, rest) := takeBytes_append Vector.length_toList rest
  have hword (x : UInt64) (rest : Bytes) : takeBytes (u64BE x ++ rest) 8 = .ok (u64BE x, rest) :=
    takeBytes_append (length_u64BE x) rest
  have hdigest (d : D) (rest : Bytes) : takeBytes (Sha512.toBytes d ++ rest) 64 =
      .ok (Sha512.toBytes d, rest) := takeBytes_append (DigestBytes.length_toBytes d) rest
  have hflag (b : UInt8) (rest : Bytes) : takeBytes ([b] ++ rest) 1 = .ok ([b], rest) :=
    takeBytes_append rfl rest
  have hnonFf : ([nonFf] != ([0] : Bytes)) = head.nonFf := by
    rw [Bool.eq_iff_iff, bne_iff_ne, ne_eq, List.singleton_inj, hflags.nonFf, Bool.not_eq_false]
  have hadmin := takeAdminCosig_adminBody [] h.adminCosig hflags.hasAdmin
  rw [List.append_nil] at hadmin
  simp only [decodeRefHead, encodeWithFlags, hrepo, hword, hdigest, hflag,
    takeOpaque_putOpaque h.encRefs, takeOpaque_putOpaque h.dekWrap,
    takeOpaque_putOpaque h.epochTag, takeOpaque_putOpaque h.pusherSig, ok_bind]
  change (takeAdminCosig [hasAdmin] (adminBody head.adminCosig) >>= _) = _
  rw [hadmin, ok_bind]
  simp only [readU64BE_u64BE, byteArray_toList, DigestBytes.ofBytes_toBytes, hnonFf]
  rfl

/-- Decoding undoes encoding. -/
theorem decodeRefHead_encodeRefHead (h : head.Encodable) :
    decodeRefHead (encodeRefHead head) = .ok head := by
  rw [encodeRefHead_eq_encodeWithFlags]
  exact decodeRefHead_encodeWithFlags h head.hasFlags_flagByte

end SafeHub
