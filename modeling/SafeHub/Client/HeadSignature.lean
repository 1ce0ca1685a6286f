import SafeHub.Client.Policy

/-!
# What the pusher's signature covers

The leaf transcript writes the sealed refs, the wrapped key and the epoch tag one after
the other with fixed-width fields in between, and without their lengths. Bytes at a
field's end can be moved into the next one, through the fixed-width field that stands
between them.

## Main results

* `unsigned_eq_iff_of_leafSignMessage_eq` — when two heads with one transcript agree
* `exists_leafSignMessage_eq` — a head with any byte in those fields has another one
* `leafSignMessage_determines_iff` — which heads their transcript determines
-/

namespace SafeHub

open FixedWidth

variable {D : Type} [Sha512 D]

/-- The transcript's fields, in order. -/
def signedFields (head : RefHead D) : List Bytes :=
  [labelBytes "refhead", head.repoId.toList, u64LE head.seq, head.encRefs,
    Sha512.toBytes head.bundleRoot, head.dekWrap, Sha512.toBytes head.prevHeadHash,
    u64LE head.mlsEpoch, head.epochTag, [if head.nonFf then 1 else 0]]

theorem leafSignMessage_eq_flatten (head : RefHead D) :
    leafSignMessage head = (signedFields head).flatten := by
  simp [leafSignMessage, refheadLeafMessage, signedFields]

section Determined

variable [DigestBytes D] {h₁ h₂ : RefHead D}

/-- Equal fields are those of heads that agree up to their signatures. -/
theorem unsigned_eq_of_signedFields_eq (h : signedFields h₁ = signedFields h₂) :
    h₁.unsigned = h₂.unsigned := by
  simp only [signedFields, List.cons.injEq] at h
  obtain ⟨_, hrepo, hseq, henc, hroot, hdek, hprev, hepoch, htag, hff, _⟩ := h
  have hnonFf : h₁.nonFf = h₂.nonFf := by
    cases hone : h₁.nonFf <;> cases htwo : h₂.nonFf <;> simp [hone, htwo] at hff ⊢
  rw [RefHead.unsigned, RefHead.unsigned, RefHead.mk.injEq]
  exact ⟨Vector.toList_inj.mp hrepo, u64LE_injective hseq, henc, toBytes_injective hroot, hdek,
    toBytes_injective hprev, u64LE_injective hepoch, htag, hnonFf, rfl, rfl⟩

/-- Equal transcripts are equally long. -/
theorem length_eq_of_leafSignMessage_eq (h : leafSignMessage h₁ = leafSignMessage h₂) :
    h₁.encRefs.length + h₁.dekWrap.length + h₁.epochTag.length =
      h₂.encRefs.length + h₂.dekWrap.length + h₂.epochTag.length := by
  have hlength := congrArg List.length h
  simp only [leafSignMessage_eq_flatten, signedFields, List.flatten_cons, List.flatten_nil,
    List.length_append, List.length_nil, length_u64LE, DigestBytes.length_toBytes,
    Vector.length_toList, List.length_cons] at hlength
  omega

/-- Two heads with one transcript agree exactly when the first two of its fields of
variable length are as long in both. -/
theorem unsigned_eq_iff_of_leafSignMessage_eq (h : leafSignMessage h₁ = leafSignMessage h₂) :
    h₁.unsigned = h₂.unsigned ↔
      h₁.encRefs.length = h₂.encRefs.length ∧ h₁.dekWrap.length = h₂.dekWrap.length := by
  constructor
  · intro hsame
    exact ⟨congrArg (fun head => head.encRefs.length) hsame,
      congrArg (fun head => head.dekWrap.length) hsame⟩
  · intro ⟨henc, hdek⟩
    have htag : h₁.epochTag.length = h₂.epochTag.length := by
      have htotal := length_eq_of_leafSignMessage_eq h
      omega
    apply unsigned_eq_of_signedFields_eq
    rw [List.eq_iff_flatten_eq, ← leafSignMessage_eq_flatten, ← leafSignMessage_eq_flatten]
    refine ⟨h, ?_⟩
    simp [signedFields, henc, hdek, htag]

end Determined

/-! ### Moving a byte -/

/-- A byte put behind a block pushes another one out in front of it. -/
theorem exists_cons_eq_concat {block : Bytes} (h : block ≠ []) (b : UInt8) :
    ∃ (c : UInt8) (block' : Bytes), block'.length = block.length ∧ block ++ [b] = c :: block' := by
  cases block with
  | nil => exact absurd rfl h
  | cons c rest => exact ⟨c, rest ++ [b], by simp, rfl⟩

/-- A byte put in front of a block pushes another one out behind it. -/
theorem exists_concat_eq_cons (b : UInt8) {block : Bytes} (h : block ≠ []) :
    ∃ (block' : Bytes) (c : UInt8), block'.length = block.length ∧ b :: block = block' ++ [c] := by
  refine ⟨b :: block.dropLast, block.getLast h, ?_, ?_⟩
  · have hpos := List.length_pos_iff.mpr h
    rw [List.length_cons, List.length_dropLast]
    omega
  · rw [List.cons_append, List.dropLast_append_getLast]

/-- Heads that differ only in how one byte string is cut into their fields have one
transcript. -/
theorem leafSignMessage_congr {h₁ h₂ : RefHead D} (hrepo : h₁.repoId = h₂.repoId)
    (hseq : h₁.seq = h₂.seq) (hff : h₁.nonFf = h₂.nonFf)
    (hbody : h₁.encRefs ++ Sha512.toBytes h₁.bundleRoot ++ h₁.dekWrap ++
        (Sha512.toBytes h₁.prevHeadHash ++ u64LE h₁.mlsEpoch) ++ h₁.epochTag =
      h₂.encRefs ++ Sha512.toBytes h₂.bundleRoot ++ h₂.dekWrap ++
        (Sha512.toBytes h₂.prevHeadHash ++ u64LE h₂.mlsEpoch) ++ h₂.epochTag) :
    leafSignMessage h₁ = leafSignMessage h₂ := by
  have hmessage (head : RefHead D) : leafSignMessage head =
      labelBytes "refhead" ++ head.repoId.toList ++ u64LE head.seq ++
        (head.encRefs ++ Sha512.toBytes head.bundleRoot ++ head.dekWrap ++
          (Sha512.toBytes head.prevHeadHash ++ u64LE head.mlsEpoch) ++ head.epochTag) ++
        [if head.nonFf then 1 else 0] := by
    simp [leafSignMessage, refheadLeafMessage]
  rw [hmessage, hmessage, hrepo, hseq, hff, hbody]

section Moved

variable [DigestBytes D]

theorem toBytes_ne_nil (d : D) : Sha512.toBytes d ≠ [] := by
  intro h
  have hlength := DigestBytes.length_toBytes d
  rw [h] at hlength
  cases hlength

theorem exists_toBytes_eq (bytes : Bytes) (h : bytes.length = 64) :
    ∃ d : D, Sha512.toBytes d = bytes :=
  ⟨DigestBytes.ofBytes bytes, DigestBytes.toBytes_ofBytes bytes h⟩

/-- The last byte of the sealed refs moves to the wrapped key, through the bundle root. -/
theorem exists_shorter_encRefs {head : RefHead D} (h : head.encRefs ≠ []) :
    ∃ other : RefHead D, leafSignMessage head = leafSignMessage other ∧
      other.encRefs.length ≠ head.encRefs.length := by
  obtain ⟨block, c, hlength, hmoved⟩ :=
    exists_concat_eq_cons (head.encRefs.getLast h) (toBytes_ne_nil head.bundleRoot)
  obtain ⟨root, hroot⟩ := exists_toBytes_eq (D := D) block (by simp [hlength])
  have hbytes : head.encRefs ++ Sha512.toBytes head.bundleRoot =
      head.encRefs.dropLast ++ Sha512.toBytes root ++ [c] :=
    calc head.encRefs ++ Sha512.toBytes head.bundleRoot
      _ = head.encRefs.dropLast ++ head.encRefs.getLast h :: Sha512.toBytes head.bundleRoot := by
        conv_lhs => rw [← List.dropLast_append_getLast h]
        rw [List.append_assoc, List.singleton_append]
      _ = head.encRefs.dropLast ++ Sha512.toBytes root ++ [c] := by
        rw [hmoved, hroot, List.append_assoc]
  refine ⟨{
    head with
    encRefs := head.encRefs.dropLast
    bundleRoot := root
    dekWrap := c :: head.dekWrap }, leafSignMessage_congr rfl rfl rfl ?_, ?_⟩
  · simp [hbytes]
  · have hpos := List.length_pos_iff.mpr h
    simp only [List.length_dropLast]
    omega

/-- The first byte of the wrapped key moves to the sealed refs, through the bundle root. -/
theorem exists_longer_encRefs {head : RefHead D} (h : head.dekWrap ≠ []) :
    ∃ other : RefHead D, leafSignMessage head = leafSignMessage other ∧
      other.encRefs.length ≠ head.encRefs.length := by
  obtain ⟨b, dek, hdek⟩ := List.exists_cons_of_ne_nil h
  obtain ⟨c, block, hlength, hmoved⟩ := exists_cons_eq_concat (toBytes_ne_nil head.bundleRoot) b
  obtain ⟨root, hroot⟩ := exists_toBytes_eq (D := D) block (by simp [hlength])
  have hbytes :
      Sha512.toBytes head.bundleRoot ++ head.dekWrap = c :: Sha512.toBytes root ++ dek := by
    rw [hdek, hroot, ← hmoved, List.append_assoc, List.singleton_append]
  refine ⟨{
    head with
    encRefs := head.encRefs ++ [c]
    bundleRoot := root
    dekWrap := dek }, leafSignMessage_congr rfl rfl rfl ?_, ?_⟩
  · rw [List.append_assoc head.encRefs, hbytes]
    simp
  · simp

/-- The first byte of the epoch tag moves to the wrapped key, through the previous hash and
the epoch. -/
theorem exists_longer_dekWrap {head : RefHead D} (h : head.epochTag ≠ []) :
    ∃ other : RefHead D, leafSignMessage head = leafSignMessage other ∧
      other.dekWrap.length ≠ head.dekWrap.length := by
  obtain ⟨b, tag, htag⟩ := List.exists_cons_of_ne_nil h
  have hne : Sha512.toBytes head.prevHeadHash ++ u64LE head.mlsEpoch ≠ [] := by
    intro hnil
    exact toBytes_ne_nil _ (List.append_eq_nil_iff.mp hnil).1
  obtain ⟨c, block, hlength, hmoved⟩ := exists_cons_eq_concat hne b
  rw [List.length_append, DigestBytes.length_toBytes, length_u64LE] at hlength
  -- the shifted block is cut where the previous hash and the epoch stand
  obtain ⟨prev, hprev⟩ := exists_toBytes_eq (D := D) (block.take 64) (by simp [hlength])
  obtain ⟨epoch, hepoch⟩ := exists_u64LE_eq (block.drop 64) (by simp [hlength])
  have hbytes : Sha512.toBytes head.prevHeadHash ++ u64LE head.mlsEpoch ++ head.epochTag =
      c :: (Sha512.toBytes prev ++ u64LE epoch) ++ tag := by
    rw [hprev, hepoch, List.take_append_drop, ← hmoved, htag, List.append_assoc _ [b],
      List.singleton_append]
  refine ⟨{
    head with
    dekWrap := head.dekWrap ++ [c]
    prevHeadHash := prev
    mlsEpoch := epoch
    epochTag := tag }, leafSignMessage_congr rfl rfl rfl ?_, ?_⟩
  · rw [List.append_assoc _ _ head.epochTag, hbytes]
    simp
  · simp

/-- A head with a byte in a field of variable length shares its transcript with a head
whose fields are cut elsewhere. -/
theorem exists_leafSignMessage_eq {head : RefHead D}
    (h : ¬ (head.encRefs = [] ∧ head.dekWrap = [] ∧ head.epochTag = [])) :
    ∃ other : RefHead D, leafSignMessage head = leafSignMessage other ∧
      head.unsigned ≠ other.unsigned := by
  -- one of the three fields has a byte to give away
  by_cases henc : head.encRefs = []
  · by_cases hdek : head.dekWrap = []
    · have htag : head.epochTag ≠ [] := by
        intro hnil
        exact h ⟨henc, hdek, hnil⟩
      obtain ⟨other, hmessage, hlength⟩ := exists_longer_dekWrap htag
      exact ⟨other, hmessage, fun hsame =>
        hlength (congrArg (fun head => head.dekWrap.length) hsame.symm)⟩
    · obtain ⟨other, hmessage, hlength⟩ := exists_longer_encRefs hdek
      exact ⟨other, hmessage, fun hsame =>
        hlength (congrArg (fun head => head.encRefs.length) hsame.symm)⟩
  · obtain ⟨other, hmessage, hlength⟩ := exists_shorter_encRefs henc
    exact ⟨other, hmessage, fun hsame =>
      hlength (congrArg (fun head => head.encRefs.length) hsame.symm)⟩

/-- Of two heads with one transcript, both agree up to their signatures exactly when their
sealed refs and their wrapped keys are as long; and the transcript determines a head
exactly when none of its fields of variable length holds a byte. -/
theorem leafSignMessage_determines_iff :
    (∀ h₁ h₂ : RefHead D, leafSignMessage h₁ = leafSignMessage h₂ →
      (h₁.unsigned = h₂.unsigned ↔ h₁.encRefs.length = h₂.encRefs.length ∧
        h₁.dekWrap.length = h₂.dekWrap.length)) ∧
    ∀ head : RefHead D,
      (∀ other, leafSignMessage head = leafSignMessage other → head.unsigned = other.unsigned) ↔
        head.encRefs = [] ∧ head.dekWrap = [] ∧ head.epochTag = [] := by
  refine ⟨fun _ _ => unsigned_eq_iff_of_leafSignMessage_eq, fun head => ⟨fun hall => ?_, ?_⟩⟩
  · by_contra hnonempty
    obtain ⟨other, hmessage, hne⟩ := exists_leafSignMessage_eq hnonempty
    exact hne (hall other hmessage)
  · intro ⟨henc, hdek, htag⟩ other hmessage
    have htotal := length_eq_of_leafSignMessage_eq hmessage
    rw [henc, hdek, htag, List.length_nil] at htotal
    rw [unsigned_eq_iff_of_leafSignMessage_eq hmessage, henc, hdek, List.length_nil]
    constructor <;> omega

end Moved

section Sample

attribute [local instance] leadingSha512 leadingDigestBytes transparentMlDsa87

/-- A head signed by the device with seed `7`, whose bundle root is the first 64 bytes of
`root`. -/
def sampleSignedHead (encRefs root dekWrap sig : Bytes) : RefHead Digest where
  repoId := Vector.replicate 32 5
  seq := 1
  encRefs := encRefs
  bundleRoot := byteArray 64 root
  dekWrap := dekWrap
  prevHeadHash := Sha512.zero
  mlsEpoch := 0
  epochTag := List.replicate 32 3
  nonFf := false
  pusherSig := sig
  adminCosig := none

/-- The head the device signs. -/
def sampleHonest (sig : Bytes) : RefHead Digest :=
  sampleSignedHead [1] (List.replicate 64 0) [2] sig

/-- The same bytes, the sealed refs' last one moved on. -/
def sampleMoved (sig : Bytes) : RefHead Digest :=
  sampleSignedHead [] (1 :: List.replicate 63 0) [0, 2] sig

theorem leafSignMessage_sampleMoved (sig : Bytes) :
    leafSignMessage (sampleHonest sig) = leafSignMessage (sampleMoved sig) := by
  apply leafSignMessage_congr
  · rfl
  · rfl
  · rfl
  · rfl

/-- The transcript does not determine the head: with the refs' last byte moved to the next
field, the device's signature is as good on another head. -/
theorem leafSignMessage_not_injective :
    ∃ sig, leafSignMessage (sampleHonest sig) = leafSignMessage (sampleMoved sig) ∧
      (sampleHonest sig).unsigned ≠ (sampleMoved sig).unsigned ∧
      verifyPusherSig (sampleHonest sig) (paddedKey (flatSeed 7)) = .ok () ∧
      verifyPusherSig (sampleMoved sig) (paddedKey (flatSeed 7)) = .ok () := by
  refine ⟨clearSig (flatSeed 7) (leafSignMessage (sampleHonest [])),
    leafSignMessage_sampleMoved _, ?_, ?_, ?_⟩
  · intro hsame
    exact absurd (congrArg RefHead.encRefs hsame) (List.cons_ne_nil _ _)
  · exact verifyPusherSig_flatSeed rfl rfl
  · exact verifyPusherSig_flatSeed (leafSignMessage_sampleMoved []).symm rfl

theorem leafSignMessage_determines_iff_sample :
    ((sampleHonest []).unsigned = (sampleMoved []).unsigned ↔
      (sampleHonest []).encRefs.length = (sampleMoved []).encRefs.length ∧
        (sampleHonest []).dekWrap.length = (sampleMoved []).dekWrap.length) :=
  leafSignMessage_determines_iff.1 _ _ (leafSignMessage_sampleMoved [])

end Sample

end SafeHub
