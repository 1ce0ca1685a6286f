import SafeHub.Crypto.Aead
import SafeHub.Lib.Slices
import Mathlib.Data.List.Forall2

/-!
# Slices and buffers of the transport AEAD

The AEAD as it is computed: keys copied out of the expanded material, a pad filled block by block
in a zeroed buffer, masks laid over buffers in place, and a ciphertext cut at fixed offsets. Every
slice and every copy is checked, and is a panic where it is out of range.

## Main definitions

* `Checked` — a computation that can panic, or return an error
* `SlicedAead.sealWithNonce`, `SlicedAead.openSealed` — sealing and opening, slice by slice

## Main results

* `SlicedAead.sealWithNonce_eq_pure`, `SlicedAead.openSealed_eq` — they compute what the AEAD is,
  without a panic
* `SlicedAead.sealed_round_trip` — the round trip at every length
-/

namespace SafeHub

open FixedWidth Slices

/-- A computation that can panic, or return an error. -/
abbrev Checked (α : Type) := ExceptT AeadError Option α

/-- A step that panics where it is undefined. -/
def Checked.ofOption {α : Type} (o : Option α) : Checked α := ExceptT.lift o

@[simp] theorem Checked.ofOption_some {α : Type} (a : α) :
    Checked.ofOption (some a) = pure a := rfl

namespace SlicedAead

open CommittingAead (commitBlock)

/-- Lengths first, and then all bytes without an early exit. -/
def ctEq (a b : Bytes) : Bool :=
  if a.length ≠ b.length then false
  else (a.zip b).foldl (fun diff p => diff ||| (p.1 ^^^ p.2)) 0 == 0

/-- Exclusive or in place, as far as both buffers go. -/
def xorInto : Bytes → Bytes → Bytes
  | b :: buf, p :: pad => (b ^^^ p) :: xorInto buf pad
  | buf, _ => buf

theorem xorInto_eq_xorBytes {buf pad : Bytes} (h : pad.length = buf.length) :
    xorInto buf pad = CommittingAead.xorBytes buf pad := by
  induction buf generalizing pad with
  | nil => rfl
  | cons b buf ih =>
    cases pad with
    | nil => cases h
    | cons p pad =>
      have htail := ih (Nat.succ.inj h)
      rw [CommittingAead.xorBytes] at htail ⊢
      rw [xorInto, List.zipWith_cons_cons, htail]

/-- Of different bytes an exclusive or has a bit, and it is not lost. -/
theorem foldl_diff_eq_zero_iff {pairs : List (UInt8 × UInt8)} {diff : UInt8} :
    pairs.foldl (fun diff p => diff ||| (p.1 ^^^ p.2)) diff = 0 ↔
      diff = 0 ∧ ∀ p ∈ pairs, p.1 = p.2 := by
  induction pairs generalizing diff with
  | nil => simp
  | cons p pairs ih =>
    rw [List.foldl_cons, ih, UInt8.or_eq_zero_iff, UInt8.xor_eq_zero_iff, List.forall_mem_cons,
      and_assoc]

theorem ctEq_eq_true_iff {a b : Bytes} : ctEq a b = true ↔ a = b := by
  rw [← List.forall₂_eq_eq_eq, List.forall₂_iff_zip, ctEq]
  split_ifs with hlength
  · exact iff_of_false id fun h => hlength h.1
  · rw [beq_iff_eq, foldl_diff_eq_zero_iff]
    constructor
    · intro h
      exact ⟨not_not.mp hlength, fun hmem => h.2 _ hmem⟩
    · intro h
      exact ⟨rfl, fun p hp => h.2 hp⟩

theorem ctEq_eq_false_iff {a b : Bytes} : ctEq a b = false ↔ a ≠ b := by
  rw [← Bool.not_eq_true, ctEq_eq_true_iff]

variable [HashPrimitives]

/-- HKDF-SHA-512 fills a buffer of at most 255 blocks. -/
def hkdfExpandInto (key info okm : Bytes) : Checked Bytes :=
  if okm.length ≤ 255 * 64 then pure (HashPrimitives.hkdfExpand key info okm.length)
  else throw .encrypt

def expandAeadKeys (key : Bytes) : Checked (Bytes × Bytes) := do
  let okm ← hkdfExpandInto key (labelBytes "aead-keys") (List.replicate 64 0)
  let enc ← Checked.ofOption (do copyFrom (List.replicate 32 0) (← slice okm 0 32))
  let mac ← Checked.ofOption (do copyFrom (List.replicate 32 0) (← slice okm 32 okm.length))
  return (enc, mac)

/-- Fill the pad from an offset on, a block at a time. -/
def fillPad (padKey : Bytes) (len : ℕ) (pad : Bytes) (off ctr : ℕ) : Option Bytes :=
  if off < len then do
    let block := HashPrimitives.sha512 (padKey ++ beBytes 8 ctr)
    let take := min block.length (len - off)
    let pad ← copyAt pad off (off + take) (← slice block 0 take)
    fillPad padKey len pad (off + take) (ctr + 1)
  else some pad
termination_by len - off
decreasing_by
  rw [HashPrimitives.length_sha512]
  omega

def expandPad (encKey nonce aad : Bytes) (len : ℕ) : Checked Bytes := do
  let binder := HashPrimitives.hmacSha512 encKey
    (labelBytes "aead-pad" ++ nonce ++ aad ++ beBytes 8 len)
  let padKey ← Checked.ofOption (copyFrom (List.replicate 64 0) binder)
  Checked.ofOption (fillPad padKey len (List.replicate len 0) 0 0)

def outerHmac (macKey aad body : Bytes) : Checked Bytes := do
  let full := HashPrimitives.hmacSha512 macKey (aad ++ body)
  Checked.ofOption (do copyFrom (List.replicate tagLen 0) (← slice full 0 tagLen))

def sealWithNonce (key aad plaintext nonce : Bytes) : Checked Bytes := do
  let (enc, mac) ← expandAeadKeys key
  let bodyLen := commitBlock.length + plaintext.length
  let pad ← expandPad enc nonce aad bodyLen
  let padded := xorInto (commitBlock ++ plaintext) pad
  let tag ← outerHmac mac aad padded
  return nonce ++ padded ++ tag

def openSealed (key aad sealed : Bytes) : Checked Bytes := do
  if sealed.length < 12 + commitBlock.length + tagLen then
    throw .decrypt
  let (body, tag) ← Checked.ofOption (do splitAt sealed (← checkedSub sealed.length tagLen))
  let (nonce, ctBody) ← Checked.ofOption (splitAt body 12)
  let (enc, mac) ← expandAeadKeys key
  let expected ← outerHmac mac aad ctBody
  if ctEq tag expected = false then
    throw .decrypt
  let pad ← expandPad enc nonce aad ctBody.length
  let buf := xorInto ctBody pad
  if buf.length < commitBlock.length then
    throw .decrypt
  if (← Checked.ofOption (slice buf 0 commitBlock.length)) ≠ commitBlock then
    throw .decrypt
  Checked.ofOption (slice buf commitBlock.length buf.length)

/-! ### Without a panic -/

theorem expandAeadKeys_eq_pure (key : Bytes) :
    expandAeadKeys key = pure (CommittingAead.expandAeadKeys key) := by
  have hlength := HashPrimitives.length_hkdfExpand key (labelBytes "aead-keys") 64
  rw [expandAeadKeys, hkdfExpandInto, List.length_replicate, if_pos (by decide), pure_bind,
    slice_zero (by rw [hlength]; decide), slice_length (by rw [hlength]; decide)]
  simp only [Option.bind_eq_bind, Option.bind_some]
  rw [copyFrom_of_length_eq, copyFrom_of_length_eq, Checked.ofOption_some, pure_bind,
    Checked.ofOption_some, pure_bind]
  · rfl
  · rw [List.length_replicate, List.length_drop, hlength]
  · rw [List.length_replicate, List.length_take, hlength]
    rfl

/-- What is filled is filled; the rest becomes pad blocks. -/
theorem fillPad_eq_some (padKey filled rest : Bytes) (ctr : ℕ) :
    fillPad padKey (filled.length + rest.length) (filled ++ rest) filled.length ctr =
      some (filled ++ CommittingAead.padBlocks padKey ctr rest.length) := by
  induction hrest : rest.length using Nat.strong_induction_on generalizing filled rest ctr with
  | _ n ih =>
    rw [fillPad]
    by_cases hn : n = 0
    · rw [if_neg (by omega), hn, CommittingAead.padBlocks, if_pos rfl, List.append_nil,
        List.length_eq_zero_iff.mp (hrest.trans hn), List.append_nil]
    · set block := HashPrimitives.sha512 (padKey ++ beBytes 8 ctr) with hblock
      have hsize : block.length = 64 := HashPrimitives.length_sha512 _
      have hleft : filled.length + n - filled.length = n := by omega
      set chunk := block.take (min 64 n) with hchunk
      have hchunkLen : chunk.length = min 64 n := by
        rw [hchunk, List.length_take, hsize]
        omega
      have hpart : (rest.take (min 64 n)).length = chunk.length := by
        rw [List.length_take, hrest, hchunkLen]
        omega
      have hcopy := copyAt_append filled (rest.drop (min 64 n)) hpart
      rw [List.append_assoc, List.take_append_drop, hchunkLen] at hcopy
      have hfilled : (filled ++ chunk).length = filled.length + min 64 n := by
        rw [List.length_append, hchunkLen]
      have hrestLen : (rest.drop (min 64 n)).length = n - 64 := by
        rw [List.length_drop, hrest]
        omega
      -- one block more is filled
      have hnext := ih (n - 64) (by omega) (filled ++ chunk) (rest.drop (min 64 n)) (ctr + 1)
        hrestLen
      rw [hfilled, show filled.length + min 64 n + (n - 64) = filled.length + n by omega] at hnext
      have hblocks : CommittingAead.padBlocks padKey ctr n =
          chunk ++ CommittingAead.padBlocks padKey (ctr + 1) (n - 64) := by
        rw [CommittingAead.padBlocks, if_neg hn]
      rw [if_pos (by omega), hleft]
      dsimp only
      rw [hsize, slice_zero (by rw [hsize]; omega), Option.bind_eq_bind, Option.bind_some,
        ← hchunk, hcopy, Option.bind_some, hnext, hblocks, List.append_assoc]

theorem expandPad_eq_pure (encKey nonce aad : Bytes) (len : ℕ) :
    expandPad encKey nonce aad len = pure (CommittingAead.expandPad encKey nonce aad len) := by
  have hfill := fun padKey => fillPad_eq_some padKey [] (List.replicate len 0) 0
  simp only [List.length_nil, List.length_replicate, Nat.zero_add, List.nil_append] at hfill
  rw [expandPad, copyFrom_of_length_eq, Checked.ofOption_some, pure_bind, hfill,
    Checked.ofOption_some]
  · rfl
  · rw [List.length_replicate, HashPrimitives.length_hmacSha512]

theorem outerHmac_eq_pure (macKey aad body : Bytes) :
    outerHmac macKey aad body = pure (CommittingAead.outerHmac macKey aad body) := by
  have hlength := HashPrimitives.length_hmacSha512 macKey (aad ++ body)
  rw [outerHmac, slice_zero (by rw [hlength]; decide)]
  simp only [Option.bind_eq_bind, Option.bind_some]
  rw [copyFrom_of_length_eq, Checked.ofOption_some]
  · rfl
  · rw [List.length_replicate, List.length_take, hlength]
    rfl

/-- Sealing does not panic and does not fail. -/
theorem sealWithNonce_eq_pure (key aad plaintext nonce : Bytes) :
    sealWithNonce key aad plaintext nonce =
      pure (CommittingAead.sealWithNonce key aad plaintext nonce) := by
  rw [sealWithNonce, expandAeadKeys_eq_pure, pure_bind]
  dsimp only
  rw [expandPad_eq_pure, pure_bind, outerHmac_eq_pure, pure_bind, xorInto_eq_xorBytes]
  · rw [CommittingAead.sealWithNonce, ← List.length_append]
  · rw [CommittingAead.length_expandPad, List.length_append]

/-- Opening does not panic. -/
theorem openSealed_eq (key aad sealed : Bytes) :
    openSealed key aad sealed = ExceptT.mk (some (CommittingAead.openSealed key aad sealed)) := by
  rw [openSealed, CommittingAead.openSealed]
  by_cases hshort : sealed.length < 12 + commitBlock.length + tagLen
  · rw [if_pos hshort, if_pos hshort]
    rfl
  -- what is long enough can be cut at the offsets of nonce and tag
  rw [if_neg hshort, if_neg hshort, checkedSub_of_le (by omega)]
  simp only [Option.bind_eq_bind, Option.bind_some]
  rw [splitAt_of_le (Nat.sub_le ..), Checked.ofOption_some]
  simp only [pure_bind]
  rw [splitAt_of_le (by rw [List.length_take]; omega), Checked.ofOption_some]
  simp only [pure_bind, expandAeadKeys_eq_pure, outerHmac_eq_pure, expandPad_eq_pure]
  set ctBody := (sealed.take (sealed.length - tagLen)).drop 12 with hctBody
  set nonce := (sealed.take (sealed.length - tagLen)).take 12
  set keys := CommittingAead.expandAeadKeys key
  by_cases htag : sealed.drop (sealed.length - tagLen) ≠ CommittingAead.outerHmac keys.2 aad ctBody
  · rw [if_pos (ctEq_eq_false_iff.mpr htag), if_pos htag]
    rfl
  rw [if_neg (mt ctEq_eq_false_iff.mp htag), if_neg htag,
    xorInto_eq_xorBytes (CommittingAead.length_expandPad ..)]
  -- and leaves a body with room for the commitment block
  have hlength : commitBlock.length ≤ (CommittingAead.xorBytes ctBody
      (CommittingAead.expandPad keys.1 nonce aad ctBody.length)).length := by
    rw [CommittingAead.length_xorBytes (CommittingAead.length_expandPad ..), hctBody,
      List.length_drop, List.length_take]
    omega
  generalize CommittingAead.xorBytes ctBody _ = plain at hlength ⊢
  rw [if_neg (Nat.not_lt.mpr hlength), slice_zero hlength, slice_length hlength]
  simp only [Checked.ofOption_some, pure_bind]
  by_cases hcommit : plain.take commitBlock.length ≠ commitBlock
  · rw [if_pos hcommit, if_pos hcommit]
    rfl
  · rw [if_neg hcommit, if_neg hcommit]
    rfl

/-- Sealing gives 92 bytes more than the plaintext, and opening gives it back, whatever its
length. Opening never panics, and fails on all that is shorter than 92 bytes. -/
theorem sealed_round_trip (key aad plaintext : Bytes) (nonce : Vector UInt8 12) :
    ∃ sealed, sealWithNonce key aad plaintext nonce.toList = pure sealed ∧
      sealed.length = plaintext.length + 92 ∧ openSealed key aad sealed = pure plaintext ∧
      ∀ input, (openSealed key aad input).run ≠ none ∧
        (input.length < 92 → openSealed key aad input = throw .decrypt) := by
  have hnonce : nonce.toList.length = 12 := nonce.length_toList
  refine ⟨_, sealWithNonce_eq_pure key aad plaintext nonce.toList, ?_, ?_, fun input => ⟨?_, ?_⟩⟩
  · have hcommit : commitBlock.length = 48 := by decide +kernel
    rw [CommittingAead.length_sealWithNonce, hnonce, hcommit, tagLen]
    omega
  · rw [openSealed_eq, CommittingAead.openSealed_sealWithNonce key aad plaintext hnonce]
    rfl
  · rw [openSealed_eq]
    exact Option.some_ne_none _
  · intro hshort
    rw [openSealed_eq, CommittingAead.openSealed, CommittingAead.length_commitBlock, tagLen,
      if_pos hshort]
    rfl

end SlicedAead

end SafeHub
