import Mathlib.Data.Nat.Bitwise
import SafeHub.Lib.Slices
import SafeHub.SGit.OpCodec

/-!
# Operations in machine words

A block of operations comes from a host, and its numbers may be any of 64 bits. The decoder and
the two functions that apply operations are taken here as the machine runs them: a shift beyond
the width, a slice out of range and, in a build that checks it, a sum that does not fit are faults.
A place and a length are clamped to the text, but the sum of the two is formed before.

## Main definitions

* `decodeOpsWord` — the decoder
* `Op.applyWord`, `applyCharsWord`, `applyLinesWord` — operations on a text
* `SumsFit` — no deletion ends beyond the largest word

## Main results

* `decodeOpsWord_eq` — the decoder has no fault
* `foldlM_applyWord` — when operations have none
* `decodeOps_roundTrip`, `comDiffChar_patch`, `deltaApplies_iff` — blocks, differences, deltas
-/

namespace SafeHub.SGit

open EditScript Slices

/-! ### The decoder -/

/-- `<<` on a `u64`. -/
def shiftLeftWord (v : UInt64) (shift : ℕ) : Option UInt64 :=
  if shift < 64 then some (v <<< UInt64.ofNat shift) else none

/-- The loop of `get_uvar`. An error is `some none`. -/
def getUvarWord (v : UInt64) (shift : ℕ) : Bytes → Option (Option (UInt64 × Bytes))
  | [] => some none
  | byte :: b => do
    let bits ← shiftLeftWord (byte &&& 0x7f).toUInt64 shift
    let v := v ||| bits
    if byte &&& 0x80 = 0 then return some (v, b)
    else if 63 < shift + 7 then return none
    else getUvarWord v (shift + 7) b

/-- The operation after a tag. -/
def decodeOpWord (tag : UInt8) (b : Bytes) : Option (Option (Op × Bytes)) := do
  let some (idx, b) ← getUvarWord 0 0 b | return none
  let some (n, b) ← getUvarWord 0 0 b | return none
  if tag = 0 then return some (.delete idx.toNat n.toNat, b)
  else if tag = 1 then
    if b.length < n.toNat then return none
    else
      let some m := fromUtf8 (← slice b 0 n.toNat) | return none
      let b ← slice b n.toNat b.length
      return some (.insert idx.toNat m, b)
  else return none

section Decoding

variable {v : UInt64} {shift : ℕ} {b : Bytes}

/-- A byte is taken apart by masks or by division. -/
theorem toNat_and_mask (byte : UInt8) :
    (byte &&& 0x7f).toNat = byte.toNat % 128 ∧ (byte &&& 0x80 = 0 ↔ byte.toNat / 128 = 0) := by
  constructor
  · rw [UInt8.toNat_and]
    exact Nat.and_two_pow_sub_one_eq_mod byte.toNat 7
  · have htop : (byte &&& 0x80).toNat = (byte.toNat.testBit 7).toNat * 2 ^ 7 := by
      rw [UInt8.toNat_and]
      exact Nat.and_two_pow byte.toNat 7
    have hbyte := byte.toNat_lt
    rw [← UInt8.toNat_inj, htop, Nat.testBit_eq_decide_div_mod_eq]
    by_cases hbit : byte.toNat / 2 ^ 7 % 2 = 1
    · rw [decide_eq_true hbit]
      have hset : byte.toNat / 128 ≠ 0 := by omega
      exact iff_of_false (by decide) hset
    · rw [decide_eq_false hbit]
      have hclear : byte.toNat / 128 = 0 := by omega
      exact iff_of_true (by decide) hclear

/-- The loop in words reads what the loop on numbers does. -/
theorem getUvarWord_eq (hshift : shift < 64) : (getUvarWord v shift b).map
      (Option.map (Prod.map UInt64.toNat id)) = some (Varint.getFrom 64 v.toNat shift b) := by
  induction b generalizing v shift with
  | nil => rfl
  | cons byte b ih =>
    obtain ⟨hlow, hlast⟩ := toNat_and_mask byte
    have hbits : (v ||| (byte &&& 0x7f).toUInt64 <<< UInt64.ofNat shift).toNat =
        v.toNat ||| (byte.toNat % 128) <<< shift % 2 ^ 64 := by
      have hamount : (UInt64.ofNat shift).toNat % 64 = shift := by
        rw [UInt64.toNat_ofNat']
        omega
      rw [UInt64.toNat_or, UInt64.toNat_shiftLeft, UInt8.toNat_toUInt64, hlow, hamount]
    rw [getUvarWord, shiftLeftWord, if_pos hshift, Option.bind_eq_bind, Option.bind_some,
      Varint.getFrom]
    simp only [hlast]
    rw [← hbits]
    by_cases hend : byte.toNat / 128 = 0
    · rw [if_pos hend, if_pos hend]
      rfl
    · rw [if_neg hend, if_neg hend]
      by_cases hwide : 63 < shift + 7
      · rw [if_pos hwide, if_pos (by omega)]
        rfl
      · rw [if_neg hwide, if_neg (by omega)]
        exact ih (by omega)

/-- What the loop in words comes to, at the beginning of a number. -/
theorem getUvarWord_cases : (getUvarWord 0 0 b = some none ∧ getUvar b = none) ∨
    ∃ n rest, getUvarWord 0 0 b = some (some (n, rest)) ∧ getUvar b = some (n.toNat, rest) := by
  have heq := @getUvarWord_eq 0 0 b (by decide)
  cases hword : getUvarWord 0 0 b with
  | none =>
    rw [hword] at heq
    cases heq
  | some read =>
    rw [hword] at heq
    cases read with
    | none => exact .inl ⟨rfl, (Option.some.inj heq).symm⟩
    | some read => exact .inr ⟨read.1, read.2, rfl, (Option.some.inj heq).symm⟩

theorem decodeOpWord_eq (tag : UInt8) (b : Bytes) :
    decodeOpWord tag b = some (decodeOp tag b) := by
  rw [decodeOpWord, decodeOp]
  rcases @getUvarWord_cases b with ⟨hidx, hidx'⟩ | ⟨idx, b₁, hidx, hidx'⟩
  · rw [hidx, hidx']
    rfl
  rw [hidx, hidx']
  dsimp only [Option.bind_eq_bind, Option.bind_some]
  rcases @getUvarWord_cases b₁ with ⟨hn, hn'⟩ | ⟨n, b₂, hn, hn'⟩
  · rw [hn, hn']
    rfl
  rw [hn, hn']
  dsimp only [Option.bind_eq_bind, Option.bind_some]
  split_ifs with hdelete hinsert hshort
  · rfl
  · rfl
  · -- the text is there, so both slices are in range
    have hroom : n.toNat ≤ b₂.length := not_lt.mp hshort
    rw [slice_zero hroom, slice_length hroom, Option.bind_some]
    cases fromUtf8 (b₂.take n.toNat) with
    | none => rfl
    | some m => rfl
  · rfl

end Decoding

/-- `decode_ops` as the machine runs it. -/
def decodeOpsWord : Bytes → Option (Option (List Op))
  | [] => some (some [])
  | tag :: b =>
    match _h : decodeOpWord tag b with
    | none => none
    | some none => some none
    | some (some (op, rest)) => (decodeOpsWord rest).map (Option.map (op :: ·))
termination_by b => b.length
decreasing_by
  rw [decodeOpWord_eq] at _h
  exact (length_of_decodeOp (Option.some.inj _h)).trans (Nat.lt_succ_self _)

theorem decodeOpsWord_cons (tag : UInt8) (b : Bytes) : decodeOpsWord (tag :: b) =
    match decodeOpWord tag b with
    | none => none
    | some none => some none
    | some (some (op, rest)) => (decodeOpsWord rest).map (Option.map (op :: ·)) := by
  rw [decodeOpsWord]
  split <;> simp_all

theorem decodeOps_cons (tag : UInt8) (b : Bytes) : decodeOps (tag :: b) =
    match decodeOp tag b with
    | none => none
    | some (op, rest) => (decodeOps rest).map (op :: ·) := by
  rw [decodeOps]
  split <;> simp_all

/-- The decoder ends on all bytes with operations or an error. -/
theorem decodeOpsWord_eq (b : Bytes) : decodeOpsWord b = some (decodeOps b) := by
  induction b using decodeOps.induct with
  | case1 => rw [decodeOpsWord, decodeOps]
  | case2 tag b hnone =>
    have hword := decodeOpWord_eq tag b
    rw [hnone] at hword
    rw [decodeOpsWord_cons, hword, decodeOps_cons, hnone]
  | case3 tag b op rest hsome ih =>
    have hword := decodeOpWord_eq tag b
    rw [hsome] at hword
    rw [decodeOpsWord_cons, hword, decodeOps_cons, hsome]
    dsimp only
    rw [ih, Option.map_some]

/-! ### Operations on a text -/

/-- `+` on a `usize`. A build without overflow checks drops the carry. -/
def addWord (overflowChecks : Bool) (i j : ℕ) : Option ℕ :=
  if overflowChecks then if i + j < 2 ^ 64 then some (i + j) else none
  else some ((i + j) % 2 ^ 64)

/-- What an operation does to the units of a text, in machine words. -/
def Op.applyWord {α : Type} (overflowChecks : Bool) (units : String → List α) (v : List α) :
    Op → Option (List α)
  | .delete idx len => do
    let s := min idx v.length
    let e ← addWord overflowChecks s len
    drain v s (min e v.length)
  | .insert idx m => do
    let s := min idx v.length
    let (v, tail) ← splitAt v s
    return v ++ (units m ++ tail)

/-- `apply_chars` -/
def applyCharsWord (overflowChecks : Bool) (base : String) (ops : List Op) : Option String :=
  (ops.foldlM (Op.applyWord overflowChecks String.toList) base.toList).map String.ofList

/-- `apply_lines` -/
def applyLinesWord (overflowChecks : Bool) (base : String) (ops : List Op) : Option String :=
  (ops.foldlM (Op.applyWord overflowChecks splitLines) (splitLines base)).map concat

/-- The place and the length of a deletion have a sum, in a text of some units. -/
def Op.SumFits (length : ℕ) : Op → Prop
  | .delete idx len => min idx length + len < 2 ^ 64
  | .insert _ _ => True

instance (length : ℕ) : DecidablePred (Op.SumFits length)
  | .delete idx len => inferInstanceAs (Decidable (min idx length + len < 2 ^ 64))
  | .insert _ _ => inferInstanceAs (Decidable True)

/-- The number of units after an operation, when a text has some. -/
def Op.lengthAfter (count : String → ℕ) (length : ℕ) : Op → ℕ
  | .delete idx len => min idx length + (length - min (min idx length + len) length)
  | .insert _ m => length + count m

/-- Every deletion has its sum, in what the operations before it leave of a text. -/
def SumsFit (count : String → ℕ) : ℕ → List Op → Prop
  | _, [] => True
  | length, op :: ops => op.SumFits length ∧ SumsFit count (op.lengthAfter count length) ops

instance decidableSumsFit (count : String → ℕ) :
    ∀ (length : ℕ) (ops : List Op), Decidable (SumsFit count length ops)
  | _, [] => inferInstanceAs (Decidable True)
  | length, op :: ops =>
    have := decidableSumsFit count (op.lengthAfter count length) ops
    inferInstanceAs (Decidable (op.SumFits length ∧ _))

section Applying

variable {α : Type} {overflowChecks : Bool} {units : String → List α} {count : String → ℕ}
variable {v : List α} {op : Op} {ops : List Op} {length : ℕ}

theorem length_applyTo : (op.applyTo units v).length =
    op.lengthAfter (fun m => (units m).length) v.length := by
  cases op with
  | delete idx len =>
    rw [Op.applyTo, Op.lengthAfter, List.length_append, List.length_take, List.length_drop]
    omega
  | insert idx m =>
    rw [Op.applyTo, Op.lengthAfter, List.length_append, List.length_append, List.length_take,
      List.length_drop]
    omega

/-- An operation has no fault exactly if it has its sum, and then it is clamped to the text. A
sum that lost its carry lies before the place, which no slice allows. -/
theorem applyWord_eq (hop : op.Encodable) : op.applyWord overflowChecks units v =
    if op.SumFits v.length then some (op.applyTo units v) else none := by
  cases op with
  | delete idx len =>
    obtain ⟨hidx, hlen⟩ := hop
    have hplace : min idx v.length ≤ v.length := min_le_right _ _
    rw [Op.applyWord, addWord, Op.applyTo]
    by_cases hfits : min idx v.length + len < 2 ^ 64
    · have hsum : Op.SumFits v.length (.delete idx len) := hfits
      rw [if_pos hsum, if_pos hfits, Nat.mod_eq_of_lt hfits, ite_self, Option.bind_eq_bind,
        Option.bind_some]
      exact drain_of_le (le_min (Nat.le_add_right _ _) hplace) (min_le_right _ _)
    · have hsum : ¬ Op.SumFits v.length (.delete idx len) := hfits
      rw [if_neg hsum, if_neg hfits]
      cases overflowChecks with
      | true => rfl
      | false =>
        -- the sum is below twice the width, so what is left of it is short of the place
        have hcarry : (min idx v.length + len) % 2 ^ 64 < min idx v.length := by omega
        exact drain_of_lt ((min_le_left _ _).trans_lt hcarry)
  | insert idx m =>
    have hsum : Op.SumFits v.length (.insert idx m) := trivial
    rw [if_pos hsum, Op.applyWord, splitAt_of_le (min_le_right _ _)]
    rfl

/-- Operations have no fault exactly if every deletion has its sum. -/
theorem foldlM_applyWord (hops : ∀ op ∈ ops, op.Encodable) :
    ops.foldlM (Op.applyWord overflowChecks units) v =
      if SumsFit (fun m => (units m).length) v.length ops then
        some (ops.foldl (Op.applyTo units) v) else none := by
  induction ops generalizing v with
  | nil => rfl
  | cons op ops ih =>
    obtain ⟨hop, hops⟩ := List.forall_mem_cons.mp hops
    rw [List.foldlM_cons, List.foldl_cons, applyWord_eq hop]
    by_cases hfits : op.SumFits v.length
    · rw [if_pos hfits, Option.bind_eq_bind, Option.bind_some, ih hops, length_applyTo]
      simp only [SumsFit, hfits, true_and]
    · have hfirst : ¬ SumsFit (fun m => (units m).length) v.length (op :: ops) :=
        fun h => hfits h.1
      rw [if_neg hfits, if_neg hfirst]
      rfl

theorem applyCharsWord_eq_some_iff (hops : ∀ op ∈ ops, op.Encodable) (base : String) :
    applyCharsWord overflowChecks base ops = some (applyChars base ops) ↔
      SumsFit String.length base.length ops := by
  rw [applyCharsWord, foldlM_applyWord hops]
  simp only [String.length_toList]
  split_ifs with hfits
  · exact iff_of_true rfl hfits
  · exact iff_of_false (fun h => by cases h) hfits

theorem applyLinesWord_eq_some_iff (hops : ∀ op ∈ ops, op.Encodable) (base : String) :
    applyLinesWord overflowChecks base ops = some (applyLines base ops) ↔
      SumsFit (fun m => (splitLines m).length) (splitLines base).length ops := by
  rw [applyLinesWord, foldlM_applyWord hops]
  split_ifs with hfits
  · exact iff_of_true rfl hfits
  · exact iff_of_false (fun h => by cases h) hfits

/-- Places and lengths with sums have them in every text. -/
theorem sumsFit_of_forall (h : ∀ idx len, Op.delete idx len ∈ ops → idx + len < 2 ^ 64) :
    SumsFit count length ops := by
  induction ops generalizing length with
  | nil => trivial
  | cons op ops ih =>
    refine ⟨?_, ih fun idx len hmem => h idx len (List.mem_cons_of_mem _ hmem)⟩
    cases op with
    | delete idx len =>
      have hplace : min idx length ≤ idx := min_le_left _ _
      have hsum := h idx len List.mem_cons_self
      exact (Nat.add_le_add_right hplace len).trans_lt hsum
    | insert idx m => trivial

end Applying

/-! ### Blocks, differences, deltas -/

section Decoded

variable {tag : UInt8} {b rest : Bytes} {op : Op} {ops : List Op}

theorem encodable_of_decodeOp (h : decodeOp tag b = some (op, rest)) : op.Encodable := by
  obtain ⟨⟨idx, b₁⟩, hidx, h⟩ := Option.bind_eq_some_iff.mp h
  obtain ⟨⟨n, b₂⟩, hn, h⟩ := Option.bind_eq_some_iff.mp h
  dsimp only at h
  split_ifs at h with hdelete hinsert hshort
  · obtain ⟨rfl, -⟩ := Prod.mk.inj (Option.some.inj h)
    exact ⟨Varint.get_lt hidx, Varint.get_lt hn⟩
  · obtain ⟨m, hm, h⟩ := Option.bind_eq_some_iff.mp h
    obtain ⟨rfl, -⟩ := Prod.mk.inj (Option.some.inj h)
    refine ⟨Varint.get_lt hidx, ?_⟩
    -- a text is as long as the bytes that it was read from
    rw [← length_strBytes, fromUtf8_eq_some_iff.mp hm, List.length_take]
    exact (min_le_left _ _).trans_lt (Varint.get_lt hn)

/-- What the decoder returns is encodable. -/
theorem encodable_of_decodeOps (h : decodeOps b = some ops) : ∀ op ∈ ops, op.Encodable := by
  induction b using decodeOps.induct generalizing ops with
  | case1 =>
    rw [decodeOps] at h
    rw [← Option.some.inj h]
    exact List.forall_mem_nil _
  | case2 tag b hnone =>
    rw [decodeOps_cons, hnone] at h
    cases h
  | case3 tag b op rest hsome ih =>
    rw [decodeOps_cons, hsome] at h
    obtain ⟨more, hmore, rfl⟩ := Option.map_eq_some_iff.mp h
    exact List.forall_mem_cons.mpr ⟨encodable_of_decodeOp hsome, ih hmore⟩

end Decoded

/-- Operations whose numbers are words are decoded as they were, and on all bytes the decoder ends
with operations or an error, and no fault. -/
theorem decodeOps_roundTrip :
    (∀ ops : List Op, (∀ op ∈ ops, op.Encodable) →
      decodeOpsWord (encodeOps ops) = some (some ops)) ∧
    ∀ b : Bytes, ∃ read, decodeOpsWord b = some read := by
  refine ⟨fun ops hops => ?_, fun b => ⟨decodeOps b, decodeOpsWord_eq b⟩⟩
  rw [decodeOpsWord_eq, decodeOps_encodeOps hops]

example : decodeOpsWord (encodeOps [.delete (2 ^ 64 - 1) 0, .insert 128 "é"]) =
    some (some [.delete (2 ^ 64 - 1) 0, .insert 128 "é"]) := by
  rw [decodeOpsWord_eq]
  decide +kernel

section Differences

variable {old new : String}

/-- The deletions of the difference of two texts end within the two together. -/
theorem delete_mem_comDiffChar {idx len : ℕ} (h : Op.delete idx len ∈ comDiffChar old new) :
    idx ≤ new.length ∧ len ≤ old.length := by
  obtain ⟨pre, post, segs, hold, hnew, hscript⟩ := exists_alignment old new
  have hedit : (Op.delete idx len).edit String.toList ∈ script pre.length segs := by
    rw [← hscript]
    exact List.mem_map_of_mem h
  obtain ⟨hidx, hlen⟩ := within_script hedit
  rw [← String.length_toList, ← String.length_toList, hold, hnew, List.length_append,
    List.length_append, List.length_append, List.length_append]
  omega

/-- For all texts, the operations of the difference by characters make the new one of the old, and
do so without a fault where both fit into memory. -/
theorem comDiffChar_patch (old new : String) : applyChars old (comDiffChar old new) = new ∧
    (old.utf8ByteSize < 2 ^ 63 → new.utf8ByteSize < 2 ^ 63 →
      ∀ overflowChecks, applyCharsWord overflowChecks old (comDiffChar old new) = some new) := by
  refine ⟨applyChars_comDiffChar old new, fun hold hnew overflowChecks => ?_⟩
  have hlength := length_le_utf8ByteSize old.toList
  have hlength' := length_le_utf8ByteSize new.toList
  rw [String.ofList_toList, String.length_toList] at hlength hlength'
  have hsums : SumsFit String.length old.length (comDiffChar old new) := by
    refine sumsFit_of_forall fun idx len hmem => ?_
    obtain ⟨hidx, hlen⟩ := delete_mem_comDiffChar hmem
    omega
  rw [(applyCharsWord_eq_some_iff (encodable_of_comDiffChar hold hnew) old).mpr hsums,
    applyChars_comDiffChar]

end Differences

/-- Operations that were decoded are applied to a text by characters and by lines, in every build,
with places and lengths clamped to what there is. -/
def DeltaApplies (b : Bytes) (base : String) : Prop :=
  ∀ ops, decodeOps b = some ops → ∀ overflowChecks,
    applyCharsWord overflowChecks base ops = some (applyChars base ops) ∧
      applyLinesWord overflowChecks base ops = some (applyLines base ops)

/-- They are exactly if no clamped place and length of a deletion have a sum beyond 64 bits. -/
theorem deltaApplies_iff (b : Bytes) (base : String) : DeltaApplies b base ↔
    ∀ ops, decodeOps b = some ops → SumsFit String.length base.length ops ∧
      SumsFit (fun m => (splitLines m).length) (splitLines base).length ops := by
  refine forall_congr' fun ops => forall_congr' fun hdecode => ?_
  have hops := encodable_of_decodeOps hdecode
  simp only [applyCharsWord_eq_some_iff hops, applyLinesWord_eq_some_iff hops, forall_const]

/-- A deletion of the largest length, at the second character. -/
theorem not_deltaApplies_largest :
    ¬ DeltaApplies [0, 1, 255, 255, 255, 255, 255, 255, 255, 255, 255, 1] "ab" := by
  have hdecode : decodeOps [0, 1, 255, 255, 255, 255, 255, 255, 255, 255, 255, 1] =
      some [.delete 1 (2 ^ 64 - 1)] := by decide +kernel
  rw [deltaApplies_iff]
  intro h
  exact absurd (h _ hdecode).1 (by decide +kernel)

end SafeHub.SGit
