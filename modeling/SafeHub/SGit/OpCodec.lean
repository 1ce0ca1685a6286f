import SafeHub.Lib.Varint
import SafeHub.SGit.CharDiff
import SafeHub.Types.RefHead

/-!
# Encoding operations

A block of operations is stored as a tag, two numbers in groups of seven bits and, for an
insertion, the text in UTF-8. Numbers are cut to 64 bits; a difference of texts that fit in memory
has none that is longer.

## Main definitions

* `encodeOps`, `decodeOps` — a block of operations
* `Op.Encodable` — the numbers of an operation fit

## Main results

* `decodeOps_encodeOps` — encodable operations are decoded as they were
* `encodable_of_comDiffChar` — differences by characters are encodable
-/

namespace SafeHub.SGit

open EditScript

/-- `String::from_utf8` -/
def fromUtf8 (b : Bytes) : Option String := String.fromUTF8? ⟨b.toArray⟩

/-- A number of an operation, as a `u64`. -/
def putUvar (v : ℕ) : Bytes := Varint.put (v % 2 ^ 64)

def getUvar (b : Bytes) : Option (ℕ × Bytes) := Varint.get 64 b

def encodeOp : Op → Bytes
  | .delete idx len => 0 :: (putUvar idx ++ putUvar len)
  | .insert idx m => 1 :: (putUvar idx ++ (putUvar (strBytes m).length ++ strBytes m))

def encodeOps (ops : List Op) : Bytes := ops.flatMap encodeOp

/-- The operation after a tag, and the bytes after it. -/
def decodeOp (tag : UInt8) (b : Bytes) : Option (Op × Bytes) := do
  let (idx, b) ← getUvar b
  let (n, b) ← getUvar b
  if tag = 0 then return (.delete idx n, b)
  else if tag = 1 then
    if b.length < n then none
    else
      let m ← fromUtf8 (b.take n)
      return (.insert idx m, b.drop n)
  else none

theorem length_of_decodeOp {tag : UInt8} {b rest : Bytes} {op : Op}
    (h : decodeOp tag b = some (op, rest)) : rest.length < b.length := by
  obtain ⟨⟨idx, b₁⟩, hidx, h⟩ := Option.bind_eq_some_iff.mp h
  obtain ⟨⟨n, b₂⟩, hn, h⟩ := Option.bind_eq_some_iff.mp h
  have hread := (Varint.length_of_get hn).trans (Varint.length_of_get hidx)
  dsimp only at h hread
  split_ifs at h
  · obtain ⟨-, rfl⟩ := Prod.mk.inj (Option.some.inj h)
    exact hread
  · obtain ⟨m, -, h⟩ := Option.bind_eq_some_iff.mp h
    obtain ⟨-, rfl⟩ := Prod.mk.inj (Option.some.inj h)
    rw [List.length_drop]
    omega

/-- A block of operations. -/
def decodeOps : Bytes → Option (List Op)
  | [] => some []
  | tag :: b =>
    match _h : decodeOp tag b with
    | none => none
    | some (op, rest) => (decodeOps rest).map (op :: ·)
termination_by b => b.length
decreasing_by exact (length_of_decodeOp _h).trans (Nat.lt_succ_self _)

/-- The numbers of an operation fit into 64 bits. -/
def Op.Encodable : Op → Prop
  | .delete idx len => idx < 2 ^ 64 ∧ len < 2 ^ 64
  | .insert idx m => idx < 2 ^ 64 ∧ m.utf8ByteSize < 2 ^ 64

section RoundTrip

variable {op : Op} {ops : List Op} {rest : Bytes} {s : String}

theorem length_strBytes (s : String) : (strBytes s).length = s.utf8ByteSize := by
  rw [strBytes_eq, Array.length_toList]
  rfl

@[simp] theorem fromUtf8_strBytes (s : String) : fromUtf8 (strBytes s) = some s := by
  rw [fromUtf8, strBytes_eq, Array.toArray_toList]
  exact dif_pos s.isValidUTF8

theorem fromUtf8_eq_some_iff {b : Bytes} {s : String} : fromUtf8 b = some s ↔ strBytes s = b := by
  constructor
  · intro h
    rw [fromUtf8, String.fromUTF8?] at h
    split_ifs at h
    rw [← Option.some.inj h, strBytes_eq]
    rfl
  · rintro rfl
    exact fromUtf8_strBytes s

theorem getUvar_putUvar {v : ℕ} (hv : v < 2 ^ 64) :
    getUvar (putUvar v ++ rest) = some (v, rest) := by
  rw [getUvar, putUvar, Nat.mod_eq_of_lt hv, Varint.get_put hv]

/-- The two numbers after a tag. -/
theorem decodeOp_putUvar (tag : UInt8) {idx n : ℕ} (hidx : idx < 2 ^ 64) (hn : n < 2 ^ 64) :
    decodeOp tag (putUvar idx ++ (putUvar n ++ rest)) =
      if tag = 0 then some (.delete idx n, rest)
      else if tag = 1 then
        if rest.length < n then none
        else (fromUtf8 (rest.take n)).map fun m => (.insert idx m, rest.drop n)
      else none := by
  simp only [decodeOp, getUvar_putUvar hidx, getUvar_putUvar hn, Option.bind_eq_bind,
    Option.bind_some, Option.pure_def]
  rw [Option.map_eq_bind]
  rfl

/-- An encodable operation is decoded as it was. -/
theorem decodeOps_encodeOp (h : op.Encodable) :
    decodeOps (encodeOp op ++ rest) = (decodeOps rest).map (op :: ·) := by
  -- an operation is read back alone before it is one of a block
  have hone : ∃ tag b, encodeOp op = tag :: b ∧ decodeOp tag (b ++ rest) = some (op, rest) := by
    cases op with
    | delete idx len =>
      refine ⟨0, putUvar idx ++ putUvar len, rfl, ?_⟩
      rw [List.append_assoc, decodeOp_putUvar 0 h.1 h.2, if_pos rfl]
    | insert idx m =>
      refine ⟨1, putUvar idx ++ (putUvar (strBytes m).length ++ strBytes m), rfl, ?_⟩
      have hlength : (strBytes m).length < 2 ^ 64 := by
        rw [length_strBytes]
        exact h.2
      have hroom : ¬ (strBytes m ++ rest).length < (strBytes m).length := by
        rw [List.length_append]
        omega
      rw [List.append_assoc, List.append_assoc, decodeOp_putUvar 1 h.1 hlength,
        if_neg (by decide), if_pos rfl, if_neg hroom, List.take_left, List.drop_left,
        fromUtf8_strBytes, Option.map_some]
  obtain ⟨tag, b, hencode, hdecode⟩ := hone
  rw [hencode, List.cons_append, decodeOps]
  split
  · next hnone =>
    rw [hdecode] at hnone
    cases hnone
  · next op' rest' hsome =>
    rw [hdecode] at hsome
    obtain ⟨rfl, rfl⟩ := Prod.mk.inj (Option.some.inj hsome)
    rfl

theorem decodeOps_encodeOps (h : ∀ op ∈ ops, op.Encodable) :
    decodeOps (encodeOps ops) = some ops := by
  induction ops with
  | nil => rw [encodeOps, List.flatMap_nil, decodeOps]
  | cons op ops ih =>
    obtain ⟨hop, hops⟩ := List.forall_mem_cons.mp h
    rw [encodeOps, List.flatMap_cons, decodeOps_encodeOp hop, ← encodeOps, ih hops]
    rfl

end RoundTrip

/-! ### Differences of texts that fit -/

/-- The numbers of one text are smaller than those of a text that it is a part of. -/
theorem utf8ByteSize_le_of_infix {m t : List Char} (h : m <:+: t) :
    (String.ofList m).utf8ByteSize ≤ (String.ofList t).utf8ByteSize := by
  obtain ⟨front, back, rfl⟩ := h
  rw [String.ofList_append, String.ofList_append, String.utf8ByteSize_append,
    String.utf8ByteSize_append]
  omega

/-- A text has no more characters than bytes. -/
theorem length_le_utf8ByteSize (cs : List Char) : cs.length ≤ (String.ofList cs).utf8ByteSize := by
  induction cs with
  | nil => exact Nat.zero_le _
  | cons c cs ih =>
    rw [String.ofList_cons, String.utf8ByteSize_append, String.utf8ByteSize_singleton,
      List.length_cons]
    have hpos := c.utf8Size_pos
    omega

/-- The differences of two texts that fit into memory are encodable. -/
theorem encodable_of_comDiffChar {old new : String} (hold : old.utf8ByteSize < 2 ^ 63)
    (hnew : new.utf8ByteSize < 2 ^ 63) : ∀ op ∈ comDiffChar old new, op.Encodable := by
  obtain ⟨pre, post, segs, hsource, htarget, hscript⟩ := exists_alignment old new
  have hlength := length_le_utf8ByteSize old.toList
  have hlength' := length_le_utf8ByteSize new.toList
  rw [String.ofList_toList, hsource] at hlength
  rw [String.ofList_toList, htarget] at hlength'
  rw [List.length_append, List.length_append] at hlength hlength'
  intro op hmem
  have hedit : op.edit String.toList ∈ script pre.length segs := by
    rw [← hscript]
    exact List.mem_map_of_mem hmem
  have hwithin := within_script hedit
  cases op with
  | delete idx len =>
    obtain ⟨hidx, hlen⟩ := hwithin
    exact ⟨by omega, by omega⟩
  | insert idx m =>
    obtain ⟨hidx, hpart⟩ := hwithin
    refine ⟨by omega, ?_⟩
    -- what is inserted is a part of the new text
    have hinside : m.toList <:+: new.toList := by
      rw [htarget]
      exact hpart.trans ⟨pre, post, by rw [List.append_assoc]⟩
    have hle := utf8ByteSize_le_of_infix hinside
    rw [String.ofList_toList, String.ofList_toList] at hle
    omega

end SafeHub.SGit
