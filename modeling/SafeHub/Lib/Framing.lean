import SafeHub.Lib.FixedWidth

/-!
# Self-delimiting byte codes

A code writes a value so that it can be read off the front of any byte string that
starts with it. Codes carry the proof of that, and pairs, lists and options of coded
values are coded again.

## Main definitions

* `Code` — a code with its round trip
* `Code.pair`, `Code.list`, `Code.option`, `Code.through` — building codes
* `Code.byte`, `Code.char`, `Code.string` — bytes and texts
-/

namespace Framing

open FixedWidth

variable {α β : Type}

/-- A byte code whose values can be read off the front of a byte string. -/
structure Code (α : Type) where
  write : α → Bytes
  read : Bytes → Option (α × Bytes)
  read_write : ∀ a rest, read (write a ++ rest) = some (a, rest)

namespace Code

/-- Read a value that takes up the whole byte string. -/
def readAll (code : Code α) (bytes : Bytes) : Option α :=
  match code.read bytes with
  | some (a, []) => some a
  | _ => none

theorem readAll_write (code : Code α) (a : α) : code.readAll (code.write a) = some a := by
  have hread := code.read_write a []
  rw [List.append_nil] at hread
  rw [readAll, hread]

/-- A value and what follows it can be told from the bytes. -/
theorem write_append_inj (code : Code α) {a b : α} {rest rest' : Bytes}
    (h : code.write a ++ rest = code.write b ++ rest') : a = b ∧ rest = rest' := by
  have hread := code.read_write a rest
  rw [h, code.read_write] at hread
  obtain ⟨rfl, rfl⟩ := Prod.mk.inj (Option.some.inj hread)
  exact ⟨rfl, rfl⟩

theorem write_injective (code : Code α) : Function.Injective code.write := by
  intro a b h
  have happend : code.write a ++ [] = code.write b ++ [] := congrArg (· ++ []) h
  exact (code.write_append_inj happend).1

/-- One value after the other. -/
def pair (first : Code α) (second : Code β) : Code (α × β) where
  write p := first.write p.1 ++ second.write p.2
  read bytes := do
    let (a, bytes) ← first.read bytes
    let (b, bytes) ← second.read bytes
    return ((a, b), bytes)
  read_write := by
    intro p rest
    rw [List.append_assoc, first.read_write]
    simp only [Option.bind_eq_bind, Option.bind_some, second.read_write]
    rfl

/-- Code values by values that determine them. -/
def through (code : Code α) (toRaw : β → α) (ofRaw : α → β) (h : ∀ b, ofRaw (toRaw b) = b) :
    Code β where
  write b := code.write (toRaw b)
  read bytes := (code.read bytes).map fun p => (ofRaw p.1, p.2)
  read_write := by
    intro b rest
    rw [code.read_write, Option.map_some, h]

/-- A value behind a byte that says whether it is there. -/
def option (code : Code α) : Code (Option α) where
  write
    | none => [0]
    | some a => 1 :: code.write a
  read
    | 0 :: bytes => some (none, bytes)
    | 1 :: bytes => (code.read bytes).map fun p => (some p.1, p.2)
    | _ => none
  read_write := by
    intro o rest
    cases o with
    | none => rfl
    | some a =>
      change (code.read (code.write a ++ rest)).map _ = _
      rw [code.read_write, Option.map_some]

/-- Write the elements of a list, each behind a byte, and a closing byte. -/
def writeList (code : Code α) : List α → Bytes
  | [] => [0]
  | a :: as => 1 :: (code.write a ++ writeList code as)

/-- Read at most `fuel` elements and the closing byte. -/
def readList (code : Code α) : (fuel : ℕ) → Bytes → Option (List α × Bytes)
  | _, 0 :: bytes => some ([], bytes)
  | fuel + 1, 1 :: bytes => do
    let (a, bytes) ← code.read bytes
    let (as, bytes) ← readList code fuel bytes
    return (a :: as, bytes)
  | _, _ => none

theorem length_lt_writeList (code : Code α) (as : List α) :
    as.length < (code.writeList as).length := by
  induction as with
  | nil => exact Nat.zero_lt_one
  | cons a as ih =>
    rw [writeList, List.length_cons, List.length_cons, List.length_append]
    omega

theorem length_writeList (code : Code α) (as : List α) :
    (code.writeList as).length = 1 + (as.map fun a => 1 + (code.write a).length).sum := by
  induction as with
  | nil => rfl
  | cons a as ih =>
    rw [writeList, List.length_cons, List.length_append, ih, List.map_cons, List.sum_cons]
    omega

theorem readList_writeList (code : Code α) (as : List α) (rest : Bytes) {fuel : ℕ}
    (h : as.length ≤ fuel) : code.readList fuel (code.writeList as ++ rest) = some (as, rest) := by
  induction as generalizing fuel with
  | nil => cases fuel <;> rfl
  | cons a as ih =>
    cases fuel with
    | zero => cases h
    | succ fuel =>
      change (do
        let (a, bytes) ← code.read (code.write a ++ code.writeList as ++ rest)
        let (as, bytes) ← code.readList fuel bytes
        return (a :: as, bytes) : Option (List α × Bytes)) = _
      rw [List.append_assoc, code.read_write]
      simp only [Option.bind_eq_bind, Option.bind_some, ih (Nat.le_of_succ_le_succ h)]
      rfl

/-- A list of values. Its bytes bound the number of its elements. -/
def list (code : Code α) : Code (List α) where
  write := code.writeList
  read bytes := code.readList bytes.length bytes
  read_write := by
    intro as rest
    apply readList_writeList
    rw [List.length_append]
    exact ((length_lt_writeList code as).trans_le (Nat.le_add_right _ _)).le

/-- One byte. -/
def byte : Code UInt8 where
  write b := [b]
  read
    | [] => none
    | b :: bytes => some (b, bytes)
  read_write := fun _ _ => rfl

/-- A character by the four bytes of its code point. -/
def char : Code Char where
  write c := leBytes 4 c.toNat
  read bytes :=
    if bytes.length < 4 then none
    else some (Char.ofNat (readLE (bytes.take 4)), bytes.drop 4)
  read_write := by
    intro c rest
    have hlength := length_leBytes 4 c.toNat
    have hvalid : c.toNat < 256 ^ 4 := by
      have hsize : c.val.toNat < 2 ^ 32 := c.val.toNat_lt
      simpa using hsize
    rw [if_neg (by rw [List.length_append, hlength]; omega), List.take_left' hlength,
      List.drop_left' hlength, readLE_leBytes, Nat.mod_eq_of_lt hvalid, Char.ofNat_toNat]

/-- A text by its characters. -/
def string : Code String :=
  char.list.through String.toList String.ofList fun s => by simp

theorem length_write_string (s : String) : (string.write s).length = 1 + 5 * s.length := by
  change (char.writeList s.toList).length = _
  have hchar : ∀ c, 1 + (char.write c).length = 5 := fun c =>
    congrArg (1 + ·) (length_leBytes 4 c.toNat)
  rw [length_writeList, List.map_congr_left fun c _ => hchar c, List.map_const',
    List.sum_replicate_nat, String.length_toList, Nat.mul_comm]

end Code

end Framing
