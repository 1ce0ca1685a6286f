import Mathlib.Data.List.Basic

/-!
# Checked slices

Slices of buffers by their offsets. An operation is undefined where it would be out of range, or
would copy between slices of different lengths.

## Main definitions

* `slice`, `splitAt`, `drain` — a part of a buffer, a buffer cut in two, a buffer without a part
* `copyFrom`, `copyAt` — a buffer, or a part of one, overwritten
-/

namespace Slices

variable {α : Type}

/-- The elements from `i` on and before `j`. -/
def slice (xs : List α) (i j : ℕ) : Option (List α) :=
  if i ≤ j ∧ j ≤ xs.length then some ((xs.drop i).take (j - i)) else none

/-- A buffer cut in two. -/
def splitAt (xs : List α) (mid : ℕ) : Option (List α × List α) :=
  if mid ≤ xs.length then some (xs.take mid, xs.drop mid) else none

/-- A buffer without the elements from `i` on and before `j`. -/
def drain (xs : List α) (i j : ℕ) : Option (List α) :=
  if i ≤ j ∧ j ≤ xs.length then some (xs.take i ++ xs.drop j) else none

/-- A difference of offsets, which must not be negative. -/
def checkedSub (i j : ℕ) : Option ℕ := if j ≤ i then some (i - j) else none

/-- A whole slice overwritten by one of its length. -/
def copyFrom (dst src : List α) : Option (List α) :=
  if dst.length = src.length then some src else none

/-- The elements from `i` on and before `j` overwritten. -/
def copyAt (xs : List α) (i j : ℕ) (src : List α) : Option (List α) := do
  let part ← copyFrom (← slice xs i j) src
  return xs.take i ++ part ++ xs.drop j

variable {xs dst src : List α} {i j mid : ℕ}

theorem slice_of_le (hij : i ≤ j) (hj : j ≤ xs.length) :
    slice xs i j = some ((xs.drop i).take (j - i)) := if_pos ⟨hij, hj⟩

/-- The front of a buffer. -/
theorem slice_zero (hj : j ≤ xs.length) : slice xs 0 j = some (xs.take j) :=
  slice_of_le (Nat.zero_le j) hj

/-- What is left of a buffer. -/
theorem slice_length (hi : i ≤ xs.length) : slice xs i xs.length = some (xs.drop i) := by
  rw [slice_of_le hi (Nat.le_refl _), List.take_of_length_le (Nat.le_of_eq List.length_drop)]

theorem checkedSub_of_le (h : j ≤ i) : checkedSub i j = some (i - j) := if_pos h

theorem splitAt_of_le (h : mid ≤ xs.length) :
    splitAt xs mid = some (xs.take mid, xs.drop mid) := if_pos h

theorem drain_of_le (hij : i ≤ j) (hj : j ≤ xs.length) :
    drain xs i j = some (xs.take i ++ xs.drop j) := if_pos ⟨hij, hj⟩

/-- A range with its ends exchanged is refused. -/
theorem drain_of_lt (h : j < i) : drain xs i j = none :=
  if_neg fun hrange => absurd hrange.1 (Nat.not_le_of_lt h)

theorem copyFrom_of_length_eq (h : dst.length = src.length) : copyFrom dst src = some src :=
  if_pos h

/-- A part that is overwritten by as many elements. -/
theorem copyAt_append (front back : List α) (h : dst.length = src.length) :
    copyAt (front ++ dst ++ back) front.length (front.length + src.length) src =
      some (front ++ src ++ back) := by
  have hslice : slice (front ++ dst ++ back) front.length (front.length + src.length) =
      some dst := by
    rw [slice_of_le (Nat.le_add_right ..), List.append_assoc, List.drop_left,
      Nat.add_sub_cancel_left, ← h, List.take_left]
    rw [List.length_append, List.length_append, h]
    exact Nat.le_add_right ..
  have hdrop : (front ++ dst ++ back).drop (front.length + src.length) = back := by
    rw [← h, ← List.length_append, List.drop_left]
  rw [copyAt, hslice, Option.bind_eq_bind, Option.bind_some, copyFrom_of_length_eq h, hdrop,
    List.append_assoc, List.take_left]
  rfl

end Slices
