import Mathlib.Data.List.Basic

/-!
# Splitting after a separator

A list is cut after every unit that ends a line. The last line may be open, and there is no empty
one. The lines of a list can be put together and cut again, also some consecutive ones.

## Main definitions

* `splitAfter` — the lines of a list
* `Split` — what the lines of a list look like

## Main results

* `flatten_splitAfter`, `splitAfter_flatten` — cutting and putting together
* `split_splitAfter`, `Split.drop`, `Split.take` — lines of a list, and runs of them
-/

namespace Lines

variable {α : Type*} {ends : α → Bool} {line : List α} {lines : List (List α)} {xs : List α}

/-- Cut a list after every unit that ends a line. -/
def splitAfter (ends : α → Bool) : List α → List (List α)
  | [] => []
  | x :: xs =>
    if ends x then [x] :: splitAfter ends xs
    else
      match splitAfter ends xs with
      | [] => [[x]]
      | line :: lines => (x :: line) :: lines

/-- A line with its end. -/
def Terminated (ends : α → Bool) (line : List α) : Prop :=
  ∃ body last, line = body ++ [last] ∧ ends last = true ∧ ∀ x ∈ body, ends x = false

/-- Units that are no line yet. -/
def Open (ends : α → Bool) (line : List α) : Prop := line ≠ [] ∧ ∀ x ∈ line, ends x = false

/-- Lines of which only the last one may be open. -/
def Split (ends : α → Bool) : List (List α) → Prop
  | [] => True
  | line :: lines => (Terminated ends line ∨ Open ends line ∧ lines = []) ∧ Split ends lines

/-- Cutting loses nothing. -/
@[simp] theorem flatten_splitAfter : (splitAfter ends xs).flatten = xs := by
  induction xs with
  | nil => rfl
  | cons x xs ih =>
    rw [splitAfter]
    split_ifs with hend
    · rw [List.flatten_cons, ih]
      rfl
    · cases hlines : splitAfter ends xs with
      | nil =>
        rw [hlines] at ih
        rw [← ih]
        rfl
      | cons line lines =>
        rw [hlines] at ih
        rw [← ih]
        rfl

theorem split_splitAfter : Split ends (splitAfter ends xs) := by
  induction xs with
  | nil => trivial
  | cons x xs ih =>
    rw [splitAfter]
    split_ifs with hend
    · exact ⟨.inl ⟨[], x, rfl, hend, List.forall_mem_nil _⟩, ih⟩
    · have hx : ends x = false := Bool.eq_false_iff.mpr hend
      cases hlines : splitAfter ends xs with
      | nil =>
        refine ⟨.inr ⟨⟨List.cons_ne_nil _ _, ?_⟩, rfl⟩, trivial⟩
        intro y hy
        rwa [List.mem_singleton.mp hy]
      | cons line lines =>
        rw [hlines] at ih
        refine ⟨?_, ih.2⟩
        -- a unit in front leaves the line as terminated or as open as it was
        rcases ih.1 with ⟨body, last, rfl, hlast, hbody⟩ | ⟨⟨hne, hopen⟩, hnil⟩
        · exact .inl ⟨x :: body, last, rfl, hlast, List.forall_mem_cons.mpr ⟨hx, hbody⟩⟩
        · exact .inr ⟨⟨List.cons_ne_nil _ _, List.forall_mem_cons.mpr ⟨hx, hopen⟩⟩, hnil⟩

/-- A line with its end is cut off what follows. -/
theorem splitAfter_terminated (h : Terminated ends line) :
    splitAfter ends (line ++ xs) = line :: splitAfter ends xs := by
  obtain ⟨body, last, rfl, hlast, hbody⟩ := h
  induction body with
  | nil => rw [List.nil_append, List.singleton_append, splitAfter, if_pos hlast]
  | cons x body ih =>
    obtain ⟨hx, hrest⟩ := List.forall_mem_cons.mp hbody
    rw [List.cons_append, List.cons_append, splitAfter, if_neg (Bool.eq_false_iff.mp hx), ih hrest]

/-- An open line is a line when nothing follows. -/
theorem splitAfter_open (h : Open ends line) : splitAfter ends line = [line] := by
  obtain ⟨hne, hopen⟩ := h
  induction line with
  | nil => exact absurd rfl hne
  | cons x line ih =>
    obtain ⟨hx, hrest⟩ := List.forall_mem_cons.mp hopen
    rw [splitAfter, if_neg (Bool.eq_false_iff.mp hx)]
    cases line with
    | nil => rfl
    | cons y line => rw [ih (List.cons_ne_nil _ _) hrest]

/-- Lines that were put together are cut where they were. -/
theorem splitAfter_flatten (h : Split ends lines) : splitAfter ends lines.flatten = lines := by
  induction lines with
  | nil => rfl
  | cons line lines ih =>
    obtain ⟨hline, hrest⟩ := h
    rcases hline with hterminated | ⟨hopen, rfl⟩
    · rw [List.flatten_cons, splitAfter_terminated hterminated, ih hrest]
    · rw [List.flatten_singleton, splitAfter_open hopen]

theorem Split.drop (h : Split ends lines) (n : ℕ) : Split ends (lines.drop n) := by
  induction lines generalizing n with
  | nil => rwa [List.drop_nil]
  | cons line lines ih =>
    cases n with
    | zero => exact h
    | succ n => exact ih h.2 n

theorem Split.take (h : Split ends lines) (n : ℕ) : Split ends (lines.take n) := by
  induction lines generalizing n with
  | nil => rwa [List.take_nil]
  | cons line lines ih =>
    cases n with
    | zero => trivial
    | succ n =>
      refine ⟨h.1.imp_right fun hopen => ⟨hopen.1, ?_⟩, ih h.2 n⟩
      rw [hopen.2, List.take_nil]

end Lines
