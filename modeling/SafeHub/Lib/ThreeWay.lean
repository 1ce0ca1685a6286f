import Mathlib.Order.Basic

/-!
# Three-way merges

Two sides start from a common base and change some of its keys: they create them, give them
other values or delete them. A key that both change to different results is a conflict. A merge
is exact at a key when it has the value of the side that changed it, with deletion as a value
like any other.

## Main definitions

* `Changed`, `Conflict` — what a side did to a key, and where two sides disagree
* `MergedAt` — a merge is right about a key
* `MergesExactly` — a merge fails on conflicts only and is right about every key
* `upsert` — a side that names only what it creates or updates

## Main results

* `changed_upsert_iff` — what such a side changes
-/

namespace ThreeWay

variable {κ α : Type*} {base ours theirs merged : κ → Option α} {k : κ}

/-- A side has changed a key. -/
def Changed (base side : κ → Option α) (k : κ) : Prop := side k ≠ base k

/-- Both sides have changed a key, and to different results. -/
def Conflict (base ours theirs : κ → Option α) (k : κ) : Prop :=
  Changed base ours k ∧ Changed base theirs k ∧ ours k ≠ theirs k

/-- A merge has our value of a key that we changed, and their value of any other. -/
def MergedAt (base ours theirs merged : κ → Option α) (k : κ) : Prop :=
  (Changed base ours k → merged k = ours k) ∧ (¬ Changed base ours k → merged k = theirs k)

/-- A merge fails on a conflict and on nothing else, and is right about every key. -/
def MergesExactly (base ours theirs : κ → Option α) (result : Option (κ → Option α)) : Prop :=
  (result = none ↔ ∃ k, Conflict base ours theirs k) ∧
    ∀ merged, result = some merged → ∀ k, MergedAt base ours theirs merged k

/-- The side that names only what it creates or updates, and leaves the rest of the base. -/
def upsert (base named : κ → Option α) : κ → Option α := fun k => (named k).or (base k)

theorem upsert_of_named {named : κ → Option α} {a : α} (h : named k = some a) :
    upsert base named k = some a := by
  rw [upsert, h, Option.some_or]

/-- Such a side changes the keys that it names with another value, and deletes none. -/
theorem changed_upsert_iff {named : κ → Option α} :
    Changed base (upsert base named) k ↔ named k ≠ none ∧ named k ≠ base k := by
  rw [Changed, upsert]
  cases hnamed : named k with
  | none => simp
  | some a => simp

/-- Where both sides have changed a key and theirs has kept it, they hold different values. -/
theorem conflict_upsert_iff {named : κ → Option α} :
    Conflict base (upsert base named) theirs k ↔
      ∃ a, named k = some a ∧ base k ≠ some a ∧ theirs k ≠ base k ∧ theirs k ≠ some a := by
  rw [Conflict, changed_upsert_iff, Changed]
  constructor
  · rintro ⟨⟨hnamed, hbase⟩, htheirs, hne⟩
    obtain ⟨a, ha⟩ := Option.ne_none_iff_exists'.mp hnamed
    rw [upsert_of_named ha] at hne
    rw [ha] at hbase
    exact ⟨a, ha, hbase.symm, htheirs, hne.symm⟩
  · rintro ⟨a, ha, hbase, htheirs, hne⟩
    rw [upsert_of_named ha, ha]
    exact ⟨⟨Option.some_ne_none a, hbase.symm⟩, htheirs, hne.symm⟩

end ThreeWay
