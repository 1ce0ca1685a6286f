import Mathlib.Data.Set.Lattice
import Mathlib.Logic.Relation

/-!
# Reachability

What a set of objects reaches along links, and what of it is left when the reach of another
set is taken away.

## Main definitions

* `reach` — the objects that a set reaches
* `delta` — what a set reaches and another one does not

## Main results

* `reach_subset_delta_union` — a difference and what was taken away hold all that is reached
* `delta_eq_empty_iff` — a difference is empty when the set itself was reached
-/

namespace Reachability

open Relation

variable {α : Type*}

/-- The objects that a set of objects reaches, itself included. -/
def reach (links : α → α → Prop) (s : Set α) : Set α := {y | ∃ x ∈ s, ReflTransGen links x y}

/-- The objects that a set reaches and another set does not. -/
def delta (links : α → α → Prop) (s t : Set α) : Set α := reach links s \ reach links t

variable {links : α → α → Prop} {s t u : Set α} {x y : α}

theorem subset_reach : s ⊆ reach links s := fun x hx => ⟨x, hx, .refl⟩

theorem mem_reach_singleton : y ∈ reach links {x} ↔ ReflTransGen links x y := by
  simp [reach]

@[simp] theorem reach_empty : reach links ∅ = ∅ := by
  ext y
  simp [reach]

theorem reach_mono (h : s ⊆ t) : reach links s ⊆ reach links t :=
  fun _ ⟨x, hx, hpath⟩ => ⟨x, h hx, hpath⟩

/-- What is reached reaches nothing more. -/
@[simp] theorem reach_reach : reach links (reach links s) = reach links s := by
  apply Set.Subset.antisymm
  · rintro z ⟨y, ⟨x, hx, hxy⟩, hyz⟩
    exact ⟨x, hx, hxy.trans hyz⟩
  · exact subset_reach

theorem reach_subset_reach_iff : reach links s ⊆ reach links t ↔ s ⊆ reach links t := by
  constructor
  · intro h
    exact subset_reach.trans h
  · intro h
    have hmono : reach links s ⊆ reach links (reach links t) := reach_mono h
    rwa [reach_reach] at hmono

/-- An object is reached when a member of the set reaches it. -/
theorem mem_reach_iff : y ∈ reach links s ↔ ∃ x ∈ s, y ∈ reach links {x} := by
  simp [reach]

/-- All that a set reaches is all that its members reach. -/
theorem reach_subset_iff : reach links s ⊆ u ↔ ∀ x ∈ s, reach links {x} ⊆ u := by
  constructor
  · intro h x hx
    exact (reach_mono (Set.singleton_subset_iff.mpr hx)).trans h
  · intro h y hy
    obtain ⟨x, hx, hxy⟩ := mem_reach_iff.mp hy
    exact h x hx hxy

/-- A difference and what was taken away hold all that is reached. -/
theorem reach_subset_delta_union : reach links s ⊆ delta links s t ∪ reach links t := by
  intro y hy
  by_cases hty : y ∈ reach links t
  · exact .inr hty
  · exact .inl ⟨hy, hty⟩

@[simp] theorem delta_empty : delta links s ∅ = reach links s := by
  rw [delta, reach_empty, Set.sdiff_empty]

/-- A difference is empty when the set itself was reached from what is taken away. -/
theorem delta_eq_empty_iff : delta links s t = ∅ ↔ s ⊆ reach links t := by
  rw [delta, Set.sdiff_eq_empty, reach_subset_reach_iff]

end Reachability
