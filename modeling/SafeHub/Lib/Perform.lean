import Mathlib.Data.List.Basic

/-!
# Operations that may fail

A program makes changes one after the other and stops at the first that fails; what was changed
before stays. An invariant of every change holds wherever it stops.

## Main definitions

* `performAll` — the state in which the operations end or stop, and whether they ended
* `tryAll` — the same with the error of the operation that failed

## Main results

* `performAll_append_eq` — operations that end, in two parts
* `performAll_invariant` — an invariant of every operation
* `tryAll_eq_error_iff` — the operations before the one that failed have ended
-/

namespace Perform

variable {σ ε : Type*} {ops more : List (σ → Except ε σ)} {s t : σ}

/-- Perform operations up to the first that fails. -/
def performAll : List (σ → Except ε σ) → σ → σ × Bool
  | [], s => (s, true)
  | op :: ops, s =>
    match op s with
    | .ok t => performAll ops t
    | .error _ => (s, false)

theorem performAll_cons_eq {op : σ → Except ε σ} :
    performAll (op :: ops) s = (t, true) ↔ ∃ u, op s = .ok u ∧ performAll ops u = (t, true) := by
  rw [performAll]
  cases op s with
  | error e => simp
  | ok u => simp

theorem performAll_append_eq :
    performAll (ops ++ more) s = (t, true) ↔
      ∃ u, performAll ops s = (u, true) ∧ performAll more u = (t, true) := by
  induction ops generalizing s with
  | nil => simp [performAll]
  | cons op ops ih =>
    simp only [List.cons_append, performAll_cons_eq, ih]
    constructor
    · rintro ⟨v, hop, u, hops, hmore⟩
      exact ⟨u, ⟨v, hop, hops⟩, hmore⟩
    · rintro ⟨u, ⟨v, hop, hops⟩, hmore⟩
      exact ⟨v, hop, u, hops, hmore⟩

/-- What every operation keeps holds wherever the operations stop. -/
theorem performAll_invariant {I : σ → Prop} (h : ∀ op ∈ ops, ∀ s t, I s → op s = .ok t → I t)
    (hs : I s) : I (performAll ops s).1 := by
  induction ops generalizing s with
  | nil => exact hs
  | cons op ops ih =>
    obtain ⟨hop, hops⟩ := List.forall_mem_cons.mp h
    rw [performAll]
    cases hstep : op s with
    | error e => exact hs
    | ok t => exact ih hops (hop s t hs hstep)

/-- Operations on the elements of a list, as a fold of them. -/
theorem performAll_map_eq_true_iff {α : Type*} {step : σ → α → Except ε σ} {xs : List α} :
    performAll (xs.map fun x s => step s x) s = (t, true) ↔ xs.foldlM step s = .ok t := by
  induction xs generalizing s with
  | nil => simp [performAll, pure, Except.pure]
  | cons x xs ih =>
    rw [List.map_cons, performAll, List.foldlM_cons]
    cases step s x with
    | error e => simp [bind, Except.bind]
    | ok u => exact ih

/-- Perform operations up to the first that fails, and tell its error. -/
def tryAll : List (σ → Except ε σ) → σ → σ × Except ε Unit
  | [], s => (s, .ok ())
  | op :: ops, s =>
    match op s with
    | .ok t => tryAll ops t
    | .error e => (s, .error e)

theorem tryAll_eq_ok_iff : tryAll ops s = (t, .ok ()) ↔ performAll ops s = (t, true) := by
  induction ops generalizing s with
  | nil => simp [tryAll, performAll]
  | cons op ops ih =>
    rw [tryAll, performAll]
    cases op s with
    | error e => simp
    | ok u => exact ih

/-- The operations before the one that failed have ended. -/
theorem tryAll_eq_error_iff {e : ε} : tryAll ops s = (t, .error e) ↔
    ∃ front op back, ops = front ++ op :: back ∧ performAll front s = (t, true) ∧
      op t = .error e := by
  induction ops generalizing s with
  | nil => simp [tryAll]
  | cons op ops ih =>
    rw [tryAll]
    constructor
    · intro h
      cases hop : op s with
      | error e' =>
        rw [hop] at h
        obtain ⟨rfl, he⟩ := Prod.mk.inj h
        obtain rfl := Except.error.inj he
        exact ⟨[], op, ops, rfl, rfl, hop⟩
      | ok u =>
        rw [hop] at h
        obtain ⟨front, failed, back, rfl, hfront, hfailed⟩ := ih.mp h
        exact ⟨op :: front, failed, back, rfl, performAll_cons_eq.mpr ⟨u, hop, hfront⟩, hfailed⟩
    · rintro ⟨front, failed, back, hops, hfront, hfailed⟩
      cases front with
      | nil =>
        obtain ⟨rfl, rfl⟩ := List.cons.inj hops
        obtain ⟨rfl, -⟩ := Prod.mk.inj hfront
        rw [hfailed]
      | cons first front =>
        obtain ⟨rfl, rfl⟩ := List.cons.inj hops
        obtain ⟨u, hop, hrest⟩ := performAll_cons_eq.mp hfront
        rw [hop]
        exact ih.mpr ⟨front, failed, back, rfl, hrest, hfailed⟩

end Perform
