import Mathlib.Data.List.Induction
import Mathlib.Logic.Function.Basic

/-!
# Runs of a labelled partial step function

A run takes the labels of a list one after the other and is undefined as soon as
a step is. An invariant kept by every step holds after every run; a claim that
also depends on what happened so far is proved by extending the run at its end.
An invariant that only some steps keep holds after the runs that take no others.
Where a state has several processes, what holds of each of them is kept when one moves.
-/

namespace Run

variable {σ ι : Type*} {step : σ → ι → Option σ} {s t u : σ} {ops more : List ι}

/-- The state after the labels of a list, if every step is defined. -/
def run (step : σ → ι → Option σ) : σ → List ι → Option σ
  | s, [] => some s
  | s, op :: ops => (step s op).bind fun t => run step t ops

@[simp] theorem run_nil : run step s [] = some s := rfl

theorem run_cons {op : ι} : run step s (op :: ops) = (step s op).bind fun t => run step t ops := rfl

theorem run_cons_eq_some {op : ι} :
    run step s (op :: ops) = some u ↔ ∃ t, step s op = some t ∧ run step t ops = some u := by
  rw [run_cons, Option.bind_eq_some_iff]

theorem run_append :
    run step s (ops ++ more) = (run step s ops).bind fun t => run step t more := by
  induction ops generalizing s with
  | nil => rfl
  | cons op ops ih =>
    rw [List.cons_append, run_cons, run_cons]
    cases step s op with
    | none => rfl
    | some t => exact ih

theorem run_append_eq_some :
    run step s (ops ++ more) = some u ↔
      ∃ t, run step s ops = some t ∧ run step t more = some u := by
  rw [run_append, Option.bind_eq_some_iff]

theorem run_concat_eq_some {op : ι} :
    run step s (ops ++ [op]) = some u ↔ ∃ t, run step s ops = some t ∧ step t op = some u := by
  rw [run_append_eq_some]
  constructor
  · rintro ⟨t, hrun, hlast⟩
    obtain ⟨v, hstep, hend⟩ := run_cons_eq_some.mp hlast
    obtain rfl := Option.some.inj hend
    exact ⟨t, hrun, hstep⟩
  · rintro ⟨t, hrun, hstep⟩
    exact ⟨t, hrun, run_cons_eq_some.mpr ⟨u, hstep, rfl⟩⟩

/-- An invariant of every step is an invariant of every run. -/
theorem run_invariant {P : σ → Prop} (hstep : ∀ s op t, P s → step s op = some t → P t)
    (hs : P s) (hrun : run step s ops = some t) : P t := by
  induction ops generalizing s with
  | nil =>
    obtain rfl := Option.some.inj hrun
    exact hs
  | cons op ops ih =>
    obtain ⟨v, hfirst, hrest⟩ := run_cons_eq_some.mp hrun
    exact ih (hstep s op v hs hfirst) hrest

/-- Induction on a run at its end, with the labels taken so far at hand. -/
theorem run_induction {P : List ι → σ → Prop} (hnil : P [] s)
    (hconcat : ∀ ops t op u, run step s ops = some t → P ops t → step t op = some u →
      P (ops ++ [op]) u)
    (hrun : run step s ops = some t) : P ops t := by
  induction ops using List.reverseRecOn generalizing t with
  | nil =>
    obtain rfl := Option.some.inj hrun
    exact hnil
  | append_singleton ops op ih =>
    obtain ⟨v, hfront, hlast⟩ := run_concat_eq_some.mp hrun
    exact hconcat ops v op t hfront (ih hfront) hlast

/-- Where a label stands in a run that has another label at a known place: before
that place, at it, or after it. -/
theorem label_cases {before after front back : List ι} {op label : ι}
    (h : before ++ op :: after = front ++ label :: back) :
    (∃ mid, before = front ++ label :: mid) ∨ (front = before ∧ label = op ∧ back = after) ∨
      ∃ mid, front = before ++ op :: mid ∧ after = mid ++ label :: back := by
  rcases List.append_eq_append_iff.mp h with ⟨mid, hfront, hmid⟩ | ⟨mid, hbefore, hmid⟩
  · cases mid with
    | nil =>
      obtain ⟨rfl, rfl⟩ := List.cons.inj hmid
      exact .inr (.inl ⟨by simpa using hfront, rfl, rfl⟩)
    | cons head tail =>
      obtain ⟨rfl, htail⟩ := List.cons.inj hmid
      exact .inr (.inr ⟨tail, hfront, htail⟩)
  · cases mid with
    | nil =>
      obtain ⟨rfl, rfl⟩ := List.cons.inj hmid
      exact .inr (.inl ⟨by simpa using hbefore.symm, rfl, rfl⟩)
    | cons head tail =>
      obtain ⟨rfl, htail⟩ := List.cons.inj hmid
      exact .inl ⟨tail, hbefore⟩

/-! ### Processes -/

section Processes

variable {κ α : Type*} [DecidableEq κ] {Q : κ → α → Prop} {procs : κ → Option α}

/-- A property of all processes, when one of them moves on or ends. -/
theorem forall_update {new : Option α} (h : ∀ j a, procs j = some a → Q j a) {i : κ}
    (hnew : ∀ a ∈ new, Q i a) : ∀ j a, Function.update procs i new j = some a → Q j a := by
  intro j a ha
  by_cases hj : j = i
  · subst hj
    rw [Function.update_self] at ha
    exact hnew a ha
  · rw [Function.update_of_ne hj] at ha
    exact h j a ha

theorem forall_update_some {new : α} (h : ∀ j a, procs j = some a → Q j a) (i : κ)
    (hnew : Q i new) : ∀ j a, Function.update procs i (some new) j = some a → Q j a :=
  forall_update h fun _ ha => Option.some.inj ha ▸ hnew

end Processes

/-! ### Conditions on the steps of a run -/

variable {P : σ → ι → Prop} {op : ι}

/-- Every label of a run meets a condition in the state it is taken from. -/
def Along (step : σ → ι → Option σ) (P : σ → ι → Prop) : σ → List ι → Prop
  | _, [] => True
  | s, op :: ops => P s op ∧ ∀ t, step s op = some t → Along step P t ops

instance decidableAlong [∀ s op, Decidable (P s op)] : ∀ s ops, Decidable (Along step P s ops)
  | _, [] => .isTrue trivial
  | s, op :: ops =>
    match hstep : step s op with
    | none =>
      decidable_of_iff (P s op)
        ⟨fun hop => ⟨hop, fun _ ht => absurd (hstep.symm.trans ht) (Option.some_ne_none _).symm⟩,
          And.left⟩
    | some t =>
      have := decidableAlong t ops
      decidable_of_iff (P s op ∧ Along step P t ops)
        ⟨fun h => ⟨h.1, fun _ ht => Option.some.inj (hstep.symm.trans ht) ▸ h.2⟩,
          fun h => ⟨h.1, h.2 t hstep⟩⟩

/-- A run along steps that are known. -/
theorem along_cons {op : ι} (hstep : step s op = some t) (hop : P s op) (h : Along step P t ops) :
    Along step P s (op :: ops) := by
  refine ⟨hop, fun next hnext => ?_⟩
  obtain rfl := Option.some.inj (hstep.symm.trans hnext)
  exact h

theorem along_append :
    Along step P s (ops ++ more) ↔
      Along step P s ops ∧ ∀ t, run step s ops = some t → Along step P t more := by
  induction ops generalizing s with
  | nil =>
    constructor
    · intro h
      exact ⟨trivial, fun t hrun => Option.some_inj.mp hrun ▸ h⟩
    · intro h
      exact h.2 s rfl
  | cons op ops ih =>
    constructor
    · intro ⟨hop, hrest⟩
      refine ⟨⟨hop, fun t hstep => (ih.mp (hrest t hstep)).1⟩, ?_⟩
      intro u hrun
      obtain ⟨t, hstep, hrun⟩ := run_cons_eq_some.mp hrun
      exact (ih.mp (hrest t hstep)).2 u hrun
    · intro ⟨⟨hop, hrest⟩, hmore⟩
      refine ⟨hop, fun t hstep => ih.mpr ⟨hrest t hstep, ?_⟩⟩
      intro u hrun
      exact hmore u (run_cons_eq_some.mpr ⟨t, hstep, hrun⟩)

theorem along_concat_iff (hrun : run step s ops = some t) :
    Along step P s (ops ++ [op]) ↔ Along step P s ops ∧ P t op := by
  rw [along_append]
  refine and_congr_right fun _ => ?_
  constructor
  · intro h
    exact (h t hrun).1
  · intro hop u hrun'
    obtain rfl := Option.some.inj (hrun'.symm.trans hrun)
    exact ⟨hop, fun _ _ => trivial⟩

/-- The condition at a place of the run. -/
theorem Along.of_append_cons (h : Along step P s (ops ++ op :: more))
    (hrun : run step s ops = some t) : P t op :=
  ((along_append.mp h).2 t hrun).1

theorem along_iff :
    Along step P s ops ↔ ∀ front op back t, ops = front ++ op :: back →
      run step s front = some t → P t op := by
  constructor
  · intro h front op back t heq hrun
    rw [heq] at h
    exact h.of_append_cons hrun
  · intro h
    induction ops generalizing s with
    | nil => trivial
    | cons op ops ih =>
      refine ⟨h [] op ops s rfl rfl, fun t hstep => ih ?_⟩
      intro front op' back u heq hrun
      exact h (op :: front) op' back u (by rw [heq, List.cons_append])
        (run_cons_eq_some.mpr ⟨t, hstep, hrun⟩)

/-- A condition that follows from an invariant of the run. -/
theorem along_of_invariant {I : σ → Prop} {R : ι → Prop} (hops : ∀ op ∈ ops, R op)
    (hstep : ∀ s op t, I s → R op → step s op = some t → I t)
    (hP : ∀ s op, I s → R op → P s op) (hs : I s) : Along step P s ops := by
  induction ops generalizing s with
  | nil => trivial
  | cons op ops ih =>
    obtain ⟨hop, hops⟩ := List.forall_mem_cons.mp hops
    exact ⟨hP s op hs hop, fun t ht => ih hops (hstep s op t hs hop ht)⟩

/-- Conditions that say the same under an invariant of the run. -/
theorem along_congr {I : σ → Prop} {Q : σ → ι → Prop} {R : ι → Prop} (hops : ∀ op ∈ ops, R op)
    (hstep : ∀ s op t, I s → R op → step s op = some t → I t)
    (hiff : ∀ s op, I s → R op → (P s op ↔ Q s op)) (hs : I s) :
    Along step P s ops ↔ Along step Q s ops := by
  induction ops generalizing s with
  | nil => exact Iff.rfl
  | cons op ops ih =>
    obtain ⟨hop, hops⟩ := List.forall_mem_cons.mp hops
    refine and_congr (hiff s op hs hop) (forall₂_congr fun t ht => ?_)
    exact ih hops (hstep s op t hs hop ht)

/-- An invariant of the steps that meet the condition. -/
theorem Along.invariant {I : σ → Prop} (h : Along step P s ops)
    (hstep : ∀ s op t, I s → P s op → step s op = some t → I t) (hs : I s)
    (hrun : run step s ops = some t) : I t := by
  induction ops generalizing s with
  | nil =>
    obtain rfl := Option.some.inj hrun
    exact hs
  | cons op ops ih =>
    obtain ⟨v, hfirst, hrest⟩ := run_cons_eq_some.mp hrun
    exact ih (h.2 v hfirst) (hstep s op v hs h.1 hfirst) hrest

end Run
