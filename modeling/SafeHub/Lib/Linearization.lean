import SafeHub.Lib.Run
import Mathlib.Logic.Function.Basic
import Mathlib.Data.List.Nodup

/-!
# Linearized operations

Operations that take several steps on a shared value behave as if each ran alone when each has
a step at which the value changes as the whole operation would change it. The operations in the
order of these steps are a serial order: it explains the value and every reply.

## Main definitions

* `after` — the value after operations run one after the other
* `Linearized` — a serial order that explains a value and the replies given so far
* `Point` — a step at which one operation takes effect

## Main results

* `Linearized.of_run` — a run of points and of steps without effect is linearized
* `Linearized.holds_since` — what an operation established and later ones keep
-/

namespace Run

variable {σ α ι υ ρ : Type*}

section Serial

variable {serve : ι → υ → υ × ρ}

/-- The value after operations that run one after the other. -/
def after (serve : ι → υ → υ × ρ) (v : υ) (order : List ι) : υ :=
  order.foldl (fun v i => (serve i v).1) v

theorem after_append {v : υ} {order more : List ι} :
    after serve v (order ++ more) = after serve (after serve v order) more :=
  List.foldl_append

/-- A serial order of the finished operations that explains a value and their replies. -/
structure Linearized (serve : ι → υ → υ × ρ) (v₀ v : υ) (reply : ι → Option ρ)
    (order : List ι) : Prop where
  value : v = after serve v₀ order
  finished : ∀ i, i ∈ order ↔ (reply i).isSome
  nodup : order.Nodup
  replies : ∀ pre i post, order = pre ++ i :: post →
    reply i = some (serve i (after serve v₀ pre)).2

variable {v₀ v : υ} {reply : ι → Option ρ} {order : List ι} {i : ι}

theorem Linearized.start (v : υ) : Linearized serve v v (fun _ => none) [] where
  value := rfl
  finished i := by simp
  nodup := List.nodup_nil
  replies pre i post h := absurd h (by simp)

/-- What an operation established and the operations after it keep holds in the end. -/
theorem Linearized.holds_since {Q : υ → Prop} {pre post : List ι}
    (h : Linearized serve v₀ v reply order) (horder : order = pre ++ i :: post)
    (hi : Q (serve i (after serve v₀ pre)).1)
    (hpost : ∀ j ∈ post, ∀ v, Q v → Q (serve j v).1) : Q v := by
  have hkeep : ∀ {v}, Q v → Q (after serve v post) := by
    clear horder
    intro v hv
    induction post generalizing v with
    | nil => exact hv
    | cons j post ih =>
      exact ih (fun k hk => hpost k (List.mem_cons_of_mem j hk)) (hpost j List.mem_cons_self v hv)
  rw [h.value, horder, after_append]
  exact hkeep hi

variable [DecidableEq ι]

/-- One more operation takes effect. -/
theorem Linearized.concat (h : Linearized serve v₀ v reply order) (hi : reply i = none) :
    Linearized serve v₀ (serve i v).1 (Function.update reply i (some (serve i v).2))
      (order ++ [i]) where
  value := by rw [after_append, ← h.value]; rfl
  finished j := by
    rw [List.mem_append, List.mem_singleton, h.finished]
    by_cases hj : j = i
    · simp [hj]
    · simp [hj]
  nodup := by
    have hnew : i ∉ order := by rw [h.finished, hi]; simp
    rw [List.nodup_append]
    refine ⟨h.nodup, List.nodup_singleton i, fun j hj k hk => ?_⟩
    rw [List.mem_singleton.mp hk]
    rintro rfl
    exact hnew hj
  replies := by
    intro pre j post heq
    rcases List.eq_nil_or_concat post with rfl | ⟨rest, k, rfl⟩
    · obtain ⟨rfl, hlast⟩ := List.append_inj' heq rfl
      obtain rfl := (List.cons.inj hlast).1
      rw [Function.update_self, h.value]
    · rw [List.concat_eq_append, ← List.cons_append, ← List.append_assoc] at heq
      obtain ⟨rfl, hlast⟩ := List.append_inj' heq rfl
      have hj : j ≠ i := by
        rintro rfl
        have hin := (h.finished j).mp (by simp)
        rw [hi] at hin
        cases hin
      rw [Function.update_of_ne hj]
      exact h.replies pre j rest rfl

end Serial

variable [DecidableEq ι]

/-- A step at which one operation takes effect as a whole. -/
def Point (serve : ι → υ → υ × ρ) (v v' : υ) (reply reply' : ι → Option ρ) : Prop :=
  ∃ i, reply i = none ∧ v' = (serve i v).1 ∧
    reply' = Function.update reply i (some (serve i v).2)

/-- A run each of whose steps has no effect or is the point of an operation is linearized. -/
theorem Linearized.of_run (serve : ι → υ → υ × ρ) (value : σ → υ) (reply : σ → ι → Option ρ)
    {step : σ → α → Option σ} {P : σ → α → Prop} {I : σ → Prop} {s t : σ} {ops : List α}
    (hstep : ∀ s op t, I s → P s op → step s op = some t → I t ∧
      (value t = value s ∧ reply t = reply s ∨
        Point serve (value s) (value t) (reply s) (reply t)))
    (hs : I s) (hstart : ∀ i, reply s i = none) (halong : Along step P s ops)
    (hrun : run step s ops = some t) :
    ∃ order, Linearized serve (value s) (value t) (reply t) order := by
  have hnone : reply s = fun _ => none := funext hstart
  have hinv := halong.invariant
    (I := fun u => I u ∧ ∃ order, Linearized serve (value s) (value u) (reply u) order)
    (fun u op w hu hop hw => ?_) ⟨hs, [], hnone ▸ Linearized.start (value s)⟩ hrun
  · exact hinv.2
  · obtain ⟨hIu, order, hlin⟩ := hu
    obtain ⟨hIw, ⟨hvalue, hreply⟩ | ⟨i, hi, hvalue, hreply⟩⟩ := hstep u op w hIu hop hw
    · exact ⟨hIw, order, by rwa [hvalue, hreply]⟩
    · refine ⟨hIw, order ++ [i], ?_⟩
      rw [hvalue, hreply]
      exact hlin.concat hi

end Run
