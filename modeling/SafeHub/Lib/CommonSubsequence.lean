import Mathlib.Algebra.Order.Ring.Nat
import Mathlib.Data.List.Basic

/-!
# Longest common subsequences

A common subsequence of two lists is a sequence of places that increase in both, with related units
at them. The relation can be any. If the first units are related, a longest common subsequence may
begin with them, and if they are not, it leaves one of them out.

## Main definitions

* `Common` — places of a common subsequence
* `Longest` — of one that no other is longer than
* `lcsLength` — the length of a longest one

## Main results

* `Common.length_le` — no common subsequence is longer
-/

namespace CommonSubsequence

variable {α β : Type*} {r : α → β → Prop} {a : List α} {b : List β} {x : α} {y : β}
variable {p : ℕ × ℕ} {pairs : List (ℕ × ℕ)}

/-- Places that increase in both lists, with related units at them. -/
structure Common (r : α → β → Prop) (a : List α) (b : List β) (pairs : List (ℕ × ℕ)) : Prop where
  increasing : pairs.Pairwise fun p q => p.1 < q.1 ∧ p.2 < q.2
  related : ∀ p ∈ pairs, ∃ x y, a[p.1]? = some x ∧ b[p.2]? = some y ∧ r x y

/-- No common subsequence is longer. -/
structure Longest (r : α → β → Prop) (a : List α) (b : List β) (pairs : List (ℕ × ℕ)) : Prop where
  common : Common r a b pairs
  longest : ∀ others, Common r a b others → others.length ≤ pairs.length

/-- The length of a longest common subsequence. -/
def lcsLength (r : α → β → Prop) [∀ x y, Decidable (r x y)] : List α → List β → ℕ
  | x :: a, y :: b =>
    if r x y then lcsLength r a b + 1
    else max (lcsLength r a (y :: b)) (lcsLength r (x :: a) b)
  | _, _ => 0
termination_by a b => a.length + b.length

/-! ### Places in the rests of lists -/

theorem common_nil : Common r a b [] := ⟨List.Pairwise.nil, List.forall_mem_nil _⟩

theorem Common.of_cons (h : Common r a b (p :: pairs)) : Common r a b pairs :=
  ⟨h.increasing.of_cons, fun q hq => h.related q (List.mem_cons_of_mem _ hq)⟩

/-- The places after the first are after its places. -/
theorem Common.lt_of_mem (h : Common r a b (p :: pairs)) {q : ℕ × ℕ} (hq : q ∈ pairs) :
    p.1 < q.1 ∧ p.2 < q.2 :=
  (List.pairwise_cons.mp h.increasing).1 q hq

/-- Places that leave out the first unit of a list are places in the rest of it. -/
theorem Common.tail_left (h : Common r (x :: a) b pairs) (hpos : ∀ p ∈ pairs, 0 < p.1) :
    Common r a b (pairs.map fun p => (p.1 - 1, p.2)) := by
  constructor
  · rw [List.pairwise_map]
    refine h.increasing.imp_of_mem fun {p q} hp hq hlt => ⟨?_, hlt.2⟩
    have := hpos p hp
    omega
  · intro q hq
    obtain ⟨p, hp, rfl⟩ := List.mem_map.mp hq
    obtain ⟨x', y', hx, hy, hr⟩ := h.related p hp
    obtain ⟨n, hn⟩ := Nat.exists_eq_succ_of_ne_zero (Nat.pos_iff_ne_zero.mp (hpos p hp))
    rw [hn, List.getElem?_cons_succ] at hx
    refine ⟨x', y', ?_, hy, hr⟩
    rw [hn]
    exact hx

/-- The two lists may be exchanged. -/
theorem Common.swap (h : Common r a b pairs) : Common (flip r) b a (pairs.map Prod.swap) := by
  constructor
  · rw [List.pairwise_map]
    exact h.increasing.imp fun hlt => ⟨hlt.2, hlt.1⟩
  · intro q hq
    obtain ⟨p, hp, rfl⟩ := List.mem_map.mp hq
    obtain ⟨x, y, hx, hy, hr⟩ := h.related p hp
    exact ⟨y, x, hy, hx, hr⟩

theorem Common.tail_right (h : Common r a (y :: b) pairs) (hpos : ∀ p ∈ pairs, 0 < p.2) :
    Common r a b (pairs.map fun p => (p.1, p.2 - 1)) := by
  have hrest := h.swap.tail_left fun q hq => by
    obtain ⟨p, hp, rfl⟩ := List.mem_map.mp hq
    exact hpos p hp
  have hback := hrest.swap
  rwa [List.map_map, List.map_map] at hback

/-! ### The longest ones -/

variable [∀ x y, Decidable (r x y)]

theorem lcsLength_nil_left (b : List β) : lcsLength r [] b = 0 := by
  rw [lcsLength]
  exact fun x a y b ha => absurd ha (List.cons_ne_nil _ _).symm

theorem lcsLength_nil_right (a : List α) : lcsLength r a [] = 0 := by
  rw [lcsLength]
  exact fun x a y b _ hb => absurd hb (List.cons_ne_nil _ _).symm

theorem lcsLength_cons (x : α) (a : List α) (y : β) (b : List β) :
    lcsLength r (x :: a) (y :: b) = if r x y then lcsLength r a b + 1
      else max (lcsLength r a (y :: b)) (lcsLength r (x :: a) b) := by
  rw [lcsLength]

theorem lcsLength_le (a : List α) (b : List β) : lcsLength r a b ≤ a.length := by
  fun_induction lcsLength r a b with
  | case1 x a y b hr ih => exact Nat.succ_le_succ ih
  | case2 x a y b hr ih ih' => exact max_le (ih.trans (Nat.le_succ _)) ih'
  | case3 a b hempty => exact Nat.zero_le _

/-- No common subsequence is longer than that. -/
theorem Common.length_le (h : Common r a b pairs) : pairs.length ≤ lcsLength r a b := by
  fun_induction lcsLength r a b generalizing pairs with
  | case1 x a y b hr ih =>
    cases pairs with
    | nil => exact Nat.zero_le _
    | cons p pairs =>
      -- only the first pair can have to do with the first units
      have hrest := h.of_cons.tail_left fun q hq => Nat.zero_lt_of_lt (h.lt_of_mem hq).1
      have hrest' := hrest.tail_right fun q hq => by
        obtain ⟨q', hq', rfl⟩ := List.mem_map.mp hq
        exact Nat.zero_lt_of_lt (h.lt_of_mem hq').2
      have hle := ih hrest'
      rw [List.length_map, List.length_map] at hle
      exact Nat.succ_le_succ hle
  | case2 x a y b hr ih ih' =>
    cases pairs with
    | nil => exact Nat.zero_le _
    | cons p pairs =>
      by_cases hfirst : 0 < p.1
      · have hrest := h.tail_left (List.forall_mem_cons.mpr
          ⟨hfirst, fun q hq => Nat.zero_lt_of_lt (h.lt_of_mem hq).1⟩)
        have hle := ih hrest
        rw [List.length_map] at hle
        exact hle.trans (le_max_left _ _)
      · -- the first unit of the one list is not paired with that of the other
        have hsecond : 0 < p.2 := by
          by_contra hzero
          obtain ⟨x', y', hx, hy, hr'⟩ := h.related p List.mem_cons_self
          rw [Nat.eq_zero_of_not_pos hfirst, List.getElem?_cons_zero] at hx
          rw [Nat.eq_zero_of_not_pos hzero, List.getElem?_cons_zero] at hy
          obtain rfl := Option.some.inj hx
          obtain rfl := Option.some.inj hy
          exact hr hr'
        have hrest := h.tail_right (List.forall_mem_cons.mpr
          ⟨hsecond, fun q hq => Nat.zero_lt_of_lt (h.lt_of_mem hq).2⟩)
        have hle := ih' hrest
        rw [List.length_map] at hle
        exact hle.trans (le_max_right _ _)
  | case3 a b hempty =>
    cases pairs with
    | nil => exact le_rfl
    | cons p pairs =>
      obtain ⟨x, y, hx, hy, -⟩ := h.related p List.mem_cons_self
      cases a with
      | nil => cases hx
      | cons x' a =>
        cases b with
        | nil => cases hy
        | cons y' b => exact (hempty x' a y' b rfl rfl).elim

end CommonSubsequence
