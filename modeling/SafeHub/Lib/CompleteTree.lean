import Mathlib.Data.Nat.Bitwise
import Mathlib.Data.Nat.Log
import Mathlib.Tactic.Ring

/-!
# Complete binary trees in an array

The nodes of a complete binary tree are numbered from left to right, so the leaves have the even
numbers and the number of a node of level `k` ends in `k` ones. Children, parents and siblings
differ from a node in one or two bits. A leaf is below the node of each level that its own number,
without as many bits, is the place of.

## Main definitions

* `node` — the number of a node, from its level and its place in the level
* `trailingOnes` — the level of a node, read from its number
* `Beside` — the node beside the path of a leaf that has another leaf below it

## Main results

* `trailingOnes_node`, `node_injective` — level and place are read back
* `xor_left`, `xor_right`, `xor_parent` — children and parents by bits
* `exists_meet`, `existsUnique_beside` — two leaves part at one level
-/

namespace CompleteTree

variable {k k' m m' i j h : ℕ}

/-- The number of the node at a place of a level. -/
def node (k m : ℕ) : ℕ := m * 2 ^ (k + 1) + (2 ^ k - 1)

theorem node_zero (m : ℕ) : node 0 m = 2 * m := by
  rw [node]
  omega

theorem node_succ (k m : ℕ) : node (k + 1) m = 2 * node k m + 1 := by
  have hpos : 0 < 2 ^ k := Nat.two_pow_pos k
  rw [node, node, pow_succ 2 (k + 1), pow_succ 2 k]
  have hmul : m * (2 ^ k * 2 * 2) = 2 * (m * (2 ^ k * 2)) := by ring
  omega

/-! ### Levels -/

/-- The number of ones at the end of a number. -/
def trailingOnes (x : ℕ) : ℕ :=
  if x % 2 = 1 then trailingOnes (x / 2) + 1 else 0
termination_by x
decreasing_by omega

theorem trailingOnes_two_mul (x : ℕ) : trailingOnes (2 * x) = 0 := by
  rw [trailingOnes, if_neg (by omega)]

theorem trailingOnes_two_mul_add_one (x : ℕ) :
    trailingOnes (2 * x + 1) = trailingOnes x + 1 := by
  rw [trailingOnes, if_pos (by omega)]
  congr 2
  omega

/-- The level is read from the number. -/
theorem trailingOnes_node (k m : ℕ) : trailingOnes (node k m) = k := by
  induction k with
  | zero => rw [node_zero, trailingOnes_two_mul]
  | succ k ih => rw [node_succ, trailingOnes_two_mul_add_one, ih]

/-- Nodes of one number have one level and one place. -/
theorem node_injective (heq : node k m = node k' m') : k = k' ∧ m = m' := by
  have hlevel := congrArg trailingOnes heq
  rw [trailingOnes_node, trailingOnes_node] at hlevel
  subst hlevel
  refine ⟨rfl, ?_⟩
  rw [node, node, Nat.add_right_cancel_iff] at heq
  exact Nat.eq_of_mul_eq_mul_right (Nat.two_pow_pos _) heq

/-- Every number is the number of a node. -/
theorem exists_node (x : ℕ) : ∃ k m, node k m = x := by
  induction x using Nat.strong_induction_on with
  | _ x ih =>
    rcases Nat.even_or_odd' x with ⟨y, rfl | rfl⟩
    · exact ⟨0, y, node_zero y⟩
    · obtain ⟨k, m, hy⟩ := ih y (by omega)
      exact ⟨k + 1, m, by rw [node_succ, hy]⟩

/-- The nodes of a tree with `2 ^ h` leaves. -/
theorem node_lt_iff (hk : k ≤ h) : node k m < 2 ^ (h + 1) - 1 ↔ m < 2 ^ (h - k) := by
  obtain ⟨d, rfl⟩ := Nat.exists_eq_add_of_le hk
  have hpos : 0 < 2 ^ k := Nat.two_pow_pos k
  have hsplit : 2 ^ (k + d + 1) = 2 ^ d * 2 ^ (k + 1) := by ring
  rw [node, Nat.add_sub_cancel_left, hsplit]
  have hlevel : 2 ^ (k + 1) = 2 * 2 ^ k := by ring
  constructor
  · intro hlt
    by_contra hge
    have hmul := Nat.mul_le_mul_right (2 ^ (k + 1)) (not_lt.mp hge)
    omega
  · intro hlt
    have hmul := Nat.mul_le_mul_right (2 ^ (k + 1)) (Nat.succ_le_of_lt hlt)
    rw [Nat.succ_mul] at hmul
    omega

/-! ### Children and parents -/

theorem xor_odd_even (a b : ℕ) : (2 * a + 1) ^^^ (2 * b) = 2 * (a ^^^ b) + 1 := by
  simpa [Nat.bit_val] using Nat.xor_bit true a false b

theorem xor_odd_odd (a b : ℕ) : (2 * a + 1) ^^^ (2 * b + 1) = 2 * (a ^^^ b) := by
  simpa [Nat.bit_val] using Nat.xor_bit true a true b

theorem lor_odd_even (a b : ℕ) : (2 * a + 1) ||| (2 * b) = 2 * (a ||| b) + 1 := by
  simpa [Nat.bit_val] using Nat.lor_bit true a false b

theorem lor_even_odd (a b : ℕ) : (2 * a) ||| (2 * b + 1) = 2 * (a ||| b) + 1 := by
  simpa [Nat.bit_val] using Nat.lor_bit false a true b

theorem xor_odd_one (a : ℕ) : (2 * a + 1) ^^^ 1 = 2 * a := by
  simpa using xor_odd_odd a 0

theorem lor_even_one (a : ℕ) : (2 * a) ||| 1 = 2 * a + 1 := by
  simpa using lor_even_odd a 0

/-- Clear the last bit. -/
theorem xor_mod_two (m : ℕ) : m ^^^ (m % 2) = 2 * (m / 2) := by
  rcases Nat.even_or_odd' m with ⟨q, rfl | rfl⟩
  · rw [Nat.mul_mod_right, Nat.xor_zero, Nat.mul_div_cancel_left _ two_pos]
  · rw [Nat.mul_add_mod, xor_odd_one]
    omega

/-- The left child lacks the last of its parent's ones. -/
theorem xor_left (k m : ℕ) : node (k + 1) m ^^^ 2 ^ k = node k (2 * m) := by
  induction k with
  | zero => rw [node_succ, node_zero, node_zero, pow_zero, xor_odd_one]
  | succ k ih =>
    rw [node_succ (k + 1), node_succ k (2 * m), pow_succ, mul_comm (2 ^ k) 2, xor_odd_even, ih]

/-- The right child lacks the one before it and has a one where its parent's ones end. -/
theorem xor_right (k m : ℕ) : node (k + 1) m ^^^ (3 * 2 ^ k) = node k (2 * m + 1) := by
  induction k with
  | zero =>
    have hbase : (2 * m) ^^^ 1 = 2 * m + 1 := by simp
    rw [node_succ, node_zero, node_zero, pow_zero, mul_one]
    exact (xor_odd_odd (2 * m) 1).trans (congrArg (2 * ·) hbase)
  | succ k ih =>
    rw [node_succ (k + 1), node_succ k (2 * m + 1), pow_succ, ← mul_assoc, mul_comm (3 * 2 ^ k) 2,
      xor_odd_even, ih]

/-- The parent has a one more; the bit behind it is cleared. -/
theorem xor_parent (k m : ℕ) :
    (node k m ||| 2 ^ k) ^^^ (m % 2 * 2 ^ (k + 1)) = node (k + 1) (m / 2) := by
  induction k with
  | zero =>
    rw [node_succ, node_zero, node_zero, pow_zero, lor_even_one, zero_add, pow_one,
      mul_comm (m % 2) 2, xor_odd_even, xor_mod_two]
  | succ k ih =>
    rw [node_succ k m, node_succ (k + 1), pow_succ, mul_comm (2 ^ k) 2, lor_odd_even,
      pow_succ 2 (k + 1), ← mul_assoc, mul_comm _ 2, xor_odd_even, ih]

/-! ### Paths -/

/-- The other child of the same parent. -/
def twin (m : ℕ) : ℕ := if m % 2 = 0 then m + 1 else m - 1

theorem twin_div_two (m : ℕ) : twin m / 2 = m / 2 := by
  rw [twin]
  split_ifs <;> omega

theorem eq_twin_of_div_two_eq (heq : m / 2 = m' / 2) (hne : m ≠ m') : m = twin m' := by
  rw [twin]
  split_ifs <;> omega

theorem twin_ne (m : ℕ) : twin m ≠ m := by
  rw [twin]
  split_ifs <;> omega

theorem div_two_pow_succ (i k : ℕ) : i / 2 ^ (k + 1) = i / 2 ^ k / 2 := by
  rw [pow_succ, Nat.div_div_eq_div_mul]

/-- Paths that have met stay together. -/
theorem div_two_pow_eq_of_le (hk : k ≤ k') (heq : i / 2 ^ k = j / 2 ^ k) :
    i / 2 ^ k' = j / 2 ^ k' := by
  obtain ⟨d, rfl⟩ := Nat.exists_eq_add_of_le hk
  rw [pow_add, ← Nat.div_div_eq_div_mul, ← Nat.div_div_eq_div_mul, heq]

/-- Two leaves of a tree have apart paths up to one of its levels, and one path from there on. -/
theorem exists_meet (hi : i < 2 ^ h) (hj : j < 2 ^ h) (hne : i ≠ j) :
    ∃ d < h, ∀ k, i / 2 ^ k = j / 2 ^ k ↔ d < k := by
  have htop : i / 2 ^ h = j / 2 ^ h := by rw [Nat.div_eq_of_lt hi, Nat.div_eq_of_lt hj]
  have hmeet : ∃ k, i / 2 ^ k = j / 2 ^ k := ⟨h, htop⟩
  classical
  obtain ⟨d, hd⟩ : ∃ d, Nat.find hmeet = d + 1 := by
    refine Nat.exists_eq_add_one_of_ne_zero fun hzero => hne ?_
    have hfirst := Nat.find_spec hmeet
    rwa [hzero, pow_zero, Nat.div_one, Nat.div_one] at hfirst
  have hle : d + 1 ≤ h := hd ▸ Nat.find_min' hmeet htop
  refine ⟨d, hle, fun k => ⟨fun heq => ?_, fun hk => ?_⟩⟩
  · have hmin : Nat.find hmeet ≤ k := Nat.find_min' hmeet heq
    rwa [hd] at hmin
  · have hfirst := Nat.find_spec hmeet
    rw [hd] at hfirst
    exact div_two_pow_eq_of_le hk hfirst

/-- At this level the path of leaf `i` has a node whose twin is on the path of leaf `j`. -/
def Beside (i j k : ℕ) : Prop := j / 2 ^ k = twin (i / 2 ^ k)

/-- Paths are beside each other at a level if they meet above it. -/
theorem beside_iff : Beside i j k ↔ i / 2 ^ k ≠ j / 2 ^ k ∧ i / 2 ^ (k + 1) = j / 2 ^ (k + 1) := by
  rw [Beside, div_two_pow_succ, div_two_pow_succ]
  constructor
  · intro hbeside
    rw [hbeside, twin_div_two]
    exact ⟨(twin_ne _).symm, rfl⟩
  · rintro ⟨hne, heq⟩
    exact eq_twin_of_div_two_eq heq.symm hne.symm

/-- Two leaves of a tree part at exactly one of its levels. -/
theorem existsUnique_beside (hi : i < 2 ^ h) (hj : j < 2 ^ h) (hne : j ≠ i) :
    ∃! k, k < h ∧ Beside i j k := by
  obtain ⟨d, hd, hmeet⟩ := exists_meet hi hj hne.symm
  simp only [beside_iff, ne_eq, hmeet]
  refine ⟨d, ⟨hd, lt_irrefl d, Nat.lt_succ_self d⟩, ?_⟩
  rintro k ⟨-, hapart, hmet⟩
  omega

end CompleteTree
