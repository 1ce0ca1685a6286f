import Mathlib.Data.Set.Insert
import SafeHub.Lib.CompleteTree

/-!
# Secrets derived down a tree

Every node of a complete binary tree has a secret, from which those of its two children are
derived. Of these secrets only some are kept: for each leaf that is not opened the secret of one
node on its path, and none on the path of an opened leaf. Opening a node replaces its secret by
those of its children.

## Main definitions

* `nodeSecret` — the secret of a node, from the secret of the root
* `openNode` — derive downwards and blank
* `Frontier` — the secrets that are kept

## Main results

* `Frontier.openNode` — opening a node keeps the frontier
* `Frontier.takeLeaf` — taking the secret of a leaf opens the leaf
-/

namespace DerivationTree

open CompleteTree

variable {S : Type*} {children : S → S × S} {secret s : S} {h k m i : ℕ}
variable {opened : Set ℕ} {nodes : ℕ → Option S}

/-- The secret of a node, by its depth and its place. -/
def nodeSecret (children : S → S × S) (secret : S) : ℕ → ℕ → S
  | 0, _ => secret
  | depth + 1, m =>
    if m % 2 = 0 then (children (nodeSecret children secret depth (m / 2))).1
    else (children (nodeSecret children secret depth (m / 2))).2

/-- Derive the secrets of the two nodes below a node, and blank the node. -/
def openNode (children : S → S × S) (nodes : ℕ → Option S) (k m : ℕ) (s : S) : ℕ → Option S :=
  Function.update
    (Function.update (Function.update nodes (node k (2 * m)) (some (children s).1))
      (node k (2 * m + 1)) (some (children s).2))
    (node (k + 1) m) none

/-- Which secrets are kept. -/
structure Frontier (children : S → S × S) (secret : S) (h : ℕ) (opened : Set ℕ)
    (nodes : ℕ → Option S) : Prop where
  eq_nodeSecret : ∀ k m s, k ≤ h → nodes (node k m) = some s →
    s = nodeSecret children secret (h - k) m
  /-- A leaf that is not opened has one node on its path. -/
  existsUnique : ∀ i < 2 ^ h, i ∉ opened → ∃! k, k ≤ h ∧ nodes (node k (i / 2 ^ k)) ≠ none
  blank : ∀ i < 2 ^ h, i ∈ opened → ∀ k ≤ h, nodes (node k (i / 2 ^ k)) = none
  /-- There is nothing above the root. -/
  above : ∀ k > h, ∀ m, nodes (node k m) = none

theorem openNode_self : openNode children nodes k m s (node (k + 1) m) = none :=
  Function.update_self _ _ _

theorem openNode_left :
    openNode children nodes k m s (node k (2 * m)) = some (children s).1 := by
  rw [openNode, Function.update_of_ne fun heq => by have := (node_injective heq).1; omega,
    Function.update_of_ne fun heq => by have := (node_injective heq).2; omega,
    Function.update_self]

theorem openNode_right :
    openNode children nodes k m s (node k (2 * m + 1)) = some (children s).2 := by
  rw [openNode, Function.update_of_ne fun heq => by have := (node_injective heq).1; omega,
    Function.update_self]

/-- The other nodes stay as they are. -/
theorem openNode_of_ne {k' m' : ℕ} (hself : ¬ (k' = k + 1 ∧ m' = m))
    (hchild : ¬ (k' = k ∧ m' / 2 = m)) :
    openNode children nodes k m s (node k' m') = nodes (node k' m') := by
  rw [openNode, Function.update_of_ne fun heq => hself (node_injective heq),
    Function.update_of_ne fun heq => hchild ⟨(node_injective heq).1, ?_⟩,
    Function.update_of_ne fun heq => hchild ⟨(node_injective heq).1, ?_⟩]
  · have := (node_injective heq).2
    omega
  · have := (node_injective heq).2
    omega

/-- A child of the node that was opened. -/
theorem openNode_child :
    openNode children nodes k (i / 2 ^ (k + 1)) s (node k (i / 2 ^ k)) =
      some (if i / 2 ^ k % 2 = 0 then (children s).1 else (children s).2) := by
  rw [div_two_pow_succ]
  rcases Nat.even_or_odd' (i / 2 ^ k) with ⟨q, hq | hq⟩ <;> rw [hq]
  · rw [Nat.mul_div_cancel_left q two_pos, openNode_left, if_pos (Nat.mul_mod_right 2 q)]
  · rw [show (2 * q + 1) / 2 = q by omega, openNode_right, if_neg (by omega)]

/-- The path of a leaf that is not below the node stays as it is. -/
theorem openNode_path {k' : ℕ} (hbelow : i / 2 ^ (k + 1) ≠ m) :
    openNode children nodes k m s (node k' (i / 2 ^ k')) = nodes (node k' (i / 2 ^ k')) := by
  refine openNode_of_ne ?_ ?_
  · rintro ⟨rfl, heq⟩
    exact hbelow heq
  · rintro ⟨rfl, heq⟩
    exact hbelow (div_two_pow_succ i k' ▸ heq)

/-- Blanking a leaf leaves the paths of the others as they are. -/
theorem update_leaf_path {j : ℕ} (hne : j ≠ i) :
    Function.update nodes (node 0 i) none (node k (j / 2 ^ k)) = nodes (node k (j / 2 ^ k)) := by
  refine Function.update_of_ne (fun heq => ?_) _ _
  obtain ⟨rfl, hplace⟩ := node_injective heq
  exact hne (by simpa using hplace)

namespace Frontier

theorem initial : Frontier children secret h ∅
    (Function.update (fun _ => none) (node h 0) (some secret)) where
  eq_nodeSecret k m s hk hs := by
    rw [Function.update_apply] at hs
    split_ifs at hs with heq
    obtain ⟨rfl, rfl⟩ := node_injective heq
    rw [Nat.sub_self]
    exact (Option.some.inj hs).symm
  existsUnique i hi _ := by
    refine ⟨h, ⟨le_rfl, ?_⟩, ?_⟩
    · rw [Nat.div_eq_of_lt hi, Function.update_self]
      exact Option.some_ne_none _
    · rintro k ⟨-, hk⟩
      by_contra hne
      exact hk (Function.update_of_ne (fun heq => hne (node_injective heq).1) _ _)
  blank i _ hopened := absurd hopened (Set.notMem_empty i)
  above k hk m := Function.update_of_ne (fun heq => hk.ne' (node_injective heq).1) _ _

variable (hf : Frontier children secret h opened nodes)

include hf

/-- A leaf above which a secret is kept is not opened. -/
theorem not_mem_opened (hi : i < 2 ^ h) (hk : k ≤ h) (hs : nodes (node k (i / 2 ^ k)) = some s) :
    i ∉ opened := by
  intro hopened
  rw [hf.blank i hi hopened k hk] at hs
  exact Option.some_ne_none s hs.symm

/-- Of the path of a leaf one secret is kept at most. -/
theorem eq_of_ne_none {k' : ℕ} (hi : i < 2 ^ h) (hk : k ≤ h)
    (hs : nodes (node k (i / 2 ^ k)) = some s) (hk' : k' ≤ h)
    (hne : nodes (node k' (i / 2 ^ k')) ≠ none) : k' = k :=
  (hf.existsUnique i hi (hf.not_mem_opened hi hk hs)).unique ⟨hk', hne⟩
    ⟨hk, hs ▸ Option.some_ne_none s⟩

/-- Opening a node keeps the frontier. -/
theorem openNode (hk : k + 1 ≤ h) (hs : nodes (node (k + 1) m) = some s) :
    Frontier children secret h opened (openNode children nodes k m s) where
  eq_nodeSecret k' m' s' hk' hs' := by
    have hsecret := hf.eq_nodeSecret (k + 1) m s hk hs
    have hdepth : h - k = (h - (k + 1)) + 1 := by omega
    by_cases hself : k' = k + 1 ∧ m' = m
    · rw [hself.1, hself.2, openNode_self] at hs'
      exact absurd hs'.symm (Option.some_ne_none s')
    by_cases hchild : k' = k ∧ m' / 2 = m
    · obtain ⟨rfl, rfl⟩ := hchild
      rw [hdepth, nodeSecret, ← hsecret]
      rcases Nat.even_or_odd' m' with ⟨q, rfl | rfl⟩
      · rw [Nat.mul_div_cancel_left q two_pos, openNode_left] at hs'
        rw [if_pos (Nat.mul_mod_right 2 q)]
        exact (Option.some.inj hs').symm
      · rw [show (2 * q + 1) / 2 = q by omega, openNode_right] at hs'
        rw [if_neg (by omega)]
        exact (Option.some.inj hs').symm
    · rw [openNode_of_ne hself hchild] at hs'
      exact hf.eq_nodeSecret k' m' s' hk' hs'
  existsUnique i hi hnot := by
    by_cases hbelow : i / 2 ^ (k + 1) = m
    · subst hbelow
      refine ⟨k, ⟨Nat.le_of_succ_le hk, openNode_child ▸ Option.some_ne_none _⟩, ?_⟩
      rintro k' ⟨hk', hne⟩
      -- only the node that was opened could be another one, and it is blank now
      by_contra hother
      have hself : k' ≠ k + 1 := by
        rintro rfl
        exact hne openNode_self
      rw [openNode_of_ne (fun h => hself h.1) fun h => hother h.1] at hne
      exact hself (hf.eq_of_ne_none hi hk hs hk' hne)
    · simp only [openNode_path hbelow]
      exact hf.existsUnique i hi hnot
  blank i hi hopened k' hk' := by
    have hbelow : i / 2 ^ (k + 1) ≠ m := by
      rintro rfl
      exact hf.not_mem_opened hi hk hs hopened
    rw [openNode_path hbelow, hf.blank i hi hopened k' hk']
  above k' hk' m' := by
    rw [openNode_of_ne (by omega) (by omega), hf.above k' hk' m']

/-- Taking the secret of a leaf opens it. -/
theorem takeLeaf (hi : i < 2 ^ h) (hs : nodes (node 0 i) = some s) :
    Frontier children secret h (insert i opened) (Function.update nodes (node 0 i) none) where
  eq_nodeSecret k m s' hk hs' := by
    rw [Function.update_apply] at hs'
    split_ifs at hs'
    exact hf.eq_nodeSecret k m s' hk hs'
  existsUnique j hj hnot := by
    rw [Set.mem_insert_iff, not_or] at hnot
    simp only [update_leaf_path hnot.1]
    exact hf.existsUnique j hj hnot.2
  blank j hj hopened k hk := by
    rcases eq_or_ne j i with rfl | hne
    · rcases eq_or_ne k 0 with rfl | hpos
      · rw [pow_zero, Nat.div_one, Function.update_self]
      · rw [Function.update_of_ne fun heq => hpos (node_injective heq).1]
        by_contra hkept
        rw [← Nat.div_one j, ← pow_zero 2] at hs
        exact hpos (hf.eq_of_ne_none hj (Nat.zero_le h) hs hk hkept)
    · rw [update_leaf_path hne]
      exact hf.blank j hj (Set.mem_of_mem_insert_of_ne hopened hne) k hk
  above k hk m := by
    rw [Function.update_of_ne fun heq => by have := (node_injective heq).1; omega, hf.above k hk m]

end Frontier

end DerivationTree
