import Mathlib.Data.List.Chain
import Mathlib.Data.Set.Function
import Mathlib.Logic.Relation

/-!
# Hash chains

Lists whose nodes name the hash of the node before them. Where hashing is ideal, two lists
that are linked from one anchor and share a node are the same list up to that node.

## Main definitions

* `LinkedFrom` — a list linked from an anchor
* `endHash` — the hash the next node has to name
* `Ideal` — no two nodes of a set have one hash, and none is its own ancestor

## Main results

* `LinkedFrom.take_eq` — two linked lists agree up to a shared node
-/

namespace HashChain

variable {α κ : Type*}

/-- Every node names the hash of the one before it, and the first one names the anchor. -/
def LinkedFrom (hash prev : α → κ) : κ → List α → Prop
  | _, [] => True
  | anchor, x :: xs => prev x = anchor ∧ LinkedFrom hash prev (hash x) xs

instance decidableLinkedFrom [DecidableEq κ] (hash prev : α → κ) :
    (anchor : κ) → (xs : List α) → Decidable (LinkedFrom hash prev anchor xs)
  | _, [] => isTrue trivial
  | anchor, x :: xs =>
    have := decidableLinkedFrom hash prev (hash x) xs
    inferInstanceAs (Decidable (prev x = anchor ∧ LinkedFrom hash prev (hash x) xs))

/-- The hash a node has to name to come after a list. -/
def endHash (hash : α → κ) (anchor : κ) (xs : List α) : κ := (xs.getLast?.map hash).getD anchor

variable {hash prev : α → κ} {anchor : κ} {x y : α} {xs ys : List α} {i j : ℕ}

@[simp] theorem endHash_nil : endHash hash anchor [] = anchor := rfl

@[simp] theorem endHash_cons : endHash hash anchor (x :: xs) = endHash hash (hash x) xs := by
  cases xs with
  | nil => rfl
  | cons y ys =>
    rw [endHash, endHash, List.getLast?_cons_cons, List.getLast?_cons, Option.map_some]
    rfl

theorem linkedFrom_append :
    LinkedFrom hash prev anchor (xs ++ ys) ↔
      LinkedFrom hash prev anchor xs ∧ LinkedFrom hash prev (endHash hash anchor xs) ys := by
  induction xs generalizing anchor with
  | nil => simp [LinkedFrom]
  | cons x xs ih =>
    rw [List.cons_append, LinkedFrom, LinkedFrom, ih, endHash_cons, and_assoc]

theorem linkedFrom_concat :
    LinkedFrom hash prev anchor (xs ++ [x]) ↔
      LinkedFrom hash prev anchor xs ∧ prev x = endHash hash anchor xs := by
  rw [linkedFrom_append]
  exact and_congr_right fun _ => and_iff_left trivial

/-- The first node names the anchor. -/
theorem LinkedFrom.first (h : LinkedFrom hash prev anchor xs) (hx : xs[0]? = some x) :
    prev x = anchor := by
  cases xs with
  | nil => cases hx
  | cons first rest =>
    obtain rfl := Option.some.inj hx
    exact h.1

/-- Every other node names the one before it. -/
theorem LinkedFrom.link (h : LinkedFrom hash prev anchor xs) (hx : xs[i]? = some x)
    (hy : xs[i + 1]? = some y) : prev y = hash x := by
  induction xs generalizing anchor i with
  | nil => cases hx
  | cons first rest ih =>
    cases i with
    | zero =>
      obtain rfl := Option.some.inj hx
      exact h.2.first hy
    | succ i => exact ih h.2 hx hy

/-! ### Ideal hashing -/

/-- One node of a set is named by another. -/
def Parent (hash prev : α → κ) (nodes : Set α) (x y : α) : Prop :=
  x ∈ nodes ∧ y ∈ nodes ∧ prev y = hash x

/-- Hashing is ideal on a set of nodes: it tells them apart, and none of them is its own
ancestor. -/
structure Ideal (hash prev : α → κ) (nodes : Set α) : Prop where
  injOn : nodes.InjOn hash
  acyclic : ∀ x, ¬ Relation.TransGen (Parent hash prev nodes) x x

variable {nodes : Set α}

/-- The first node of a linked list is an ancestor of all others. -/
theorem LinkedFrom.reflTransGen (h : LinkedFrom hash prev anchor (x :: xs))
    (hnodes : ∀ y ∈ x :: xs, y ∈ nodes) :
    ∀ y ∈ x :: xs, Relation.ReflTransGen (Parent hash prev nodes) x y := by
  induction xs generalizing x anchor with
  | nil =>
    intro y hy
    rw [List.mem_singleton.mp hy]
  | cons next rest ih =>
    intro y hy
    rcases List.mem_cons.mp hy with rfl | hy
    · exact .refl
    · have hparent : Parent hash prev nodes x next :=
        ⟨hnodes x List.mem_cons_self, hnodes next (by simp), h.2.1⟩
      exact .head hparent (ih h.2 (fun z hz => hnodes z (List.mem_cons_of_mem x hz)) y hy)

/-- A linked list does not come back to its anchor. -/
theorem LinkedFrom.hash_ne_anchor (h : LinkedFrom hash prev anchor xs)
    (hideal : Ideal hash prev nodes) (hnodes : ∀ y ∈ xs, y ∈ nodes) (hx : x ∈ xs) :
    hash x ≠ anchor := by
  intro hanchor
  cases xs with
  | nil => cases hx
  | cons first rest =>
    have hback : Parent hash prev nodes x first :=
      ⟨hnodes x hx, hnodes first List.mem_cons_self, h.1.trans hanchor.symm⟩
    exact hideal.acyclic first (.tail' (h.reflTransGen hnodes x hx) hback)

/-- Two lists linked from one anchor that share a node have it at one place and agree up to
it. -/
theorem LinkedFrom.take_eq (hxs : LinkedFrom hash prev anchor xs)
    (hys : LinkedFrom hash prev anchor ys) (hideal : Ideal hash prev nodes)
    (hxnodes : ∀ z ∈ xs, z ∈ nodes) (hynodes : ∀ z ∈ ys, z ∈ nodes)
    (hi : xs[i]? = some x) (hj : ys[j]? = some x) :
    i = j ∧ xs.take (i + 1) = ys.take (j + 1) := by
  induction i generalizing j x with
  | zero =>
    cases j with
    | zero => exact ⟨rfl, by rw [List.take_add_one, List.take_add_one, hi, hj]; rfl⟩
    | succ j =>
      -- the node names the anchor and a node of the other list, which would be its hash
      obtain ⟨y, hy⟩ : ∃ y, ys[j]? = some y :=
        ⟨_, List.getElem?_eq_getElem (Nat.lt_of_succ_lt (List.getElem?_eq_some_iff.mp hj).1)⟩
      have hsame : hash y = anchor := (hys.link hy hj).symm.trans (hxs.first hi)
      exact absurd hsame (hys.hash_ne_anchor hideal hynodes (List.mem_of_getElem? hy))
  | succ i ih =>
    obtain ⟨w, hw⟩ : ∃ w, xs[i]? = some w :=
      ⟨_, List.getElem?_eq_getElem (Nat.lt_of_succ_lt (List.getElem?_eq_some_iff.mp hi).1)⟩
    cases j with
    | zero =>
      have hsame : hash w = anchor := (hxs.link hw hi).symm.trans (hys.first hj)
      exact absurd hsame (hxs.hash_ne_anchor hideal hxnodes (List.mem_of_getElem? hw))
    | succ j =>
      obtain ⟨y, hy⟩ : ∃ y, ys[j]? = some y :=
        ⟨_, List.getElem?_eq_getElem (Nat.lt_of_succ_lt (List.getElem?_eq_some_iff.mp hj).1)⟩
      -- both predecessors have the hash the node names, so they are one node
      have hsame : w = y := hideal.injOn (hxnodes w (List.mem_of_getElem? hw))
        (hynodes y (List.mem_of_getElem? hy)) ((hxs.link hw hi).symm.trans (hys.link hy hj))
      obtain ⟨hij, htake⟩ := ih hw (hsame ▸ hy)
      refine ⟨congrArg Nat.succ hij, ?_⟩
      rw [List.take_add_one, htake, hi, List.take_add_one (l := ys) (i := j + 1), hj]

end HashChain
