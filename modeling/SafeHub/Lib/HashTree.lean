import Mathlib.Algebra.Group.Nat.Even
import Mathlib.Data.List.Basic
import Mathlib.Data.Set.Function

/-!
# Hash trees over lists of texts

A level of a hash tree is made of the level below by joining neighbours, the last node of an odd
level with itself, until one node is left. Over texts instead of digests this gives a tree. The
hash of a tree determines it up to one thing: where leaves and inner nodes are hashed alike, a leaf
may spell the preimage of an inner node.

## Main definitions

* `pairUp`, `climb` — the level above, and the last level
* `TextTree`, `build` — the tree over some texts
* `TextTree.preimage`, `TextTree.digest`, `TextTree.inputs` — how a tree is hashed
* `Matches` — equal trees, up to leaves that spell inner nodes

## Main results

* `digest_build` — climbing on digests computes the digest of the tree
* `digest_eq_iff_matches` — trees have one digest exactly when they match
* `build_concat_self` — the last text of an odd number may be given twice
-/

namespace HashTree

variable {α β γ : Type*}

/-! ### Levels -/

/-- The level above; the last node of an odd level is joined with itself. -/
def pairUp (join : β → β → β) : List β → List β
  | l :: r :: level => join l r :: pairUp join level
  | [l] => [join l l]
  | [] => []

theorem length_pairUp (join : β → β → β) (level : List β) :
    (pairUp join level).length = (level.length + 1) / 2 := by
  fun_induction pairUp join level with
  | case1 l r level ih =>
    simp only [List.length_cons, ih]
    omega
  | case2 l => simp
  | case3 => simp

/-- The last level. -/
def climb (join : β → β → β) (level : List β) : List β :=
  if 1 < level.length then climb join (pairUp join level) else level
termination_by level.length
decreasing_by
  rw [length_pairUp]
  omega

/-- Joining commutes with a map that respects it. -/
theorem pairUp_map {join : β → β → β} {join' : γ → γ → γ} {f : β → γ}
    (hjoin : ∀ l r, f (join l r) = join' (f l) (f r)) (level : List β) :
    pairUp join' (level.map f) = (pairUp join level).map f := by
  fun_induction pairUp join level with
  | case1 l r level ih => rw [List.map_cons, List.map_cons, pairUp, List.map_cons, hjoin, ih]
  | case2 l => rw [List.map_singleton, pairUp, List.map_singleton, hjoin]
  | case3 => rfl

theorem climb_map {join : β → β → β} {join' : γ → γ → γ} {f : β → γ}
    (hjoin : ∀ l r, f (join l r) = join' (f l) (f r)) (level : List β) :
    climb join' (level.map f) = (climb join level).map f := by
  fun_induction climb join level with
  | case1 level hlong ih =>
    rw [climb, List.length_map, if_pos hlong, pairUp_map hjoin, ih]
  | case2 level hshort => rw [climb, List.length_map, if_neg hshort]

/-- The last level of a nonempty one is one node. -/
theorem exists_climb_eq (join : β → β → β) {level : List β} (hne : level ≠ []) :
    ∃ top, climb join level = [top] := by
  fun_induction climb join level with
  | case1 level hlong ih =>
    refine ih fun hnil => ?_
    have hlength := congrArg List.length hnil
    rw [length_pairUp, List.length_nil] at hlength
    omega
  | case2 level hshort =>
    have hpos := List.length_pos_of_ne_nil hne
    exact List.length_eq_one_iff.mp (by omega)

/-- An odd level may end with its last node twice. -/
theorem pairUp_concat_self (join : β → β → β) (level : List β) (last : β)
    (heven : Even level.length) :
    pairUp join (level ++ [last, last]) = pairUp join (level ++ [last]) := by
  fun_induction pairUp join level with
  | case1 l r level ih =>
    -- pairs in front leave the parity, so the level ends as a shorter one does
    rw [List.length_cons, List.length_cons, Nat.even_add_one, Nat.even_add_one, not_not] at heven
    simp only [List.cons_append, pairUp, ih heven]
  | case2 l => exact absurd heven (by simp)
  | case3 => rfl

/-! ### Trees -/

/-- A binary tree of texts. -/
inductive TextTree (α : Type*)
  | leaf (text : α)
  | node (left right : TextTree α)

/-- The tree over some texts. -/
def build [Inhabited α] (texts : List α) : TextTree α :=
  (climb TextTree.node (texts.map TextTree.leaf)).headD (.leaf default)

theorem build_concat_self [Inhabited α] {texts : List α} {last : α} (heven : Even texts.length)
    (hne : texts ≠ []) : build (texts ++ [last, last]) = build (texts ++ [last]) := by
  have hpos := List.length_pos_of_ne_nil hne
  have hlong : 1 < ((texts ++ [last, last]).map TextTree.leaf).length := by simp
  have hlong' : 1 < ((texts ++ [last]).map TextTree.leaf).length := by
    rw [List.length_map, List.length_append, List.length_singleton]
    omega
  have hlevels := pairUp_concat_self TextTree.node (texts.map TextTree.leaf) (TextTree.leaf last)
    (by rwa [List.length_map])
  rw [build, build, climb, if_pos hlong, climb.eq_def _ (List.map _ (texts ++ [last])),
    if_pos hlong', List.map_append, List.map_append]
  exact congrArg (fun level => (climb TextTree.node level).headD (.leaf default)) hlevels

/-! ### Hashing -/

section Hashing

variable {δ : Type*} (hash : α → δ) (join : δ → δ → α)

namespace TextTree

/-- What is hashed for a tree: the text of a leaf, the joined digests of a node. -/
def preimage : TextTree α → α
  | .leaf text => text
  | .node left right => join (hash left.preimage) (hash right.preimage)

/-- The digest of a tree. -/
def digest (t : TextTree α) : δ := hash (t.preimage hash join)

/-- All that is hashed in a tree. -/
def inputs : TextTree α → List α
  | .leaf text => [text]
  | .node left right =>
    join (left.digest hash join) (right.digest hash join) :: (left.inputs ++ right.inputs)

theorem preimage_mem_inputs (t : TextTree α) : t.preimage hash join ∈ t.inputs hash join := by
  cases t with
  | leaf text => exact List.mem_singleton_self text
  | node left right => exact List.mem_cons_self

end TextTree

/-- The digests of a level of leaves climb to the digest of the tree. -/
theorem digest_build [Inhabited α] [Inhabited δ] {texts : List α} (hne : texts ≠ []) :
    (climb (fun l r => hash (join l r)) (texts.map hash)).headD default =
      (build texts).digest hash join := by
  have hmap : texts.map hash = (texts.map TextTree.leaf).map (TextTree.digest hash join) := by
    rw [List.map_map]
    rfl
  have hnode : ∀ left right : TextTree α, (TextTree.node left right).digest hash join =
      hash (join (left.digest hash join) (right.digest hash join)) := fun _ _ => rfl
  obtain ⟨top, htop⟩ := exists_climb_eq TextTree.node
    (show texts.map TextTree.leaf ≠ [] by rwa [ne_eq, List.map_eq_nil_iff])
  rw [hmap, climb_map hnode, build, htop]
  rfl

/-- Equal trees, where a leaf may stand for an inner node whose preimage it spells. -/
def Matches : TextTree α → TextTree α → Prop
  | .leaf text, .leaf text' => text = text'
  | .node left right, .node left' right' => Matches left left' ∧ Matches right right'
  | .leaf text, .node left right => text = (TextTree.node left right).preimage hash join
  | .node left right, .leaf text => (TextTree.node left right).preimage hash join = text

variable {hash join}

/-- Where no two inputs collide and the digests can be told apart in a join, trees hash the same
input exactly when they match. -/
theorem preimage_eq_iff_matches
    (hjoin : ∀ x y x' y', join (hash x) (hash y) = join (hash x') (hash y') →
      hash x = hash x' ∧ hash y = hash y')
    {t t' : TextTree α} {hashed : Set α} (hinj : hashed.InjOn hash)
    (ht : ∀ input ∈ t.inputs hash join, input ∈ hashed)
    (ht' : ∀ input ∈ t'.inputs hash join, input ∈ hashed) :
    t.preimage hash join = t'.preimage hash join ↔ Matches hash join t t' := by
  induction t generalizing t' with
  | leaf text =>
    cases t' with
    | leaf text' => exact Iff.rfl
    | node left' right' => exact Iff.rfl
  | node left right ihl ihr =>
    cases t' with
    | leaf text' => exact Iff.rfl
    | node left' right' =>
      obtain ⟨hl, hr⟩ := List.forall_mem_append.mp (List.forall_mem_cons.mp ht).2
      obtain ⟨hl', hr'⟩ := List.forall_mem_append.mp (List.forall_mem_cons.mp ht').2
      rw [Matches, ← ihl hl hl', ← ihr hr hr']
      -- two joins agree where both pairs of digests do, and digests where the preimages do
      constructor
      · intro h
        obtain ⟨hleft, hright⟩ := hjoin _ _ _ _ h
        exact ⟨hinj (hl _ (left.preimage_mem_inputs hash join))
            (hl' _ (left'.preimage_mem_inputs hash join)) hleft,
          hinj (hr _ (right.preimage_mem_inputs hash join))
            (hr' _ (right'.preimage_mem_inputs hash join)) hright⟩
      · rintro ⟨hleft, hright⟩
        simp only [TextTree.preimage, hleft, hright]

/-- Trees have one digest exactly when they match. -/
theorem digest_eq_iff_matches
    (hjoin : ∀ x y x' y', join (hash x) (hash y) = join (hash x') (hash y') →
      hash x = hash x' ∧ hash y = hash y')
    {t t' : TextTree α} {hashed : Set α} (hinj : hashed.InjOn hash)
    (ht : ∀ input ∈ t.inputs hash join, input ∈ hashed)
    (ht' : ∀ input ∈ t'.inputs hash join, input ∈ hashed) :
    t.digest hash join = t'.digest hash join ↔ Matches hash join t t' := by
  rw [← preimage_eq_iff_matches hjoin hinj ht ht']
  exact hinj.eq_iff (ht _ (t.preimage_mem_inputs hash join))
    (ht' _ (t'.preimage_mem_inputs hash join))

end Hashing

end HashTree
