import Mathlib.Data.Nat.Log
import SafeHub.Client.HonestConsolidation
import SafeHub.Lib.Framing

/-!
# The position an inclusion path speaks for

An inclusion path says by its sides, from the leaf up, which way it climbs, and beside them
it carries an index. The root is recomputed from the sides alone, so the sides lead to a
position of the tree that the index need not be. A path as long as the tree is high, with a
leaf at its foot and the root at its top, has the leaf at that position at its foot.

## Main definitions

* `IsNode` — a digest that an inner node can have
* `CollisionFreeNodes` — nodes that say what they join, and are no logical leaves
* `MerklePath.sides` — which siblings of a path are on the right
* `slot` — the position of the leaf that sides lead to

## Main results

* `merklePath_leads_to_root` — every leaf has a path, and it leads to the root
* `getElem?_slot_of_merkleRootFromPath` — the leaf at the foot of a path to the root
* `slot_merkleSteps` — the path that is made for an index leads to it
* `inclusion_binds_position_iff` — when an index, with the sides, names its leaf, and when an
  accepted head stands at its position
-/

namespace SafeHub.Consolidate

open FixedWidth Framing
open Std (ExtTreeMap)

variable {D : Type} [Sha512 D] {level leaves : List D} {leaf : D} {index : ℕ}

/-! ### Every leaf has a path -/

theorem merklePath_of_lt (h : index < leaves.length) :
    merklePath leaves index = some ⟨index, merkleSteps leaves index⟩ := by
  rw [merklePath, if_neg (Nat.not_le.mpr h)]

/-- The index of a leaf has a path with that index, and the path leads to the root. -/
theorem merklePath_leads_to_root (leaves : List D) (i : Fin leaves.length) :
    ∃ path, merklePath leaves i = some path ∧ path.index = i ∧
      merkleRootFromPath leaves[i] path = merkleRoot leaves := by
  refine ⟨⟨i, merkleSteps leaves i⟩, merklePath_of_lt i.isLt, rfl, ?_⟩
  exact merkleRootFromPath_merkleSteps i (List.getElem?_eq_getElem i.isLt)

/-! ### Positions -/

/-- A digest of an inner node. -/
def IsNode (digest : D) : Prop := ∃ left right : D, digest = node left right

/-- Nodes without collisions, none of which is the leaf of a head. -/
structure CollisionFreeNodes (D : Type) [Sha512 D] : Prop where
  node_inj : ∀ a b c d : D, node a b = node c d → a = c ∧ b = d
  logicalLeaf_not_isNode : ∀ head : RefHead D, ¬ IsNode (logicalLeaf head)

/-- The sides of a path from the leaf up: `true` for a sibling on the right. -/
def MerklePath.sides (path : MerklePath D) : List Bool := path.steps.map MerkleStep.siblingRight

/-- The position of the leaf that sides lead to among `count` leaves. A sibling on the left
of an odd last node is its double, so there both sides lead to the same node. -/
def slot : (count : ℕ) → List Bool → ℕ
  | _, [] => 0
  | count, siblingRight :: sides =>
    let parent := slot ((count + 1) / 2) sides
    if siblingRight then 2 * parent else min (2 * parent + 1) (count - 1)

theorem slot_lt {count : ℕ} (sides : List Bool) (h : 0 < count) : slot count sides < count := by
  induction sides generalizing count with
  | nil => exact h
  | cons siblingRight sides ih =>
    have hparent : slot ((count + 1) / 2) sides < (count + 1) / 2 := ih (by omega)
    simp only [slot]
    split <;> omega

theorem length_nextLevel (level : List D) :
    (nextLevel level).length = (level.length + 1) / 2 := by
  induction level using nextLevel.induct with
  | case1 => simp [nextLevel]
  | case2 last => simp [nextLevel]
  | case3 left right rest ih =>
    rw [nextLevel, List.length_cons, ih, List.length_cons, List.length_cons]
    omega

/-- A level with more than one node is one lower than the tree over it. -/
theorem clog_length (h : 1 < level.length) :
    Nat.clog 2 level.length = Nat.clog 2 (nextLevel level).length + 1 := by
  rw [length_nextLevel, Nat.clog_of_one_lt Nat.one_lt_two h]
  rfl

omit [Sha512 D] in
/-- A tree without height is a single node. -/
theorem eq_singleton_of_clog (hne : level ≠ []) (h : Nat.clog 2 level.length = 0) :
    ∃ root, level = [root] := by
  refine List.length_eq_one_iff.mp ?_
  have hpos := List.length_pos_iff.mpr hne
  by_contra hmany
  have hclog := Nat.clog_pos Nat.one_lt_two (show 1 < level.length by omega)
  omega

omit [Sha512 D] in
theorem one_lt_length_of_clog (h : 0 < Nat.clog 2 level.length) : 1 < level.length := by
  by_contra hfew
  rw [Nat.clog_of_right_le_one (Nat.not_lt.mp hfew)] at h
  exact Nat.lt_irrefl 0 h

theorem nextLevel_ne_nil (h : 1 < level.length) : nextLevel level ≠ [] := by
  rw [← List.length_pos_iff, length_nextLevel]
  omega

theorem isNode_of_mem_nextLevel (h : leaf ∈ nextLevel level) : IsNode leaf := by
  induction level using nextLevel.induct with
  | case1 => cases h
  | case2 last => exact ⟨last, last, List.mem_singleton.mp h⟩
  | case3 left right rest ih =>
    rcases List.mem_cons.mp h with rfl | hrest
    · exact ⟨left, right, rfl⟩
    · exact ih hrest

/-! ### What a path to the root has at its foot -/

section Climb

variable {step : MerkleStep D} {steps : List (MerkleStep D)}

/-- The running hash after one step of a path. -/
def climb (running : D) (step : MerkleStep D) : D :=
  if step.siblingRight then node running step.sibling else node step.sibling running

theorem isNode_climb (running : D) (step : MerkleStep D) : IsNode (climb running step) := by
  unfold climb
  split
  · exact ⟨_, _, rfl⟩
  · exact ⟨_, _, rfl⟩

/-- The node that a step joins stands under the node it makes. -/
theorem getElem?_of_climb (hinj : ∀ a b c d : D, node a b = node c d → a = c ∧ b = d)
    {parent : ℕ} (h : (nextLevel level)[parent]? = some (climb leaf step)) :
    level[if step.siblingRight then 2 * parent else min (2 * parent + 1) (level.length - 1)]? =
      some leaf := by
  rw [getElem?_nextLevel] at h
  obtain ⟨left, hleft, hnode⟩ := Option.map_eq_some_iff.mp h
  have hlt := (List.getElem?_eq_some_iff.mp hleft).1
  cases hside : step.siblingRight with
  | true =>
    rw [climb, hside, if_pos rfl] at hnode
    rw [if_pos rfl, hleft, (hinj _ _ _ _ hnode).1]
  | false =>
    rw [climb, hside, if_neg Bool.false_ne_true] at hnode
    rw [if_neg Bool.false_ne_true, ← (hinj _ _ _ _ hnode).2]
    by_cases hlast : 2 * parent + 1 < level.length
    · rw [Nat.min_eq_left (by omega), List.getElem?_eq_getElem hlast, Option.getD_some]
    · -- an odd last node is joined with itself
      have hodd : min (2 * parent + 1) (level.length - 1) = 2 * parent := by omega
      rw [hodd, hleft, List.getElem?_eq_none (by omega), Option.getD_none]

/-- A path as long as the tree is high that leads to the root has at its foot the node its
sides lead to, whatever its siblings are. -/
theorem getElem?_slot_of_climb (hinj : ∀ a b c d : D, node a b = node c d → a = c ∧ b = d)
    (hne : level ≠ []) (hlength : steps.length = Nat.clog 2 level.length)
    (hroot : steps.foldl climb leaf = merkleRoot level) :
    level[slot level.length (steps.map MerkleStep.siblingRight)]? = some leaf := by
  induction steps generalizing level leaf with
  | nil =>
    obtain ⟨root, rfl⟩ := eq_singleton_of_clog hne hlength.symm
    rw [merkleRoot.eq_2] at hroot
    rw [← hroot]
    rfl
  | cons step steps ih =>
    have hmany := one_lt_length_of_clog (hlength ▸ List.length_pos_of_mem List.mem_cons_self)
    rw [clog_length hmany, List.length_cons, Nat.add_right_cancel_iff] at hlength
    rw [List.foldl_cons, ← merkleRoot_nextLevel hmany] at hroot
    have hparent := ih (nextLevel_ne_nil hmany) hlength hroot
    rw [length_nextLevel] at hparent
    exact getElem?_of_climb hinj hparent

/-- Sides as many as the tree is high lead down to a leaf that has a path with them. -/
theorem exists_steps_of_slot (hne : level ≠ []) {sides : List Bool}
    (hlength : sides.length = Nat.clog 2 level.length)
    (hleaf : level[slot level.length sides]? = some leaf) :
    ∃ steps : List (MerkleStep D), steps.map MerkleStep.siblingRight = sides ∧
      steps.foldl climb leaf = merkleRoot level := by
  induction sides generalizing level leaf with
  | nil =>
    obtain ⟨root, rfl⟩ := eq_singleton_of_clog hne hlength.symm
    refine ⟨[], rfl, ?_⟩
    rw [merkleRoot.eq_2]
    exact (Option.some.inj hleaf).symm
  | cons siblingRight sides ih =>
    have hmany := one_lt_length_of_clog (hlength ▸ List.length_pos_of_mem List.mem_cons_self)
    rw [clog_length hmany, List.length_cons, Nat.add_right_cancel_iff] at hlength
    set parent := slot ((level.length + 1) / 2) sides with hparent
    have hlt : parent < (level.length + 1) / 2 := slot_lt sides (by omega)
    -- the two nodes under the parent, the second perhaps the first once more
    have hleft : level[2 * parent]? = some level[2 * parent] := List.getElem?_eq_getElem _
    set left := level[2 * parent]
    set right := level[2 * parent + 1]?.getD left
    have hnode : (nextLevel level)[slot (nextLevel level).length sides]? =
        some (node left right) := by
      rw [length_nextLevel, ← hparent, getElem?_nextLevel, hleft]
      rfl
    obtain ⟨steps, hsides, hroot⟩ := ih (nextLevel_ne_nil hmany) hlength hnode
    rw [merkleRoot_nextLevel hmany] at hroot
    rw [slot, ← hparent] at hleaf
    cases siblingRight with
    | true =>
      rw [if_pos rfl, hleft] at hleaf
      obtain rfl := Option.some.inj hleaf
      exact ⟨⟨right, true⟩ :: steps, by rw [List.map_cons, hsides], hroot⟩
    | false =>
      refine ⟨⟨left, false⟩ :: steps, by rw [List.map_cons, hsides], ?_⟩
      rw [if_neg Bool.false_ne_true] at hleaf
      have hfoot : right = leaf := by
        by_cases hlast : 2 * parent + 1 < level.length
        · rw [Nat.min_eq_left (by omega)] at hleaf
          exact congrArg (Option.getD · left) hleaf
        · have hodd : min (2 * parent + 1) (level.length - 1) = 2 * parent := by omega
          rw [hodd, hleft] at hleaf
          have hnone : level[2 * parent + 1]? = none := List.getElem?_eq_none (by omega)
          exact (congrArg (Option.getD · left) hnone).trans (Option.some.inj hleaf)
      rw [← hfoot]
      exact hroot

theorem isNode_foldl_climb (running : D) (hne : steps ≠ []) :
    IsNode (steps.foldl climb running) := by
  rw [← List.dropLast_append_getLast hne, List.foldl_append]
  exact isNode_climb _ _

/-- Under the root of a tree there are levels of all lower heights, made of nodes. -/
theorem exists_level_of_height (gap : ℕ) {height : ℕ}
    (h : height + gap + 1 = Nat.clog 2 level.length) :
    ∃ upper : List D, upper ≠ [] ∧ height = Nat.clog 2 upper.length ∧
      merkleRoot upper = merkleRoot level ∧ ∀ digest ∈ upper, IsNode digest := by
  have hmany : 1 < level.length := one_lt_length_of_clog (by omega)
  induction gap generalizing level with
  | zero =>
    rw [clog_length hmany] at h
    exact ⟨nextLevel level, nextLevel_ne_nil hmany, Nat.add_right_cancel h,
      merkleRoot_nextLevel hmany, fun _ => isNode_of_mem_nextLevel⟩
  | succ gap ih =>
    rw [clog_length hmany] at h
    have hnext : height + gap + 1 = Nat.clog 2 (nextLevel level).length := by omega
    obtain ⟨upper, hne, hheight, hroot, hnodes⟩ :=
      ih hnext (one_lt_length_of_clog (by omega))
    exact ⟨upper, hne, hheight, hroot.trans (merkleRoot_nextLevel hmany), hnodes⟩

/-- A path from a leaf to the root is as long as the tree is high: a shorter one starts at a
node, and a longer one arrives at the leaves with a node. -/
theorem length_eq_of_climb (hinj : ∀ a b c d : D, node a b = node c d → a = c ∧ b = d)
    (hne : leaves ≠ []) (hleaves : ∀ digest ∈ leaves, ¬ IsNode digest) (hleaf : ¬ IsNode leaf)
    (hroot : steps.foldl climb leaf = merkleRoot leaves) :
    steps.length = Nat.clog 2 leaves.length := by
  rcases Nat.lt_trichotomy steps.length (Nat.clog 2 leaves.length) with hshort | heq | hlong
  · obtain ⟨gap, hgap⟩ := Nat.exists_eq_add_of_lt hshort
    obtain ⟨upper, hupper, hlength, hsame, hnodes⟩ := exists_level_of_height gap hgap.symm
    have hfoot := getElem?_slot_of_climb hinj hupper hlength (hroot.trans hsame.symm)
    exact absurd (hnodes leaf (List.mem_of_getElem? hfoot)) hleaf
  · exact heq
  · set extra := steps.length - Nat.clog 2 leaves.length with hextra
    rw [← List.take_append_drop extra steps, List.foldl_append] at hroot
    have hlength : (steps.drop extra).length = Nat.clog 2 leaves.length := by
      rw [List.length_drop]
      omega
    have hfoot := getElem?_slot_of_climb hinj hne hlength hroot
    have hsome : steps.take extra ≠ [] := by
      rw [← List.length_pos_iff, List.length_take]
      omega
    exact absurd (isNode_foldl_climb leaf hsome) (hleaves _ (List.mem_of_getElem? hfoot))

end Climb

/-- A leaf whose path leads to the root stands where the sides of the path lead. -/
theorem getElem?_slot_of_merkleRootFromPath
    (hinj : ∀ a b c d : D, node a b = node c d → a = c ∧ b = d) (hne : leaves ≠ [])
    (hleaves : ∀ digest ∈ leaves, ¬ IsNode digest) (hleaf : ¬ IsNode leaf) {path : MerklePath D}
    (hroot : merkleRootFromPath leaf path = merkleRoot leaves) :
    path.sides.length = Nat.clog 2 leaves.length ∧
      leaves[slot leaves.length path.sides]? = some leaf := by
  have hlength := length_eq_of_climb hinj hne hleaves hleaf hroot
  exact ⟨(List.length_map _).trans hlength, getElem?_slot_of_climb hinj hne hlength hroot⟩

/-- The sides of the path that is made for an index lead to that index. -/
theorem slot_merkleSteps (h : index < level.length) :
    slot level.length ((merkleSteps level index).map MerkleStep.siblingRight) = index := by
  induction level, index using merkleSteps.induct with
  | case1 level index hmany ih =>
    have hhalf := ih (by rw [length_nextLevel]; omega)
    rw [length_nextLevel] at hhalf
    rw [merkleSteps, if_pos hmany, List.map_cons, slot, hhalf]
    by_cases heven : index % 2 = 0
    · simp only [heven, decide_true, if_true]
      omega
    · simp only [heven, decide_false, if_false, Bool.false_eq_true]
      omega
  | case2 level index hfew =>
    rw [merkleSteps, if_neg hfew, List.map_nil, slot]
    omega

/-! ### What an index says about the leaf -/

theorem forall_leaf_iff_slot (hinj : ∀ a b c d : D, node a b = node c d → a = c ∧ b = d)
    (hleaves : ∀ digest ∈ leaves, ¬ IsNode digest) (i : Fin leaves.length) (sides : List Bool) :
    (∀ leaf path, ¬ IsNode leaf → path.index = (i : ℕ) → path.sides = sides →
        merkleRootFromPath leaf path = merkleRoot leaves → leaf = leaves[i]) ↔
      (sides.length = Nat.clog 2 leaves.length →
        leaves[slot leaves.length sides]? = some leaves[i]) := by
  have hne : leaves ≠ [] := List.ne_nil_of_length_pos i.pos
  constructor
  · intro hbound hlength
    have hfoot := List.getElem?_eq_getElem (slot_lt sides i.pos)
    obtain ⟨steps, hsides, hroot⟩ := exists_steps_of_slot hne hlength hfoot
    rw [hfoot, hbound _ ⟨i, steps⟩ (hleaves _ (List.getElem_mem _)) rfl hsides hroot]
  · rintro hslot leaf path hleaf - rfl hroot
    obtain ⟨hlength, hfoot⟩ :=
      getElem?_slot_of_merkleRootFromPath hinj hne hleaves hleaf hroot
    exact Option.some.inj (hfoot.symm.trans (hslot hlength))

variable [DecidableEq D] {receipt : ConsolidationReceipt D} {head : RefHead D}
  {proofs : ExtTreeMap UInt64 (MerklePath D) compare}

theorem exists_path_of_checkInclusion (h : checkInclusion receipt proofs head = .ok ()) :
    ∃ path, proofs[head.seq]? = some path ∧
      path.index = (head.seq - receipt.fromSeq).toNat ∧
      merkleRootFromPath (logicalLeaf head) path = receipt.logicalRoot := by
  rw [checkInclusion] at h
  cases hpath : proofs[head.seq]? with
  | none =>
    rw [hpath] at h
    cases h
  | some path =>
    rw [hpath] at h
    dsimp only at h
    split_ifs at h with hindex hroot
    exact ⟨path, rfl, not_not.mp hindex, not_not.mp hroot⟩

/-- The head of an accepted window stands where the sides of its proof lead. -/
theorem getElem?_slot_of_accepted [MlDsa87] (hfree : CollisionFreeNodes D) (hne : leaves ≠ [])
    (hleaves : ∀ digest ∈ leaves, ¬ IsNode digest) (hroot : receipt.logicalRoot = merkleRoot leaves)
    {adminVks : List Bytes} {windowHeads : List (RefHead D)}
    (haccept : verifyConsolidationWindow receipt adminVks windowHeads proofs = .ok ())
    (hhead : head ∈ receipt.inSpan windowHeads) :
    ∃ path, proofs[head.seq]? = some path ∧
      path.index = (head.seq - receipt.fromSeq).toNat ∧
      leaves[slot leaves.length path.sides]? = some (logicalLeaf head) := by
  have hincluded := (verifyConsolidationWindow_eq_ok_iff.mp haccept).included head hhead
  obtain ⟨path, hpath, hindex, hleads⟩ := exists_path_of_checkInclusion hincluded
  exact ⟨path, hpath, hindex, (getElem?_slot_of_merkleRootFromPath hfree.node_inj hne hleaves
    (hfree.logicalLeaf_not_isNode head) (hleads.trans hroot)).2⟩

/-- An index names its leaf for the paths whose sides, if they are as many as the tree is
high, lead to a place with that leaf, and for no others. Accepted heads are all at their
positions just when the sides of their proofs lead to places with the leaves of these
positions. -/
theorem inclusion_binds_position_iff [MlDsa87] (hfree : CollisionFreeNodes D) (leaves : List D)
    (hleaves : ∀ digest ∈ leaves, ¬ IsNode digest) :
    (∀ (i : Fin leaves.length) (sides : List Bool),
      (∀ leaf path, ¬ IsNode leaf → path.index = (i : ℕ) → path.sides = sides →
          merkleRootFromPath leaf path = merkleRoot leaves → leaf = leaves[i]) ↔
        (sides.length = Nat.clog 2 leaves.length →
          leaves[slot leaves.length sides]? = some leaves[i])) ∧
    ∀ (receipt : ConsolidationReceipt D) (adminVks : List Bytes) (windowHeads : List (RefHead D))
      (proofs : ExtTreeMap UInt64 (MerklePath D) compare),
      leaves ≠ [] → receipt.logicalRoot = merkleRoot leaves →
      verifyConsolidationWindow receipt adminVks windowHeads proofs = .ok () →
      ((∀ head ∈ receipt.inSpan windowHeads,
          leaves[(head.seq - receipt.fromSeq).toNat]? = some (logicalLeaf head)) ↔
        ∀ head ∈ receipt.inSpan windowHeads, ∀ path, proofs[head.seq]? = some path →
          leaves[slot leaves.length path.sides]? =
            leaves[(head.seq - receipt.fromSeq).toNat]?) := by
  refine ⟨forall_leaf_iff_slot hfree.node_inj hleaves, ?_⟩
  intro receipt adminVks windowHeads proofs hne hroot haccept
  refine forall₂_congr fun head hhead => ?_
  obtain ⟨path, hpath, -, hfoot⟩ :=
    getElem?_slot_of_accepted hfree hne hleaves hroot haccept hhead
  constructor
  · intro hat path' hpath'
    rw [hpath] at hpath'
    obtain rfl := Option.some.inj hpath'
    exact hfoot.trans hat.symm
  · intro hsame
    exact (hsame path hpath).symm.trans hfoot

/-! ### A path that leads elsewhere -/

section Framed

/-- A collision-free stand-in for SHA-512 that returns its input, and writes it so that it can
be read off again. -/
abbrev framedSha512 : Sha512 Bytes := ⟨id, (Code.list Code.byte).write, []⟩

attribute [local instance] framedSha512 transparentMlDsa87

theorem leaf_label_ne (rest rest' : Bytes) :
    labelBytes "consol-leaf" ++ rest ≠ labelBytes "consol-node" ++ rest' := by
  intro h
  exact absurd (List.append_inj_left h (by decide +kernel)) (by decide +kernel)

theorem collisionFreeNodes_framed : CollisionFreeNodes Bytes where
  node_inj a b c d h := by
    have hbytes : labelBytes "consol-node" ++ (Sha512.toBytes a ++ Sha512.toBytes b) =
        labelBytes "consol-node" ++ (Sha512.toBytes c ++ Sha512.toBytes d) := by
      rw [← List.append_assoc, ← List.append_assoc]
      exact h
    obtain ⟨hleft, hright⟩ := Code.write_append_inj _ (List.append_cancel_left hbytes)
    exact ⟨hleft, Code.write_injective _ hright⟩
  logicalLeaf_not_isNode head := by
    rintro ⟨left, right, h⟩
    rw [logicalLeaf, node] at h
    simp only [List.append_assoc] at h
    exact leaf_label_ne _ _ h

/-- The second head of the sample repository. -/
def secondAnchor : RefHead Bytes := { sampleAnchor with seq := 2 }

/-- A tree with the two heads in the wrong order. -/
def swappedLeaves : List Bytes := [logicalLeaf secondAnchor, logicalLeaf sampleAnchor]

/-- A receipt over the two heads, with the tree that has them in the wrong order. -/
def swappedReceipt (adminSig : Bytes) : ConsolidationReceipt Bytes where
  repoId := Vector.replicate 32 0
  epoch := 0
  fromSeq := 1
  toSeq := 2
  logicalRoot := merkleRoot swappedLeaves
  epochCommitments := (∅ : EpochCommitments Bytes).insert 0 (1, 2, [])
  checkpoint := none
  adminSig := adminSig

/-- The receipt, signed by the admin. -/
def swappedSigned : ConsolidationReceipt Bytes :=
  swappedReceipt (quorumBytes 1 (flatSigs (consolidationMessage (swappedReceipt [])) [1]))

/-- A proof with index 0 whose sibling is on the left. -/
def swappedProof : MerklePath Bytes := ⟨0, [⟨logicalLeaf secondAnchor, false⟩]⟩

/-- The proofs of a window with the first head. -/
def swappedProofs : ExtTreeMap UInt64 (MerklePath Bytes) compare :=
  (∅ : ExtTreeMap UInt64 (MerklePath Bytes) compare).insert 1 swappedProof

theorem verifyConsolidationWindow_swapped :
    verifyConsolidationWindow swappedSigned (flatKeys [1]) [sampleAnchor] swappedProofs =
      .ok () := by
  decide +kernel

theorem not_isNode_of_mem_swappedLeaves : ∀ digest ∈ swappedLeaves, ¬ IsNode digest := by
  intro digest hdigest
  rcases List.mem_pair.mp hdigest with rfl | rfl
  · exact collisionFreeNodes_framed.logicalLeaf_not_isNode secondAnchor
  · exact collisionFreeNodes_framed.logicalLeaf_not_isNode sampleAnchor

/-- A proof with index 0 leads from the leaf at position 1 to the root, and a window accepts
the first head by it, where the tree has the second. -/
theorem inclusion_at_another_position :
    CollisionFreeNodes Bytes ∧ (∀ digest ∈ swappedLeaves, ¬ IsNode digest) ∧
    ¬ IsNode (logicalLeaf sampleAnchor) ∧ swappedProof.index = 0 ∧
    merkleRootFromPath (logicalLeaf sampleAnchor) swappedProof = merkleRoot swappedLeaves ∧
    swappedLeaves[0]? = some (logicalLeaf secondAnchor) ∧
    logicalLeaf sampleAnchor ≠ logicalLeaf secondAnchor ∧
    swappedSigned.logicalRoot = merkleRoot swappedLeaves ∧
    verifyConsolidationWindow swappedSigned (flatKeys [1]) [sampleAnchor] swappedProofs =
      .ok () ∧
    sampleAnchor ∈ swappedSigned.inSpan [sampleAnchor] ∧
    swappedLeaves[(sampleAnchor.seq - swappedSigned.fromSeq).toNat]? ≠
      some (logicalLeaf sampleAnchor) :=
  ⟨collisionFreeNodes_framed, not_isNode_of_mem_swappedLeaves,
    collisionFreeNodes_framed.logicalLeaf_not_isNode sampleAnchor, rfl, by decide +kernel, rfl,
    by decide +kernel, rfl, verifyConsolidationWindow_swapped, by decide +kernel,
    by decide +kernel⟩

/-- With the sibling on the right an index 0 names the first leaf of the tree, and the window
that accepted the other head has it at the wrong position. -/
theorem inclusion_binds_position_swapped :
    (∀ leaf (path : MerklePath Bytes), ¬ IsNode leaf → path.index = 0 → path.sides = [true] →
      merkleRootFromPath leaf path = merkleRoot swappedLeaves → leaf = logicalLeaf secondAnchor) ∧
    ¬ ∀ head ∈ swappedSigned.inSpan [sampleAnchor],
      swappedLeaves[(head.seq - swappedSigned.fromSeq).toNat]? = some (logicalLeaf head) := by
  obtain ⟨hindex, hwindow⟩ := inclusion_binds_position_iff collisionFreeNodes_framed swappedLeaves
    not_isNode_of_mem_swappedLeaves
  refine ⟨(hindex ⟨0, by decide⟩ [true]).mpr fun _ => by decide +kernel, ?_⟩
  rw [hwindow swappedSigned (flatKeys [1]) [sampleAnchor] swappedProofs (by decide) rfl
    verifyConsolidationWindow_swapped]
  intro hsame
  exact absurd (hsame sampleAnchor (by decide +kernel) swappedProof (by decide +kernel))
    (by decide +kernel)

end Framed

end SafeHub.Consolidate
