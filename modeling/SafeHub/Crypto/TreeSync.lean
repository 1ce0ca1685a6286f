import Mathlib.Data.List.Sort
import SafeHub.Crypto.TreeMath
import SafeHub.Types.RefHead

/-!
# The ratchet tree of a group

The members of a group are the leaves of a tree whose parent nodes have keys of their own, or are
blank. Whoever is below a parent node has its private key, but for the leaves that it lists as
unmerged. A member that commits replaces the keys above its leaf, and sends the secrets of the new
keys to the resolutions of its copath.

## Main definitions

* `LeafNode`, `ParentNode`, `TreeSync` — the nodes, and the tree with its blanks
* `addLeaf`, `updateLeaf`, `blankLeaf`, `trimTree` — what proposals do to the tree
* `resolution`, `copathResolutions`, `filteredDirectPath` — where a commit's secrets go
* `processUpdatePath` — the new keys above a leaf, with their parent hashes
* `Covers` — a node whose key a member has

## Main results

* `existsUnique_covers` — of a resolution, one entry covers each leaf below its node
* `resolution_excluding` — leaving leaves out before or after resolving is the same
* `filteredDirectPath_eq` — the direct path by levels
-/

namespace SafeHub

open CompleteTree

/-! ### Sizes -/

/-- The largest number of nodes. -/
def maxTreeSize : ℕ := 2 ^ 30 - 1

namespace TreeSize

def parentCount (size : TreeSize) : ℕ := size.u32 / 2

/-- Whether a leaf is in the left half of a tree. -/
def leafIsLeft (size : TreeSize) (index : LeafNodeIndex) : Prop := index.u32 < size.leafCount / 2

instance (size : TreeSize) (index : LeafNodeIndex) : Decidable (size.leafIsLeft index) :=
  inferInstanceAs (Decidable (_ < _))

/-- Twice as many leaves. -/
def inc (size : TreeSize) (hmax : size.u32 ≤ maxTreeSize / 2) : TreeSize :=
  ⟨size.u32 * 2 + 1, size.height + 1, by
    have hu32 := size.u32_eq
    have hpos : 0 < 2 ^ size.height := Nat.two_pow_pos _
    have hle : 2 ^ (size.height + 1) ≤ 2 ^ 29 := by
      rw [maxTreeSize] at hmax
      omega
    have := (Nat.pow_le_pow_iff_right (by decide : 1 < 2)).mp hle
    refine ⟨by omega, ?_⟩
    rw [hu32, pow_succ 2 (size.height + 1)]
    omega⟩

/-- Half as many leaves. -/
def dec (size : TreeSize) (hmin : 1 < size.u32) : TreeSize :=
  ⟨(size.u32 + 1) / 2 - 1, size.height - 1, by
    have hlt := size.height_lt
    have hu32 := size.u32_eq
    have hheight : size.height ≠ 0 := by
      intro hzero
      rw [hzero] at hu32
      omega
    obtain ⟨h, hh⟩ := Nat.exists_eq_add_one_of_ne_zero hheight
    refine ⟨by omega, ?_⟩
    rw [hu32, hh, Nat.add_sub_cancel, pow_succ 2 (h + 1)]
    have hpos : 0 < 2 ^ (h + 1) := Nat.two_pow_pos _
    omega⟩

end TreeSize

/-! ### Nodes -/

/-- What a member has put into its leaf. -/
structure LeafNode (K : Type) where
  encryptionKey : K
  signatureKey : Bytes
  /-- The hash of the node above, in a leaf that came with a commit. -/
  parentHash : Option Bytes
  deriving DecidableEq

structure ParentNode (K : Type) where
  encryptionKey : K
  parentHash : Bytes
  unmergedLeaves : List LeafNodeIndex
  deriving DecidableEq

variable {K : Type}

namespace ParentNode

def ofKey (key : K) : ParentNode K := ⟨key, [], []⟩

/-- The list of unmerged leaves is kept in order. -/
def addUnmergedLeaf (node : ParentNode K) (leaf : LeafNodeIndex) : ParentNode K :=
  { node with unmergedLeaves := node.unmergedLeaves.orderedInsert (·.u32 ≤ ·.u32) leaf }

end ParentNode

inductive NodeReference (K : Type)
  | leaf (node : LeafNode K)
  | parent (node : ParentNode K)

def NodeReference.encryptionKey : NodeReference K → K
  | .leaf node => node.encryptionKey
  | .parent node => node.encryptionKey

/-- The hashes of nodes. -/
class TreeHashes (K : Type) where
  /-- `TreeHashInput::new_leaf`. -/
  leafHash : LeafNodeIndex → Option (LeafNode K) → Bytes
  /-- `TreeHashInput::new_parent`, with the hashes of the children. -/
  parentNodeHash : Option (ParentNode K) → Bytes → Bytes → Bytes
  /-- `ParentHashInput`: the key, the hash of the node above and that of the sibling's tree. -/
  parentHash : K → Bytes → Bytes → Bytes

/-- A tree. Its leaves and parent nodes are blank where there is nothing. -/
structure TreeSync (K : Type) where
  size : TreeSize
  leaf : LeafNodeIndex → Option (LeafNode K)
  parent : ParentNodeIndex → Option (ParentNode K)

namespace TreeSync

variable (tree : TreeSync K)

def leafCount : ℕ := tree.size.leafCount

/-- The direct path; leaves that are not in the tree have none here. -/
def directPath (index : LeafNodeIndex) : List ParentNodeIndex :=
  (SafeHub.directPath index tree.size).getD []

def copath (index : LeafNodeIndex) : List TreeNodeIndex :=
  (SafeHub.copath index tree.size).getD []

/-- The leaves, from left to right. -/
def leaves : List (LeafNodeIndex × Option (LeafNode K)) :=
  (List.range tree.leafCount).map fun i => (⟨i⟩, tree.leaf ⟨i⟩)

def replaceLeaf (index : LeafNodeIndex) (node : Option (LeafNode K)) : TreeSync K :=
  { tree with leaf := Function.update tree.leaf index node }

def replaceParent (index : ParentNodeIndex) (node : Option (ParentNode K)) : TreeSync K :=
  { tree with parent := Function.update tree.parent index node }

def setDirectPathToBlank (index : LeafNodeIndex) : TreeSync K :=
  (tree.directPath index).foldl (fun tree p => tree.replaceParent p none) tree

def growTree : Option (TreeSync K) :=
  if h : tree.size.u32 ≤ maxTreeSize / 2 then some { tree with size := tree.size.inc h } else none

/-- What is outside of the smaller tree is dropped. -/
def shrinkTree : Option (TreeSync K) :=
  if h : 1 < tree.size.u32 then
    let size := tree.size.dec h
    some ⟨size, fun i => if i.u32 < size.leafCount then tree.leaf i else none,
      fun p => if p.u32 < size.parentCount then tree.parent p else none⟩
  else none

/-! ### Proposals -/

/-- The last leaf that is not blank. -/
def rightmostFullLeaf : LeafNodeIndex :=
  tree.leaves.foldl (fun index entry => if entry.2.isSome then entry.1 else index) ⟨0⟩

/-- Shrink a tree as long as a leaf is in its left half. A tree has fewer levels than the fuel. -/
def shrinkWhileLeft (leaf : LeafNodeIndex) : ℕ → TreeSync K → TreeSync K
  | 0, tree => tree
  | fuel + 1, tree =>
    if tree.size.leafIsLeft leaf then
      match tree.shrinkTree with
      | some tree => shrinkWhileLeft leaf fuel tree
      | none => tree
    else tree

def trimTree : TreeSync K :=
  if tree.leafCount = 1 then tree else shrinkWhileLeft tree.rightmostFullLeaf 32 tree

/-- The first blank leaf, or the one after the last. -/
def freeLeafIndex : LeafNodeIndex :=
  match tree.leaves.find? fun entry => entry.2.isNone with
  | some entry => entry.1
  | none => ⟨tree.leafCount⟩

/-- Grow a tree until it has a leaf. -/
def growUntil (leaf : LeafNodeIndex) : ℕ → TreeSync K → Option (TreeSync K)
  | 0, _ => none
  | fuel + 1, tree =>
    if leaf.u32 < tree.leafCount then some tree else tree.growTree.bind (growUntil leaf fuel)

/-- A leaf is put into the first free place, and is unmerged in the nodes above. -/
def addLeaf (node : LeafNode K) : Option (LeafNodeIndex × TreeSync K) := do
  let index := tree.freeLeafIndex
  let tree ← growUntil index 32 tree
  let tree := tree.replaceLeaf index (some node)
  return (index, (tree.directPath index).foldl (fun tree p =>
    tree.replaceParent p ((tree.parent p).map (·.addUnmergedLeaf index))) tree)

/-- Another leaf node, and a blank direct path. -/
def updateLeaf (node : LeafNode K) (index : LeafNodeIndex) : TreeSync K :=
  (tree.replaceLeaf index (some node)).setDirectPathToBlank index

def blankLeaf (index : LeafNodeIndex) : TreeSync K :=
  (tree.replaceLeaf index none).setDirectPathToBlank index

/-! ### Resolutions -/

variable (excluded : List LeafNodeIndex)

/-- The nodes that stand for the leaves below a node, as far down as the fuel lasts. -/
def resolutionFrom : ℕ → TreeNodeIndex → List (TreeNodeIndex × NodeReference K)
  | _, .leaf i =>
    if i ∈ excluded then []
    else ((tree.leaf i).map fun node => (TreeNodeIndex.leaf i, NodeReference.leaf node)).toList
  | fuel, .parent p =>
    match tree.parent p with
    | some node => (.parent p, .parent node) :: node.unmergedLeaves.filterMap fun i =>
        if i ∈ excluded then none else (tree.leaf i).map fun node => (.leaf i, .leaf node)
    | none =>
      match fuel with
      | 0 => []
      | fuel + 1 => resolutionFrom fuel (left p) ++ resolutionFrom fuel (right p)

/-- The resolution of a node. Each level has its own children. -/
def resolution (n : TreeNodeIndex) : List (TreeNodeIndex × NodeReference K) :=
  tree.resolutionFrom excluded (level n.u32) n

variable (index : LeafNodeIndex)

def copathResolutions : List (List (TreeNodeIndex × NodeReference K)) :=
  if tree.leafCount = 1 then [] else (tree.copath index).map (tree.resolution [])

/-- The direct path without the nodes whose copath resolution is empty. -/
def filteredDirectPath : List ParentNodeIndex :=
  ((tree.directPath index).zip (tree.copathResolutions index)).filterMap fun entry =>
    if entry.2.isEmpty then none else some entry.1

/-- The copath without the nodes whose resolution is empty. -/
def filteredCopath : List TreeNodeIndex :=
  ((tree.copath index).zip (tree.copathResolutions index)).filterMap fun entry =>
    if entry.2.isEmpty then none else some entry.1

/-- A node of a resolution that is not a leaf to be left out. -/
def keeps (entry : TreeNodeIndex × NodeReference K) : Bool :=
  match entry.1 with
  | .leaf i => decide (i ∉ excluded)
  | .parent _ => true

/-- The copath resolutions that are not empty, without the leaves to be left out. -/
def filteredCopathResolutions : List (List (TreeNodeIndex × NodeReference K)) :=
  if tree.leafCount = 1 then []
  else (tree.copath index).filterMap fun n =>
    let resolution := tree.resolution [] n
    if resolution.isEmpty then none else some (resolution.filter (keeps excluded))

/-! ### Update paths -/

section Hashes

variable [TreeHashes K]

/-- The tree hash of a node. Leaves to be left out count as blank. -/
def computeTreeHashFrom : ℕ → TreeNodeIndex → Bytes
  | _, .leaf i => TreeHashes.leafHash i (if i ∈ excluded then none else tree.leaf i)
  | 0, .parent _ => []
  | fuel + 1, .parent p =>
    let leftHash := computeTreeHashFrom fuel (left p)
    let rightHash := computeTreeHashFrom fuel (right p)
    TreeHashes.parentNodeHash ((tree.parent p).map fun node =>
      { node with unmergedLeaves := node.unmergedLeaves.filter (· ∉ excluded) }) leftHash rightHash

def computeTreeHash (n : TreeNodeIndex) : Bytes :=
  tree.computeTreeHashFrom excluded (level n.u32) n

/-- The parent hashes of a path, from its end on, and the hash for the leaf. -/
def chainParentHashes : List (ParentNodeIndex × ParentNode K) → List Bytes →
    List (ParentNodeIndex × ParentNode K) × Bytes
  | (p, node) :: path, siblingHash :: siblingHashes =>
    let (path, previous) := chainParentHashes path siblingHashes
    ((p, { node with parentHash := previous }) :: path,
      TreeHashes.parentHash node.encryptionKey previous siblingHash)
  | path, _ => (path, [])

/-- Set the parent hashes of a new filtered direct path. -/
def setParentHashes (path : List (ParentNodeIndex × ParentNode K)) :
    Option (List (ParentNodeIndex × ParentNode K) × Bytes) :=
  if path.isEmpty then some (path, [])
  else
    let filteredCopath := tree.filteredCopath index
    if filteredCopath.length ≠ path.length then none
    else some (chainParentHashes path (filteredCopath.map (tree.computeTreeHash [])))

/-- Put new nodes above a leaf. The rest of its direct path becomes blank. -/
def processUpdatePath (path : List (ParentNodeIndex × ParentNode K)) :
    Option (TreeSync K × Bytes) := do
  let (path, parentHash) ← tree.setParentHashes index path
  let tree := tree.setDirectPathToBlank index
  return (path.foldl (fun tree entry => tree.replaceParent entry.1 (some entry.2)) tree, parentHash)

end Hashes

/-! ### Keys -/

/-- The keys that the member at a leaf has. -/
def encryptionKeys : List K :=
  ((tree.leaf index).map (·.encryptionKey)).toList ++
    (tree.filteredDirectPath index).filterMap fun p =>
      (tree.parent p).bind fun node =>
        if index ∈ node.unmergedLeaves then none else some node.encryptionKey

/-- The place of the common ancestor in the filtered direct path of the first leaf. -/
def subtreeRootPosition (index other : LeafNodeIndex) : Option ℕ :=
  (tree.filteredDirectPath index).findIdx? (· = lowestCommonAncestor index other)

/-- The node of one leaf's copath that the other leaf is below. -/
def subtreeRootCopathNode (index other : LeafNodeIndex) : TreeNodeIndex :=
  let p := lowestCommonAncestor index other
  if other.u32 < index.u32 then left p else right p

/-- The nodes that two filtered direct paths share, from the root down. -/
def filteredCommonDirectPath (index other : LeafNodeIndex) : List ParentNodeIndex :=
  (commonFront (tree.filteredDirectPath index).reverse
    (tree.filteredDirectPath other).reverse).reverse

end TreeSync

/-! ### By levels -/

namespace TreeSync

variable {tree : TreeSync K} {excluded : List LeafNodeIndex} {k m i j : ℕ}

/-- The node beside the path of a leaf at a level. -/
def beside (i k : ℕ) : TreeNodeIndex := .new (node k (twin (i / 2 ^ k)))

theorem leafCount_eq : tree.leafCount = 2 ^ tree.size.height := tree.size.leafCount_eq

theorem leafCount_eq_one_iff : tree.leafCount = 1 ↔ tree.size.height = 0 := by
  rw [leafCount_eq, Nat.pow_eq_one]
  omega

theorem one_le_height (hone : tree.leafCount ≠ 1) : 1 ≤ tree.size.height :=
  Nat.one_le_iff_ne_zero.mpr (mt leafCount_eq_one_iff.mpr hone)

theorem directPath_eq (hi : i < tree.leafCount) :
    tree.directPath ⟨i⟩ = (List.range tree.size.height).map (above i) := by
  rw [directPath, SafeHub.directPath_eq hi, Option.getD_some]

theorem mem_directPath_iff (hi : i < tree.leafCount) {p : ParentNodeIndex} :
    p ∈ tree.directPath ⟨i⟩ ↔ ∃ k < tree.size.height, above i k = p := by
  simp [directPath_eq hi]

theorem copath_eq (hi : i < tree.leafCount) :
    tree.copath ⟨i⟩ = (List.range (max tree.size.height 1)).map (beside i) := by
  rw [copath, SafeHub.copath_eq hi, Option.getD_some]
  rfl

/-- A tree of one leaf has a copath node outside of the tree, and no copath resolutions. -/
theorem copathResolutions_eq (hi : i < tree.leafCount) :
    tree.copathResolutions ⟨i⟩ =
      (List.range tree.size.height).map fun k => tree.resolution [] (beside i k) := by
  rw [copathResolutions, copath_eq hi]
  by_cases hone : tree.leafCount = 1
  · rw [if_pos hone, leafCount_eq_one_iff.mp hone]
    rfl
  · have hpos := one_le_height hone
    rw [if_neg hone, max_eq_left hpos, List.map_map]
    rfl

/-- The levels at which there is someone beside the path of a leaf. -/
def pathLevels (tree : TreeSync K) (i : ℕ) : List ℕ :=
  (List.range tree.size.height).filter fun k => !(tree.resolution [] (beside i k)).isEmpty

theorem mem_pathLevels_iff : k ∈ tree.pathLevels i ↔
    k < tree.size.height ∧ tree.resolution [] (beside i k) ≠ [] := by
  simp [pathLevels]

theorem pathLevels_sorted : (tree.pathLevels i).Pairwise (· < ·) :=
  List.pairwise_lt_range.filter _

theorem filterMap_unless {α : Type} (levels : List ℕ) (p : ℕ → Bool) (f : ℕ → α) :
    levels.filterMap (fun k => if p k then none else some (f k)) =
      (levels.filter fun k => !p k).map f := by
  rw [← List.filterMap_eq_map, List.filterMap_filter]
  congr 1
  funext k
  cases p k <;> rfl

theorem filteredDirectPath_eq (hi : i < tree.leafCount) :
    tree.filteredDirectPath ⟨i⟩ = (tree.pathLevels i).map (above i) := by
  rw [filteredDirectPath, directPath_eq hi, copathResolutions_eq hi, List.zip_map',
    List.filterMap_map]
  exact filterMap_unless _ _ _

theorem filteredCopath_eq (hi : i < tree.leafCount) :
    tree.filteredCopath ⟨i⟩ = (tree.pathLevels i).map (beside i) := by
  rw [filteredCopath, copath_eq hi, copathResolutions_eq hi]
  rcases Nat.eq_zero_or_pos tree.size.height with hzero | hpos
  · rw [pathLevels, hzero]
    rfl
  · rw [max_eq_left hpos, List.zip_map', List.filterMap_map]
    exact filterMap_unless _ _ _

theorem filteredCopathResolutions_eq (hi : i < tree.leafCount) :
    tree.filteredCopathResolutions excluded ⟨i⟩ = (tree.pathLevels i).map fun k =>
      (tree.resolution [] (beside i k)).filter (keeps excluded) := by
  rw [filteredCopathResolutions, copath_eq hi]
  by_cases hone : tree.leafCount = 1
  · rw [if_pos hone, pathLevels, leafCount_eq_one_iff.mp hone]
    rfl
  · have hpos := one_le_height hone
    rw [if_neg hone, max_eq_left hpos, List.filterMap_map]
    exact filterMap_unless _ _ _

/-! ### What a resolution covers -/

theorem level_node (k m : ℕ) : level (TreeNodeIndex.new (node k m)).u32 = k := by
  rw [TreeNodeIndex.u32_new, level, trailingOnes_node]

theorem resolution_zero : tree.resolution excluded (.new (node 0 m)) =
    if (⟨m⟩ : LeafNodeIndex) ∈ excluded then []
    else ((tree.leaf ⟨m⟩).map fun node => (.leaf ⟨m⟩, .leaf node)).toList := by
  rw [resolution, level_node, new_node_zero, resolutionFrom]

/-- The unmerged leaves of a node that are resolved beside it. -/
def unmergedEntries (tree : TreeSync K) (excluded : List LeafNodeIndex) (node : ParentNode K) :
    List (TreeNodeIndex × NodeReference K) :=
  node.unmergedLeaves.filterMap fun i =>
    if i ∈ excluded then none else (tree.leaf i).map fun node => (.leaf i, .leaf node)

theorem resolution_succ : tree.resolution excluded (.new (node (k + 1) m)) =
    match tree.parent (parentAt k m) with
    | some node => (.parent (parentAt k m), .parent node) :: tree.unmergedEntries excluded node
    | none => tree.resolution excluded (.new (node k (2 * m))) ++
        tree.resolution excluded (.new (node k (2 * m + 1))) := by
  rw [resolution, level_node, new_node_succ, resolutionFrom]
  cases tree.parent (parentAt k m) with
  | some node => rfl
  | none =>
    dsimp only
    rw [left_parentAt, right_parentAt, resolution, resolution, level_node, level_node]

theorem filter_keeps_unmergedEntries (node : ParentNode K) :
    (tree.unmergedEntries [] node).filter (keeps excluded) =
      tree.unmergedEntries excluded node := by
  rw [unmergedEntries, unmergedEntries, List.filter_filterMap]
  congr 1
  funext i
  by_cases hi : i ∈ excluded <;> cases hleaf : tree.leaf i <;> simp [keeps, hi]

/-- Leaving leaves out before or after resolving is the same. -/
theorem resolution_excluding (excluded : List LeafNodeIndex) (k m : ℕ) :
    tree.resolution excluded (.new (node k m)) =
      (tree.resolution [] (.new (node k m))).filter (keeps excluded) := by
  induction k generalizing m with
  | zero =>
    rw [resolution_zero, resolution_zero]
    by_cases hm : (⟨m⟩ : LeafNodeIndex) ∈ excluded <;> cases hleaf : tree.leaf ⟨m⟩ <;>
      simp [keeps, hm]
  | succ k ih =>
    rw [resolution_succ, resolution_succ]
    cases tree.parent (parentAt k m) with
    | some node =>
      dsimp only
      rw [List.filter_cons_of_pos rfl, filter_keeps_unmergedEntries]
    | none =>
      dsimp only
      rw [List.filter_append, ← ih, ← ih]

/-- The private key of an entry is with a leaf. -/
def Covers (entry : TreeNodeIndex × NodeReference K) (j : LeafNodeIndex) : Prop :=
  match entry.2 with
  | .leaf _ => entry.1 = .leaf j
  | .parent node => j.IsBelow entry.1 ∧ j ∉ node.unmergedLeaves

end TreeSync

namespace TreeSync

variable {tree tree' : TreeSync K} {excluded : List LeafNodeIndex} {k m i j : ℕ}
  {entry : TreeNodeIndex × NodeReference K}

/-- What holds of a tree at all times. -/
structure WellFormed (tree : TreeSync K) : Prop where
  leaf_lt : ∀ i node, tree.leaf ⟨i⟩ = some node → i < tree.leafCount
  parent_lt : ∀ k m node, tree.parent (parentAt k m) = some node → k < tree.size.height
  unmerged : ∀ k m node, tree.parent (parentAt k m) = some node → ∀ i ∈ node.unmergedLeaves,
    (tree.leaf i).isSome ∧ i.u32 / 2 ^ (k + 1) = m
  sorted : ∀ k m node, tree.parent (parentAt k m) = some node →
    node.unmergedLeaves.Pairwise (·.u32 < ·.u32)
  /-- There is someone on both sides of a parent node. -/
  both : ∀ k m node, tree.parent (parentAt k m) = some node → ∀ side, side / 2 = m →
    ∃ i, (tree.leaf ⟨i⟩).isSome ∧ i / 2 ^ k = side

theorem mem_unmergedEntries_iff {node : ParentNode K} : entry ∈ tree.unmergedEntries [] node ↔
    ∃ i ∈ node.unmergedLeaves, ∃ leaf, tree.leaf i = some leaf ∧ entry = (.leaf i, .leaf leaf) := by
  simp only [unmergedEntries, List.mem_filterMap, List.not_mem_nil, if_false,
    Option.map_eq_some_iff]
  constructor <;> rintro ⟨i, hi, leaf, hleaf, heq⟩ <;> exact ⟨i, hi, leaf, hleaf, heq.symm⟩

theorem mem_resolution_zero_iff : entry ∈ tree.resolution [] (.new (node 0 m)) ↔
    ∃ leaf, tree.leaf ⟨m⟩ = some leaf ∧ entry = (.leaf ⟨m⟩, .leaf leaf) := by
  rw [resolution_zero, if_neg List.not_mem_nil]
  cases tree.leaf ⟨m⟩ <;> simp

theorem isBelow_parentAt_iff : (LeafNodeIndex.mk j).IsBelow (.parent (parentAt k m)) ↔
    j / 2 ^ (k + 1) = m := by
  rw [← new_node_succ, isBelow_new_node_iff]

theorem div_two_pow_succ_eq_iff :
    j / 2 ^ (k + 1) = m ↔ j / 2 ^ k = 2 * m ∨ j / 2 ^ k = 2 * m + 1 := by
  rw [div_two_pow_succ]
  omega

/-- A resolution covers only leaves below its node. -/
theorem below_of_covers (hwf : tree.WellFormed)
    (hmem : entry ∈ tree.resolution [] (.new (node k m))) (hcovers : Covers entry ⟨j⟩) :
    j / 2 ^ k = m := by
  induction k generalizing m with
  | zero =>
    obtain ⟨leaf, -, rfl⟩ := mem_resolution_zero_iff.mp hmem
    cases hcovers
    rw [pow_zero, Nat.div_one]
  | succ k ih =>
    rw [resolution_succ] at hmem
    cases hparent : tree.parent (parentAt k m) with
    | some node =>
      rw [hparent] at hmem
      rcases List.mem_cons.mp hmem with rfl | hmem
      · exact isBelow_parentAt_iff.mp hcovers.1
      · obtain ⟨i, hi, leaf, -, rfl⟩ := mem_unmergedEntries_iff.mp hmem
        cases hcovers
        exact (hwf.unmerged k m node hparent _ hi).2
    | none =>
      rw [hparent] at hmem
      rw [div_two_pow_succ_eq_iff]
      exact (List.mem_append.mp hmem).imp ih ih

/-- Of a resolution, one entry covers each leaf below the node. -/
theorem existsUnique_covers (hwf : tree.WellFormed) (hleaf : (tree.leaf ⟨j⟩).isSome)
    (hbelow : j / 2 ^ k = m) :
    ∃! entry, entry ∈ tree.resolution [] (.new (node k m)) ∧ Covers entry ⟨j⟩ := by
  obtain ⟨leaf, hleaf⟩ := Option.isSome_iff_exists.mp hleaf
  induction k generalizing m with
  | zero =>
    rw [pow_zero, Nat.div_one] at hbelow
    subst hbelow
    refine ⟨_, ⟨mem_resolution_zero_iff.mpr ⟨leaf, hleaf, rfl⟩, rfl⟩, ?_⟩
    rintro entry ⟨hmem, -⟩
    obtain ⟨leaf', hleaf', rfl⟩ := mem_resolution_zero_iff.mp hmem
    rw [Option.some.inj (hleaf'.symm.trans hleaf)]
  | succ k ih =>
    rw [resolution_succ]
    cases hparent : tree.parent (parentAt k m) with
    | some node =>
      dsimp only
      by_cases hunmerged : ⟨j⟩ ∈ node.unmergedLeaves
      · refine ⟨_, ⟨List.mem_cons_of_mem _ (mem_unmergedEntries_iff.mpr
          ⟨⟨j⟩, hunmerged, leaf, hleaf, rfl⟩), rfl⟩, ?_⟩
        rintro entry ⟨hmem, hcovers⟩
        rcases List.mem_cons.mp hmem with rfl | hmem
        · exact absurd hunmerged hcovers.2
        · obtain ⟨i, -, leaf', hleaf', rfl⟩ := mem_unmergedEntries_iff.mp hmem
          cases hcovers
          rw [Option.some.inj (hleaf'.symm.trans hleaf)]
      · refine ⟨_, ⟨List.mem_cons_self, isBelow_parentAt_iff.mpr hbelow, hunmerged⟩, ?_⟩
        rintro entry ⟨hmem, hcovers⟩
        rcases List.mem_cons.mp hmem with rfl | hmem
        · rfl
        · obtain ⟨i, hi, leaf', -, rfl⟩ := mem_unmergedEntries_iff.mp hmem
          cases hcovers
          exact absurd hi hunmerged
    | none =>
      dsimp only
      -- one child has the leaf below it
      have hother : ∀ side, j / 2 ^ k ≠ side → ∀ entry ∈ tree.resolution [] (.new (node k side)),
          ¬ Covers entry ⟨j⟩ :=
        fun side hne entry hmem hcovers => hne (below_of_covers hwf hmem hcovers)
      rcases div_two_pow_succ_eq_iff.mp hbelow with hside | hside
      · obtain ⟨entry, ⟨hmem, hcovers⟩, honly⟩ := ih hside
        refine ⟨entry, ⟨List.mem_append_left _ hmem, hcovers⟩, ?_⟩
        rintro entry' ⟨hmem', hcovers'⟩
        rcases List.mem_append.mp hmem' with hmem' | hmem'
        · exact honly _ ⟨hmem', hcovers'⟩
        · exact absurd hcovers' (hother _ (by omega) _ hmem')
      · obtain ⟨entry, ⟨hmem, hcovers⟩, honly⟩ := ih hside
        refine ⟨entry, ⟨List.mem_append_right _ hmem, hcovers⟩, ?_⟩
        rintro entry' ⟨hmem', hcovers'⟩
        rcases List.mem_append.mp hmem' with hmem' | hmem'
        · exact absurd hcovers' (hother _ (by omega) _ hmem')
        · exact honly _ ⟨hmem', hcovers'⟩

/-- A resolution is empty where all leaves below are blank. -/
theorem resolution_ne_nil_iff (hwf : tree.WellFormed) :
    tree.resolution [] (.new (node k m)) ≠ [] ↔ ∃ j, (tree.leaf ⟨j⟩).isSome ∧ j / 2 ^ k = m := by
  constructor
  · intro hne
    induction k generalizing m with
    | zero =>
      obtain ⟨entry, hmem⟩ := List.exists_mem_of_ne_nil _ hne
      obtain ⟨leaf, hleaf, -⟩ := mem_resolution_zero_iff.mp hmem
      exact ⟨m, by rw [hleaf]; rfl, by rw [pow_zero, Nat.div_one]⟩
    | succ k ih =>
      rw [resolution_succ] at hne
      cases hparent : tree.parent (parentAt k m) with
      | some node =>
        obtain ⟨j, hleaf, hj⟩ := hwf.both k m node hparent (2 * m) (by omega)
        exact ⟨j, hleaf, div_two_pow_succ_eq_iff.mpr (.inl hj)⟩
      | none =>
        rw [hparent] at hne
        rcases not_and_or.mp (mt List.append_eq_nil_iff.mpr hne) with hne | hne
        · obtain ⟨j, hleaf, hj⟩ := ih hne
          exact ⟨j, hleaf, div_two_pow_succ_eq_iff.mpr (.inl hj)⟩
        · obtain ⟨j, hleaf, hj⟩ := ih hne
          exact ⟨j, hleaf, div_two_pow_succ_eq_iff.mpr (.inr hj)⟩
  · rintro ⟨j, hleaf, hbelow⟩
    obtain ⟨entry, ⟨hmem, -⟩, -⟩ := existsUnique_covers hwf hleaf hbelow
    exact List.ne_nil_of_mem hmem

/-- Trees that differ at most in a leaf and above it. -/
structure AgreeOff (i : ℕ) (tree tree' : TreeSync K) : Prop where
  size : tree'.size = tree.size
  leaf : ∀ j ≠ i, tree'.leaf ⟨j⟩ = tree.leaf ⟨j⟩
  parent : ∀ k m, i / 2 ^ (k + 1) ≠ m → tree'.parent (parentAt k m) = tree.parent (parentAt k m)

/-- A resolution does not depend on the nodes above a leaf that is not below it. -/
theorem AgreeOff.resolution_eq (h : AgreeOff i tree tree') (hwf : tree.WellFormed)
    (hoff : i / 2 ^ k ≠ m) :
    tree'.resolution excluded (.new (node k m)) = tree.resolution excluded (.new (node k m)) := by
  induction k generalizing m with
  | zero =>
    rw [pow_zero, Nat.div_one] at hoff
    rw [resolution_zero, resolution_zero, h.leaf m hoff.symm]
  | succ k ih =>
    rw [resolution_succ, resolution_succ, h.parent k m hoff]
    cases hparent : tree.parent (parentAt k m) with
    | some node =>
      dsimp only
      congr 1
      refine List.filterMap_congr fun j hj => ?_
      have hne : j.u32 ≠ i := fun heq => hoff (heq ▸ (hwf.unmerged k m node hparent j hj).2)
      rw [h.leaf j.u32 hne]
    | none =>
      have hchildren := mt div_two_pow_succ_eq_iff.mpr hoff
      rw [not_or] at hchildren
      dsimp only
      rw [ih hchildren.1, ih hchildren.2]

theorem AgreeOff.pathLevels_eq (h : AgreeOff i tree tree') (hwf : tree.WellFormed) :
    tree'.pathLevels i = tree.pathLevels i := by
  rw [pathLevels, pathLevels, h.size]
  refine List.filter_congr fun k _ => ?_
  rw [beside, h.resolution_eq hwf (twin_ne _).symm]

end TreeSync

/-! ### What the operations change -/

namespace TreeSync

variable {tree tree' : TreeSync K} {k m i j : ℕ}

/-- A leaf and the nodes above it are given, and the rest is as it was. -/
structure Rewritten (i : ℕ) (new : Option (LeafNode K)) (nodes : ℕ → Option (ParentNode K))
    (tree tree' : TreeSync K) : Prop extends AgreeOff i tree tree' where
  leaf_self : tree'.leaf ⟨i⟩ = new
  parent_above : ∀ k, tree'.parent (above i k) = nodes k

theorem Rewritten.parent_eq {new : Option (LeafNode K)} {nodes : ℕ → Option (ParentNode K)}
    (h : Rewritten i new nodes tree tree') (k m : ℕ) : tree'.parent (parentAt k m) =
      if i / 2 ^ (k + 1) = m then nodes k else tree.parent (parentAt k m) := by
  split_ifs with hon
  · subst hon
    exact h.parent_above k
  · exact h.parent k m hon

/-- Someone other than the leaf is below the other side of each of its nodes. -/
theorem WellFormed.rewritten {new : Option (LeafNode K)} {nodes : ℕ → Option (ParentNode K)}
    (hwf : tree.WellFormed) (h : Rewritten i new nodes tree tree') (hi : i < tree.leafCount)
    (hpath : ∀ k node, nodes k = some node → k < tree.size.height ∧ new.isSome ∧
      node.unmergedLeaves.Pairwise (·.u32 < ·.u32) ∧
      (∀ u ∈ node.unmergedLeaves, (u = ⟨i⟩ ∨ (tree.leaf u).isSome) ∧
        u.u32 / 2 ^ (k + 1) = i / 2 ^ (k + 1)) ∧
      ∃ j, (tree.leaf ⟨j⟩).isSome ∧ j / 2 ^ k = twin (i / 2 ^ k)) :
    tree'.WellFormed := by
  have hcount : tree'.leafCount = tree.leafCount := by
    rw [leafCount, h.size, leafCount]
  -- a leaf is blank afterwards only if it is the rewritten one and nothing new is put there
  have hkept : ∀ j, (tree.leaf ⟨j⟩).isSome → j ≠ i ∨ new.isSome → (tree'.leaf ⟨j⟩).isSome := by
    intro j hj hor
    by_cases hne : j = i
    · rw [hne, h.leaf_self]
      exact hor.resolve_left (not_not.mpr hne)
    · rwa [h.leaf j hne]
  constructor
  · intro j node hnode
    rw [hcount]
    by_cases hne : j = i
    · rwa [hne]
    · exact hwf.leaf_lt j node ((h.leaf j hne).symm.trans hnode)
  · intro k m node hnode
    rw [h.size]
    rw [h.parent_eq] at hnode
    split_ifs at hnode with hon
    · exact (hpath k node hnode).1
    · exact hwf.parent_lt k m node hnode
  · intro k m node hnode u hu
    rw [h.parent_eq] at hnode
    split_ifs at hnode with hon
    · obtain ⟨-, hsome, -, hunmerged, -⟩ := hpath k node hnode
      obtain ⟨hor, hbelow⟩ := hunmerged u hu
      refine ⟨?_, hbelow.trans hon⟩
      rcases hor with rfl | hleaf'
      · rwa [h.leaf_self]
      · exact hkept u.u32 hleaf' (.inr hsome)
    · obtain ⟨hleaf', hbelow⟩ := hwf.unmerged k m node hnode u hu
      exact ⟨hkept u.u32 hleaf' (.inl fun heq => hon (heq ▸ hbelow)), hbelow⟩
  · intro k m node hnode
    rw [h.parent_eq] at hnode
    split_ifs at hnode with hon
    · exact (hpath k node hnode).2.2.1
    · exact hwf.sorted k m node hnode
  · intro k m node hnode side hside
    rw [h.parent_eq] at hnode
    split_ifs at hnode with hon
    · obtain ⟨-, hsome, -, -, j, hj, hbeside⟩ := hpath k node hnode
      by_cases hown : i / 2 ^ k = side
      · exact ⟨i, by rwa [h.leaf_self], hown⟩
      · refine ⟨j, hkept j hj (.inr hsome), hbeside.trans ?_⟩
        refine (eq_twin_of_div_two_eq ?_ (Ne.symm hown)).symm
        rw [hside, ← hon, div_two_pow_succ]
    · obtain ⟨j, hj, hbelow⟩ := hwf.both k m node hnode side hside
      refine ⟨j, hkept j hj (.inl fun heq => hon ?_), hbelow⟩
      rw [← heq, div_two_pow_succ, hbelow, hside]

theorem foldl_replaceParent_none (ps : List ParentNodeIndex) (tree : TreeSync K) :
    ps.foldl (fun tree p => tree.replaceParent p none) tree =
      { tree with parent := fun q => if q ∈ ps then none else tree.parent q } := by
  induction ps generalizing tree with
  | nil => simp
  | cons p ps ih =>
    rw [List.foldl_cons, ih]
    congr 1
    funext q
    by_cases hq : q = p <;> simp [hq, replaceParent]

theorem parentAt_mem_directPath_iff (hi : i < tree.leafCount) :
    parentAt k m ∈ tree.directPath ⟨i⟩ ↔ k < tree.size.height ∧ i / 2 ^ (k + 1) = m := by
  rw [mem_directPath_iff hi]
  constructor
  · rintro ⟨k', hk', heq⟩
    obtain ⟨rfl, hm⟩ := node_injective (congrArg ParentNodeIndex.u32 heq)
    exact ⟨hk', hm⟩
  · rintro ⟨hk, rfl⟩
    exact ⟨k, hk, rfl⟩

/-- A leaf is replaced, and the nodes above it are blank. -/
theorem rewritten_setDirectPathToBlank (hwf : tree.WellFormed) (hi : i < tree.leafCount)
    (new : Option (LeafNode K)) :
    Rewritten i new (fun _ => none) tree ((tree.replaceLeaf ⟨i⟩ new).setDirectPathToBlank ⟨i⟩) := by
  have hpath : (tree.replaceLeaf ⟨i⟩ new).directPath ⟨i⟩ = tree.directPath ⟨i⟩ := rfl
  rw [setDirectPathToBlank, foldl_replaceParent_none, hpath]
  refine ⟨⟨rfl, ?_, ?_⟩, ?_, ?_⟩
  · intro j hne
    exact Function.update_of_ne (fun heq => hne (congrArg LeafNodeIndex.u32 heq)) _ _
  · intro k m hoff
    exact if_neg fun hmem => hoff ((parentAt_mem_directPath_iff hi).mp hmem).2
  · exact Function.update_self _ _ _
  · intro k
    dsimp only
    split_ifs with hmem
    · rfl
    · refine Option.eq_none_iff_forall_ne_some.mpr fun node hnode => hmem ?_
      exact (parentAt_mem_directPath_iff hi).mpr ⟨hwf.parent_lt k _ node hnode, rfl⟩

theorem WellFormed.updateLeaf (hwf : tree.WellFormed) (hi : i < tree.leafCount)
    (node : LeafNode K) : (tree.updateLeaf node ⟨i⟩).WellFormed :=
  hwf.rewritten (rewritten_setDirectPathToBlank hwf hi _) hi nofun

theorem WellFormed.blankLeaf (hwf : tree.WellFormed) (hi : i < tree.leafCount) :
    (tree.blankLeaf ⟨i⟩).WellFormed :=
  hwf.rewritten (rewritten_setDirectPathToBlank hwf hi _) hi nofun

end TreeSync

namespace TreeSync

variable {tree tree' : TreeSync K} {k m i j : ℕ}

/-! ### Adding leaves -/

/-- A free place is blank. -/
theorem leaf_freeLeafIndex (hwf : tree.WellFormed) : tree.leaf tree.freeLeafIndex = none := by
  rw [freeLeafIndex]
  split
  · next entry hfind =>
    obtain ⟨i, -, rfl⟩ := List.mem_map.mp (List.mem_of_find?_eq_some hfind)
    have hnone := List.find?_some hfind
    exact Option.isNone_iff_eq_none.mp hnone
  · refine Option.eq_none_iff_forall_ne_some.mpr fun node hnode => ?_
    exact absurd (hwf.leaf_lt _ _ hnode) (lt_irrefl _)

/-- A tree of more levels with the same nodes. -/
theorem WellFormed.grow (hwf : tree.WellFormed) {size : TreeSize}
    (hle : tree.size.height ≤ size.height) :
    ({ tree with size := size } : TreeSync K).WellFormed where
  leaf_lt i node hnode := by
    have hlt := hwf.leaf_lt i node hnode
    rw [leafCount_eq] at hlt ⊢
    exact hlt.trans_le (Nat.pow_le_pow_right two_pos hle)
  parent_lt k m node hnode := (hwf.parent_lt k m node hnode).trans_le hle
  unmerged := hwf.unmerged
  sorted := hwf.sorted
  both := hwf.both

theorem height_inc (size : TreeSize) (hmax : size.u32 ≤ maxTreeSize / 2) :
    (size.inc hmax).height = size.height + 1 := by
  have hu32 := size.u32_eq
  have hinc := (size.inc hmax).u32_eq
  have hpos : 0 < 2 ^ size.height := Nat.two_pow_pos _
  have hsucc : 2 ^ (size.height + 1 + 1) = 2 ^ (size.height + 1) * 2 := pow_succ 2 _
  have hsucc' : 2 ^ (size.height + 1) = 2 ^ size.height * 2 := pow_succ 2 _
  have hval : (size.inc hmax).u32 = size.u32 * 2 + 1 := rfl
  have hpow : 2 ^ ((size.inc hmax).height + 1) = 2 ^ (size.height + 1 + 1) := by
    have := Nat.two_pow_pos ((size.inc hmax).height + 1)
    omega
  have := Nat.pow_right_injective le_rfl hpow
  omega

/-- A tree grows until it has a leaf, and keeps its nodes. -/
theorem growUntil_eq_some {leaf : LeafNodeIndex} {fuel : ℕ}
    (h : growUntil leaf fuel tree = some tree') :
    leaf.u32 < tree'.leafCount ∧ ∃ size : TreeSize, tree.size.height ≤ size.height ∧
      tree' = { tree with size := size } := by
  induction fuel generalizing tree with
  | zero => cases h
  | succ fuel ih =>
    rw [growUntil] at h
    split_ifs at h with hlt
    · obtain rfl := Option.some.inj h
      exact ⟨hlt, tree.size, le_rfl, rfl⟩
    · obtain ⟨grown, hgrow, hrest⟩ := Option.bind_eq_some_iff.mp h
      rw [growTree] at hgrow
      split_ifs at hgrow with hmax
      obtain rfl := Option.some.inj hgrow
      obtain ⟨hleaf, size, hle, rfl⟩ := ih hrest
      refine ⟨hleaf, size, le_trans ?_ hle, rfl⟩
      exact (height_inc _ hmax).symm ▸ Nat.le_succ _

theorem foldl_replaceParent_map {ps : List ParentNodeIndex} (hps : ps.Nodup)
    (f : ParentNode K → ParentNode K) (tree : TreeSync K) :
    ps.foldl (fun tree p => tree.replaceParent p ((tree.parent p).map f)) tree =
      { tree with parent := fun q => if q ∈ ps then (tree.parent q).map f else tree.parent q } := by
  induction ps generalizing tree with
  | nil => simp
  | cons p ps ih =>
    obtain ⟨hp, hps⟩ := List.nodup_cons.mp hps
    rw [List.foldl_cons, ih hps]
    congr 1
    funext q
    by_cases hq : q = p
    · simp [hq, hp, replaceParent]
    · simp [hq, replaceParent]

theorem directPath_nodup (hi : i < tree.leafCount) : (tree.directPath ⟨i⟩).Nodup := by
  rw [directPath_eq hi]
  exact List.nodup_range.map fun _ _ heq => (above_injective heq).1

/-- A new leaf is unmerged in the nodes above it. -/
theorem rewritten_addLeaf (hwf : tree.WellFormed) {node : LeafNode K} {index : LeafNodeIndex}
    (h : tree.addLeaf node = some (index, tree')) :
    tree.leaf index = none ∧ ∃ size : TreeSize, tree.size.height ≤ size.height ∧
      index.u32 < size.leafCount ∧ Rewritten index.u32 (some node)
        (fun k => (tree.parent (above index.u32 k)).map (·.addUnmergedLeaf index))
        { tree with size := size } tree' := by
  obtain ⟨grown, hgrow, hrest⟩ := Option.bind_eq_some_iff.mp h
  obtain ⟨hlt, size, hle, rfl⟩ := growUntil_eq_some hgrow
  obtain ⟨rfl, rfl⟩ := Prod.mk.inj (Option.some.inj hrest)
  have hgrown := hwf.grow hle
  have hpath : directPath ({ tree with size := size }.replaceLeaf tree.freeLeafIndex (some node))
      tree.freeLeafIndex = directPath { tree with size := size } ⟨tree.freeLeafIndex.u32⟩ := rfl
  refine ⟨leaf_freeLeafIndex hwf, size, hle, hlt, ?_⟩
  rw [foldl_replaceParent_map (hpath ▸ directPath_nodup hlt), hpath]
  refine ⟨⟨rfl, ?_, ?_⟩, ?_, ?_⟩
  · intro j hne
    exact Function.update_of_ne (fun heq => hne (congrArg LeafNodeIndex.u32 heq)) _ _
  · intro k m hoff
    exact if_neg fun hmem => hoff ((parentAt_mem_directPath_iff hlt).mp hmem).2
  · exact Function.update_self _ _ _
  · intro k
    dsimp only
    split_ifs with hmem
    · rfl
    · -- a node that is not on the path is above the root
      have hblank : tree.parent (above tree.freeLeafIndex.u32 k) = none := by
        refine Option.eq_none_iff_forall_ne_some.mpr fun node hnode => hmem ?_
        exact (parentAt_mem_directPath_iff hlt).mpr ⟨hgrown.parent_lt k _ node hnode, rfl⟩
      rw [hblank]
      exact hblank

theorem sorted_addUnmergedLeaf {node : ParentNode K} {leaf : LeafNodeIndex}
    (hsorted : node.unmergedLeaves.Pairwise (·.u32 < ·.u32)) (hnew : leaf ∉ node.unmergedLeaves) :
    (node.addUnmergedLeaf leaf).unmergedLeaves.Pairwise (·.u32 < ·.u32) := by
  have : Std.Total fun a b : LeafNodeIndex => a.u32 ≤ b.u32 := ⟨fun a b => le_total a.u32 b.u32⟩
  have : IsTrans LeafNodeIndex fun a b => a.u32 ≤ b.u32 := ⟨fun a b c => le_trans⟩
  have hle := (hsorted.imp le_of_lt).orderedInsert leaf
  have hnodup : (node.addUnmergedLeaf leaf).unmergedLeaves.Nodup := by
    refine (List.perm_orderedInsert _ leaf node.unmergedLeaves).nodup_iff.mpr ?_
    refine List.nodup_cons.mpr ⟨hnew, hsorted.imp fun hlt heq => ?_⟩
    exact absurd (heq ▸ hlt) (lt_irrefl _)
  refine (hle.and hnodup).imp fun ⟨hab, hne⟩ => lt_of_le_of_ne hab fun heq => hne ?_
  exact congrArg LeafNodeIndex.mk heq

theorem WellFormed.addLeaf (hwf : tree.WellFormed) {node : LeafNode K} {index : LeafNodeIndex}
    (h : tree.addLeaf node = some (index, tree')) : tree'.WellFormed := by
  obtain ⟨hblank, size, hle, hlt, hrewritten⟩ := rewritten_addLeaf hwf h
  refine (hwf.grow hle).rewritten hrewritten hlt fun k new hnew => ?_
  obtain ⟨old, hold, rfl⟩ := Option.map_eq_some_iff.mp hnew
  have hnot : index ∉ old.unmergedLeaves := fun hmem => by
    have hsome := (hwf.unmerged k _ old hold index hmem).1
    rw [hblank] at hsome
    exact absurd hsome Bool.false_ne_true
  refine ⟨(hwf.grow hle).parent_lt k _ old hold, rfl,
    sorted_addUnmergedLeaf (hwf.sorted k _ old hold) hnot, ?_, ?_⟩
  · intro u hu
    rcases List.mem_cons.mp ((List.perm_orderedInsert _ _ _).mem_iff.mp hu) with rfl | hu
    · exact ⟨.inl rfl, rfl⟩
    · obtain ⟨hsome, hbelow⟩ := hwf.unmerged k _ old hold u hu
      exact ⟨.inr hsome, hbelow⟩
  · exact hwf.both k _ old hold _ (by rw [twin_div_two, div_two_pow_succ])

end TreeSync

namespace TreeSync

variable {tree tree' : TreeSync K} {k m i j : ℕ}

/-! ### Trimming -/

/-- No leaf after the last full one is full. -/
theorem le_rightmostFullLeaf (hwf : tree.WellFormed) (hleaf : (tree.leaf ⟨i⟩).isSome) :
    i ≤ tree.rightmostFullLeaf.u32 := by
  have hlast : ∀ n i, i < n → (tree.leaf ⟨i⟩).isSome →
      i ≤ (((List.range n).map fun i => (LeafNodeIndex.mk i, tree.leaf ⟨i⟩)).foldl
        (fun index (entry : LeafNodeIndex × Option (LeafNode K)) =>
          if entry.2.isSome then entry.1 else index) ⟨0⟩).u32 := by
    intro n
    induction n with
    | zero => exact nofun
    | succ n ih =>
      intro i hi hleaf
      rw [List.range_succ, List.map_append, List.foldl_append, List.map_singleton,
        List.foldl_cons, List.foldl_nil]
      split_ifs with hfull
      · exact Nat.le_of_lt_succ hi
      · have hne : i ≠ n := fun heq => hfull (heq ▸ hleaf)
        exact ih i (by omega) hleaf
  obtain ⟨node, hnode⟩ := Option.isSome_iff_exists.mp hleaf
  exact hlast tree.leafCount i (hwf.leaf_lt i node hnode) hleaf

theorem height_dec (size : TreeSize) (hmin : 1 < size.u32) :
    size.height = (size.dec hmin).height + 1 := by
  have hu32 := size.u32_eq
  have hdec := (size.dec hmin).u32_eq
  have hpos : 0 < 2 ^ ((size.dec hmin).height + 1) := Nat.two_pow_pos _
  have hpos' : 0 < 2 ^ size.height := Nat.two_pow_pos _
  have hsucc : 2 ^ (size.height + 1) = 2 ^ size.height * 2 := pow_succ 2 _
  have hval : (size.dec hmin).u32 = (size.u32 + 1) / 2 - 1 := rfl
  exact Nat.pow_right_injective le_rfl (by
    change 2 ^ size.height = 2 ^ ((size.dec hmin).height + 1)
    omega)

/-- A parent node is before the last leaf below it. -/
theorem WellFormed.exists_leaf_after (hwf : tree.WellFormed) {full : ParentNode K}
    (hfull : tree.parent (parentAt k m) = some full) :
    ∃ i, (tree.leaf ⟨i⟩).isSome ∧ 2 ^ k ≤ i ∧ (parentAt k m).u32 < i := by
  obtain ⟨i, hleaf, hi⟩ := hwf.both k m full hfull (2 * m + 1) (by omega)
  have hle : (2 * m + 1) * 2 ^ k ≤ i := hi ▸ Nat.div_mul_le_self i (2 ^ k)
  have hpos : 0 < 2 ^ k := Nat.two_pow_pos k
  have hexpand : (2 * m + 1) * 2 ^ k = m * 2 ^ (k + 1) + 2 ^ k := by ring
  refine ⟨i, hleaf, by omega, ?_⟩
  change node k m < i
  rw [node]
  omega

/-- A tree whose right half is blank loses no nodes with it. -/
theorem shrinkTree_eq (hwf : tree.WellFormed) (hmin : 1 < tree.size.u32)
    (hleft : ∀ i, (tree.leaf ⟨i⟩).isSome → i < (tree.size.dec hmin).leafCount) :
    tree.shrinkTree = some { tree with size := tree.size.dec hmin } ∧
      ({ tree with size := tree.size.dec hmin } : TreeSync K).WellFormed := by
  have hcount := (tree.size.dec hmin).leafCount_eq
  have hu32 := (tree.size.dec hmin).u32_eq
  have hpos : 0 < 2 ^ (tree.size.dec hmin).height := Nat.two_pow_pos _
  have hsucc : 2 ^ ((tree.size.dec hmin).height + 1) =
    2 ^ (tree.size.dec hmin).height * 2 := pow_succ 2 _
  constructor
  · rw [shrinkTree, dif_pos hmin, Option.some_inj]
    congr 1
    · funext i
      split_ifs with hi
      · rfl
      · -- the leaves that are cut off were blank
        refine (Option.not_isSome_iff_eq_none.mp fun hsome => hi ?_).symm
        exact hleft i.u32 hsome
    · funext p
      split_ifs with hp
      · rfl
      · -- a parent that is cut off would have a leaf after it, which is not blank
        refine (Option.eq_none_iff_forall_ne_some.mpr fun node hnode => hp ?_).symm
        obtain ⟨k, m, hp'⟩ := exists_node p.u32
        obtain rfl : p = parentAt k m := congrArg ParentNodeIndex.mk hp'.symm
        obtain ⟨i, hleaf, -, hafter⟩ := hwf.exists_leaf_after hnode
        have := hleft i hleaf
        rw [TreeSize.parentCount]
        omega
  · constructor
    · intro i node hnode
      exact hleft i (Option.isSome_iff_exists.mpr ⟨node, hnode⟩)
    · intro k m node hnode
      obtain ⟨i, hleaf, hle, -⟩ := hwf.exists_leaf_after hnode
      have hlt := hle.trans_lt (hleft i hleaf)
      rw [hcount] at hlt
      exact (Nat.pow_lt_pow_iff_right (by decide : 1 < 2)).mp hlt
    · exact hwf.unmerged
    · exact hwf.sorted
    · exact hwf.both

/-- A tree shrinks down to its last full leaf, and keeps its nodes. -/
theorem shrinkWhileLeft_eq {leaf : LeafNodeIndex} (fuel : ℕ) (hwf : tree.WellFormed)
    (hlast : ∀ i, (tree.leaf ⟨i⟩).isSome → i ≤ leaf.u32) :
    ∃ size : TreeSize, shrinkWhileLeft leaf fuel tree = { tree with size := size } ∧
      (shrinkWhileLeft leaf fuel tree).WellFormed := by
  induction fuel generalizing tree with
  | zero => exact ⟨tree.size, rfl, hwf⟩
  | succ fuel ih =>
    rw [shrinkWhileLeft]
    split_ifs with hleft
    · cases hshrink : tree.shrinkTree with
      | none => exact ⟨tree.size, rfl, hwf⟩
      | some shrunk =>
        dsimp only
        have hmin : 1 < tree.size.u32 := by
          rw [TreeSize.leafIsLeft, TreeSize.leafCount] at hleft
          omega
        have hhalf : (tree.size.dec hmin).leafCount = tree.size.leafCount / 2 := by
          rw [TreeSize.leafCount_eq, TreeSize.leafCount_eq, height_dec tree.size hmin, pow_succ,
            Nat.mul_div_cancel _ two_pos]
        obtain ⟨hsome, hwf'⟩ := shrinkTree_eq hwf hmin fun i hi =>
          hhalf ▸ (hlast i hi).trans_lt hleft
        obtain rfl := Option.some.inj (hshrink.symm.trans hsome)
        exact ih hwf' hlast
    · exact ⟨tree.size, rfl, hwf⟩

theorem trimTree_eq (hwf : tree.WellFormed) :
    ∃ size : TreeSize, tree.trimTree = { tree with size := size } ∧ tree.trimTree.WellFormed := by
  rw [trimTree]
  split_ifs with hone
  · exact ⟨tree.size, rfl, hwf⟩
  · exact shrinkWhileLeft_eq 32 hwf fun i hi => le_rightmostFullLeaf hwf hi

/-! ### Update paths -/

/-- New keys are above a leaf where there is someone beside its path, and blanks elsewhere. -/
structure NewPath (i : ℕ) (keys : ℕ → K) (tree tree' : TreeSync K) : Prop
    extends AgreeOff i tree tree' where
  parent_on : ∀ k ∈ tree.pathLevels i, ∃ hash, tree'.parent (above i k) = some ⟨keys k, hash, []⟩
  parent_blank : ∀ k ∉ tree.pathLevels i, tree'.parent (above i k) = none

theorem NewPath.exists_key {keys : ℕ → K} (h : NewPath i keys tree tree') {node : ParentNode K}
    (hnode : tree'.parent (above i k) = some node) :
    k ∈ tree.pathLevels i ∧ node.encryptionKey = keys k ∧ node.unmergedLeaves = [] := by
  by_cases hk : k ∈ tree.pathLevels i
  · obtain ⟨hash, hsome⟩ := h.parent_on k hk
    obtain rfl := Option.some.inj (hsome.symm.trans hnode)
    exact ⟨hk, rfl, rfl⟩
  · exact absurd ((h.parent_blank k hk).symm.trans hnode) nofun

theorem WellFormed.newPath {keys : ℕ → K} (hwf : tree.WellFormed) (h : NewPath i keys tree tree')
    (hi : i < tree.leafCount) (hleaf : (tree'.leaf ⟨i⟩).isSome) : tree'.WellFormed := by
  have hrewritten : Rewritten i (tree'.leaf ⟨i⟩) (fun k => tree'.parent (above i k)) tree tree' :=
    ⟨h.toAgreeOff, rfl, fun _ => rfl⟩
  refine hwf.rewritten hrewritten hi fun k node hnode => ?_
  obtain ⟨hk, -, hunmerged⟩ := h.exists_key hnode
  obtain ⟨hlt, hne⟩ := mem_pathLevels_iff.mp hk
  rw [hunmerged]
  exact ⟨hlt, hleaf, .nil, nofun, (resolution_ne_nil_iff hwf).mp hne⟩

theorem NewPath.replaceLeaf {keys : ℕ → K} (h : NewPath i keys tree tree')
    (node : Option (LeafNode K)) : NewPath i keys tree (tree'.replaceLeaf ⟨i⟩ node) where
  size := h.size
  leaf j hne := by
    refine (Function.update_of_ne (fun heq => hne ?_) _ _).trans (h.leaf j hne)
    exact congrArg LeafNodeIndex.u32 heq
  parent := h.parent
  parent_on := h.parent_on
  parent_blank := h.parent_blank

theorem parent_foldl_of_notMem {path : List (ParentNodeIndex × ParentNode K)}
    {q : ParentNodeIndex} (hq : q ∉ path.map Prod.fst) (tree : TreeSync K) :
    (path.foldl (fun tree entry => tree.replaceParent entry.1 (some entry.2)) tree).parent q =
      tree.parent q := by
  induction path generalizing tree with
  | nil => rfl
  | cons entry path ih =>
    rw [List.map_cons, List.mem_cons, not_or] at hq
    rw [List.foldl_cons, ih hq.2]
    exact Function.update_of_ne hq.1 _ _

theorem parent_foldl_of_mem {path : List (ParentNodeIndex × ParentNode K)}
    {q : ParentNodeIndex} {node : ParentNode K} (hpath : (path.map Prod.fst).Nodup)
    (hmem : (q, node) ∈ path) (tree : TreeSync K) :
    (path.foldl (fun tree entry => tree.replaceParent entry.1 (some entry.2)) tree).parent q =
      some node := by
  induction path generalizing tree with
  | nil => cases hmem
  | cons entry path ih =>
    obtain ⟨hnot, hpath⟩ := List.nodup_cons.mp hpath
    rw [List.foldl_cons]
    rcases List.mem_cons.mp hmem with rfl | hmem
    · rw [parent_foldl_of_notMem hnot]
      exact Function.update_self _ _ _
    · exact ih hpath hmem _

theorem foldl_replaceParent_frame (path : List (ParentNodeIndex × ParentNode K))
    (tree : TreeSync K) :
    let written := path.foldl (fun tree entry => tree.replaceParent entry.1 (some entry.2)) tree
    written.size = tree.size ∧ written.leaf = tree.leaf := by
  induction path generalizing tree with
  | nil => exact ⟨rfl, rfl⟩
  | cons entry path ih => exact ih (tree.replaceParent entry.1 (some entry.2))

section Hashes

variable [TreeHashes K]

/-- Parent hashes change nothing else. -/
theorem chainParentHashes_map (levels : List ℕ) (keys : ℕ → K) {siblingHashes : List Bytes}
    (hlength : siblingHashes.length = levels.length) :
    ∃ hashAt : List Bytes, hashAt.length = levels.length ∧
      (chainParentHashes (levels.map fun k => (above i k, ParentNode.ofKey (keys k)))
        siblingHashes).1 = (levels.zip hashAt).map fun entry =>
          (above i entry.1, ⟨keys entry.1, entry.2, []⟩) := by
  induction levels generalizing siblingHashes with
  | nil => exact ⟨[], rfl, by rw [List.map_nil, chainParentHashes]; rfl; exact nofun⟩
  | cons k levels ih =>
    obtain ⟨siblingHash, siblingHashes, rfl⟩ := List.exists_cons_of_length_eq_add_one hlength
    obtain ⟨hashAt, hlen, hrest⟩ := ih (Nat.succ.inj hlength)
    rw [List.map_cons, chainParentHashes]
    dsimp only
    rw [hrest]
    exact ⟨_ :: hashAt, congrArg (· + 1) hlen, rfl⟩

/-- A path of new keys is put above a leaf. -/
theorem processUpdatePath_newPath (hwf : tree.WellFormed) (hi : i < tree.leafCount)
    (keys : ℕ → K) : ∃ tree' parentHash,
      tree.processUpdatePath ⟨i⟩
        ((tree.pathLevels i).map fun k => (above i k, ParentNode.ofKey (keys k))) =
          some (tree', parentHash) ∧
      NewPath i keys tree tree' ∧ tree'.leaf = tree.leaf := by
  have hset : ∃ siblingHashes : List Bytes, siblingHashes.length = (tree.pathLevels i).length ∧
      tree.setParentHashes ⟨i⟩
        ((tree.pathLevels i).map fun k => (above i k, ParentNode.ofKey (keys k))) =
          some (chainParentHashes
            ((tree.pathLevels i).map fun k => (above i k, ParentNode.ofKey (keys k)))
            siblingHashes) := by
    rw [setParentHashes, filteredCopath_eq hi]
    cases hlevels : tree.pathLevels i with
    | nil => exact ⟨[], rfl, by rw [List.map_nil, chainParentHashes]; rfl; exact nofun⟩
    | cons k levels =>
      refine ⟨_, ?_, by rw [if_neg (by simp), if_neg (by simp)]⟩
      simp
  obtain ⟨siblingHashes, hlength, hset⟩ := hset
  -- which hash a node gets does not matter here, only that the chain has one for each
  obtain ⟨hashAt, hlen, hchain⟩ := chainParentHashes_map (i := i) (tree.pathLevels i) keys hlength
  have hkeys : ((((tree.pathLevels i).zip hashAt).map fun entry =>
      (above i entry.1, (⟨keys entry.1, entry.2, []⟩ : ParentNode K))).map Prod.fst) =
      (tree.pathLevels i).map (above i) := by
    rw [List.map_map]
    change ((tree.pathLevels i).zip hashAt).map (above i ∘ Prod.fst) = _
    rw [← List.map_map, List.map_fst_zip hlen.ge]
  have hlevels : (tree.pathLevels i).Nodup := pathLevels_sorted.imp ne_of_lt
  have hnodup : ((tree.pathLevels i).map (above i)).Nodup :=
    hlevels.map fun _ _ heq => (above_injective heq).1
  have hblank := foldl_replaceParent_none (tree.directPath ⟨i⟩) tree
  rw [← setDirectPathToBlank] at hblank
  -- the direct path is blanked, and then the filtered one is written over it
  refine ⟨_, _, by rw [processUpdatePath, hset]; rfl, ?_, ?_⟩
  · rw [hchain, hblank]
    refine ⟨⟨?_, ?_, ?_⟩, ?_, ?_⟩
    · exact (foldl_replaceParent_frame _ _).1
    · exact fun j _ => congrFun (foldl_replaceParent_frame _ _).2 ⟨j⟩
    · intro k m hoff
      rw [parent_foldl_of_notMem]
      · exact if_neg fun hmem => hoff ((parentAt_mem_directPath_iff hi).mp hmem).2
      · rw [hkeys]
        intro hmem
        obtain ⟨k', -, heq⟩ := List.mem_map.mp hmem
        obtain ⟨rfl, hm⟩ := node_injective (congrArg ParentNodeIndex.u32 heq)
        exact hoff hm
    · intro k hk
      obtain ⟨n, hn, hget⟩ := List.getElem_of_mem hk
      have hn' : n < hashAt.length := hlen ▸ hn
      refine ⟨hashAt[n], parent_foldl_of_mem (hkeys.symm ▸ hnodup) ?_ _⟩
      refine List.mem_map.mpr ⟨(k, hashAt[n]), ?_, rfl⟩
      have hzip : n < ((tree.pathLevels i).zip hashAt).length := by
        rw [List.length_zip]
        exact lt_min hn hn'
      have hentry : ((tree.pathLevels i).zip hashAt)[n] = (k, hashAt[n]) := by
        rw [List.getElem_zip, hget]
      exact hentry ▸ List.getElem_mem hzip
    · intro k hk
      rw [parent_foldl_of_notMem]
      · dsimp only
        split_ifs with hmem
        · rfl
        · refine Option.eq_none_iff_forall_ne_some.mpr fun node hnode => hmem ?_
          exact (parentAt_mem_directPath_iff hi).mpr ⟨hwf.parent_lt k _ node hnode, rfl⟩
      · rw [hkeys]
        intro hmem
        obtain ⟨k', hk', heq⟩ := List.mem_map.mp hmem
        exact hk ((above_injective heq).1 ▸ hk')
  · rw [(foldl_replaceParent_frame _ _).2, hblank]

end Hashes

end TreeSync

end SafeHub
