import Mathlib.Data.List.TakeWhile
import SafeHub.Lib.CompleteTree

/-!
# Tree math of the group's secret tree

The members of a group are the leaves of a full binary tree, and the nodes of the tree are numbered
from left to right. Parents, children, direct paths and copaths are computed from these numbers by
bit operations.

## Main definitions

* `LeafNodeIndex`, `ParentNodeIndex`, `TreeNodeIndex`, `TreeSize` — the numbers of nodes
* `left`, `right`, `parent`, `sibling` — neighbours
* `directPath`, `copath` — the nodes above a leaf, and those beside them
* `lowestCommonAncestor`, `commonDirectPath` — where two direct paths meet

## Main results

* `directPath_eq` — the direct path has the node of each level above the leaf
* `copath_covers` — every other leaf is below exactly one node of the copath
* `commonDirectPath_eq` — the common direct path is the direct path from the common ancestor on
-/

namespace SafeHub

open CompleteTree

/-- The number of a leaf, counted among the leaves. -/
structure LeafNodeIndex where
  u32 : ℕ
  deriving DecidableEq, Repr

/-- The number of a parent node, counted among the parent nodes. -/
structure ParentNodeIndex where
  u32 : ℕ
  deriving DecidableEq, Repr

/-- The number of a node, leaf or parent. -/
inductive TreeNodeIndex
  | leaf (index : LeafNodeIndex)
  | parent (index : ParentNodeIndex)
  deriving DecidableEq, Repr

def LeafNodeIndex.toTreeIndex (index : LeafNodeIndex) : ℕ := index.u32 * 2

def LeafNodeIndex.fromTreeIndex (nodeIndex : ℕ) : LeafNodeIndex := ⟨nodeIndex / 2⟩

def ParentNodeIndex.toTreeIndex (index : ParentNodeIndex) : ℕ := index.u32 * 2 + 1

def ParentNodeIndex.fromTreeIndex (nodeIndex : ℕ) : ParentNodeIndex := ⟨(nodeIndex - 1) / 2⟩

/-- The node with a number among all nodes. -/
def TreeNodeIndex.new (index : ℕ) : TreeNodeIndex :=
  if index % 2 = 0 then .leaf (.fromTreeIndex index) else .parent (.fromTreeIndex index)

def TreeNodeIndex.u32 : TreeNodeIndex → ℕ
  | .leaf index => index.toTreeIndex
  | .parent index => index.toTreeIndex

/-- The number of nodes of a full tree. -/
structure TreeSize where
  u32 : ℕ
  full : ∃ h < 31, u32 = 2 ^ (h + 1) - 1

namespace TreeSize

/-- The smallest full tree with at least so many nodes. -/
def new (nodes : ℕ) (hnodes : nodes < 2 ^ 31) : TreeSize :=
  ⟨2 ^ (nodes.log2 + 1) - 1, nodes.log2, by
    rcases nodes.eq_zero_or_pos with rfl | hpos
    · decide
    · exact (Nat.log2_lt hpos.ne').mpr hnodes, rfl⟩

def leafCount (size : TreeSize) : ℕ := size.u32 / 2 + 1

/-- The level of the root. -/
def height (size : TreeSize) : ℕ := size.u32.log2

theorem exists_eq_mk (size : TreeSize) :
    ∃ h, h < 31 ∧ size.u32 = 2 ^ (h + 1) - 1 ∧ size.height = h ∧ size.leafCount = 2 ^ h := by
  obtain ⟨h, hlt, hu32⟩ := size.full
  have hpos : 0 < 2 ^ h := Nat.two_pow_pos h
  have hsucc : 2 ^ (h + 1) = 2 ^ h * 2 := pow_succ 2 h
  refine ⟨h, hlt, hu32, ?_, ?_⟩
  · rw [height, hu32, Nat.log2_eq_iff (by omega)]
    omega
  · rw [leafCount, hu32]
    omega

theorem height_lt (size : TreeSize) : size.height < 31 := by
  obtain ⟨h, hlt, -, hheight, -⟩ := size.exists_eq_mk
  rwa [hheight]

theorem u32_eq (size : TreeSize) : size.u32 = 2 ^ (size.height + 1) - 1 := by
  obtain ⟨h, -, hu32, hheight, -⟩ := size.exists_eq_mk
  rwa [hheight]

theorem leafCount_eq (size : TreeSize) : size.leafCount = 2 ^ size.height := by
  obtain ⟨h, -, -, hheight, hcount⟩ := size.exists_eq_mk
  rwa [hheight]

end TreeSize

/-! ### Neighbours -/

/-- The level of a node. -/
def level (index : ℕ) : ℕ := trailingOnes index

def root (size : TreeSize) : TreeNodeIndex := .new (2 ^ size.u32.log2 - 1)

def left (index : ParentNodeIndex) : TreeNodeIndex :=
  let x := index.toTreeIndex
  let k := level x
  .new (x ^^^ (1 <<< (k - 1)))

def right (index : ParentNodeIndex) : TreeNodeIndex :=
  let x := index.toTreeIndex
  let k := level x
  .new (x ^^^ (3 <<< (k - 1)))

/-- The parent of a node, without regard to the size of the tree. -/
def parent (x : TreeNodeIndex) : ParentNodeIndex :=
  let x := x.u32
  let k := level x
  let b := (x >>> (k + 1)) &&& 1
  .fromTreeIndex ((x ||| (1 <<< k)) ^^^ (b <<< (k + 1)))

def sibling (index : TreeNodeIndex) : TreeNodeIndex :=
  let p := parent index
  if index.u32 < p.toTreeIndex then right p else left p

/-! ### Paths -/

/-- The nodes above a node, up to the root. Each step goes up a level, and a 32-bit number has no
more levels than bits. -/
def climbTo (r : ℕ) : ℕ → ℕ → Option (List ParentNodeIndex)
  | 0, x => if x = r then some [] else none
  | fuel + 1, x =>
    if x = r then some []
    else
      let p := parent (.new x)
      (climbTo r fuel p.toTreeIndex).map (p :: ·)

/-- The nodes from a leaf to the root, without the leaf. -/
def directPath (nodeIndex : LeafNodeIndex) (size : TreeSize) : Option (List ParentNodeIndex) :=
  climbTo (root size).u32 32 nodeIndex.toTreeIndex

/-- The siblings of the leaf and of its direct path without the root. -/
def copath (leafIndex : LeafNodeIndex) (size : TreeSize) : Option (List TreeNodeIndex) :=
  (directPath leafIndex size).map fun path =>
    (TreeNodeIndex.leaf leafIndex :: path.dropLast.map TreeNodeIndex.parent).map sibling

/-- Shift two numbers until they are equal; the number of shifts. -/
def meetAt : ℕ → ℕ → ℕ → ℕ × ℕ
  | x, y, k =>
    if x = y then (x, k) else meetAt (x / 2) (y / 2) (k + 1)
termination_by x y => x + y
decreasing_by omega

/-- The node at which the direct paths of two leaves meet. -/
def lowestCommonAncestor (x y : LeafNodeIndex) : ParentNodeIndex :=
  let x := x.toTreeIndex
  let y := y.toTreeIndex
  let lx := level x + 1
  let ly := level y + 1
  if lx ≤ ly ∧ x >>> ly = y >>> ly then .fromTreeIndex y
  else if ly ≤ lx ∧ x >>> lx = y >>> lx then .fromTreeIndex x
  else
    let (xn, k) := meetAt x y 0
    .fromTreeIndex ((xn <<< k) + (1 <<< (k - 1)) - 1)

/-- The common front of two lists. -/
def commonFront : List ParentNodeIndex → List ParentNodeIndex → List ParentNodeIndex
  | x :: xs, y :: ys => if x = y then x :: commonFront xs ys else []
  | _, _ => []

/-- The nodes from the common ancestor of two leaves to the root. -/
def commonDirectPath (x y : LeafNodeIndex) (size : TreeSize) : Option (List ParentNodeIndex) := do
  let xPath ← directPath x size
  let yPath ← directPath y size
  return (commonFront xPath.reverse yPath.reverse).reverse

/-! ### Neighbours by level and place -/

section Nodes

variable {k m i j : ℕ} {size : TreeSize}

theorem TreeNodeIndex.u32_new (x : ℕ) : (TreeNodeIndex.new x).u32 = x := by
  rw [TreeNodeIndex.new]
  split_ifs with heven
  · exact Nat.div_mul_cancel (Nat.dvd_of_mod_eq_zero heven)
  · change (x - 1) / 2 * 2 + 1 = x
    omega

theorem TreeNodeIndex.new_u32 (n : TreeNodeIndex) : TreeNodeIndex.new n.u32 = n := by
  rw [TreeNodeIndex.new]
  cases n with
  | leaf index =>
    rw [TreeNodeIndex.u32, LeafNodeIndex.toTreeIndex, if_pos (by omega),
      LeafNodeIndex.fromTreeIndex, Nat.mul_div_cancel _ two_pos]
  | parent index =>
    rw [TreeNodeIndex.u32, ParentNodeIndex.toTreeIndex, if_neg (by omega),
      ParentNodeIndex.fromTreeIndex, Nat.add_sub_cancel, Nat.mul_div_cancel _ two_pos]

/-- The parent node at a place of the level above the given one. -/
def parentAt (k m : ℕ) : ParentNodeIndex := ⟨node k m⟩

theorem toTreeIndex_parentAt : (parentAt k m).toTreeIndex = node (k + 1) m := by
  rw [parentAt, ParentNodeIndex.toTreeIndex, node_succ, mul_comm]

theorem fromTreeIndex_node_succ :
    ParentNodeIndex.fromTreeIndex (node (k + 1) m) = parentAt k m := by
  rw [ParentNodeIndex.fromTreeIndex, node_succ, parentAt, Nat.add_sub_cancel,
    Nat.mul_div_cancel_left _ two_pos]

theorem new_node_zero : TreeNodeIndex.new (node 0 m) = .leaf ⟨m⟩ := by
  rw [TreeNodeIndex.new, node_zero, if_pos (Nat.mul_mod_right 2 m), LeafNodeIndex.fromTreeIndex,
    Nat.mul_div_cancel_left _ two_pos]

theorem new_node_succ : TreeNodeIndex.new (node (k + 1) m) = .parent (parentAt k m) := by
  rw [TreeNodeIndex.new, if_neg, fromTreeIndex_node_succ]
  rw [node_succ]
  omega

theorem left_parentAt : left (parentAt k m) = .new (node k (2 * m)) := by
  rw [left, toTreeIndex_parentAt, level, trailingOnes_node, Nat.add_sub_cancel, Nat.one_shiftLeft,
    xor_left]

theorem right_parentAt : right (parentAt k m) = .new (node k (2 * m + 1)) := by
  rw [right, toTreeIndex_parentAt, level, trailingOnes_node, Nat.add_sub_cancel, Nat.shiftLeft_eq,
    xor_right]

theorem node_shiftRight (k m : ℕ) : node k m >>> (k + 1) = m := by
  have hpos : 0 < 2 ^ k := Nat.two_pow_pos k
  have hsucc : 2 ^ (k + 1) = 2 ^ k * 2 := pow_succ 2 k
  rw [Nat.shiftRight_eq_div_pow, node, mul_comm, Nat.mul_add_div (by omega),
    Nat.div_eq_of_lt (by omega), add_zero]

theorem parent_new_node : parent (.new (node k m)) = parentAt k (m / 2) := by
  rw [parent, TreeNodeIndex.u32_new, level, trailingOnes_node, node_shiftRight, Nat.and_one_is_mod,
    Nat.one_shiftLeft, Nat.shiftLeft_eq, xor_parent, fromTreeIndex_node_succ]

theorem sibling_new_node : sibling (.new (node k m)) = .new (node k (twin m)) := by
  have hpos : 0 < 2 ^ k := Nat.two_pow_pos k
  have hsucc : 2 ^ (k + 1) = 2 * 2 ^ k := pow_succ' 2 k
  rw [sibling, parent_new_node, TreeNodeIndex.u32_new, toTreeIndex_parentAt, right_parentAt,
    left_parentAt, node_succ, twin]
  rcases Nat.even_or_odd' m with ⟨q, rfl | rfl⟩
  · rw [Nat.mul_div_cancel_left _ two_pos, if_pos (Nat.mul_mod_right 2 q), if_pos]
    rw [node, node, hsucc]
    have hmul : 2 * (q * (2 * 2 ^ k)) = 2 * q * (2 * 2 ^ k) := by ring
    omega
  · rw [show (2 * q + 1) / 2 = q by omega, if_neg (show ¬ (2 * q + 1) % 2 = 0 by omega), if_neg,
      Nat.add_sub_cancel]
    rw [node, node, hsucc, Nat.add_mul]
    have hmul : 2 * (q * (2 * 2 ^ k)) = 2 * q * (2 * 2 ^ k) := by ring
    omega

theorem u32_root (size : TreeSize) : (root size).u32 = node size.height 0 := by
  rw [root, TreeNodeIndex.u32_new, node, zero_mul, zero_add, TreeSize.height]

/-! ### The direct path -/

/-- The node above a leaf, one level higher than the given one. -/
def above (i k : ℕ) : ParentNodeIndex := parentAt k (i / 2 ^ (k + 1))

theorem above_injective {i' k' : ℕ} (heq : above i k = above i' k') :
    k = k' ∧ i / 2 ^ (k + 1) = i' / 2 ^ (k' + 1) :=
  node_injective (congrArg ParentNodeIndex.u32 heq)

/-- Climbing from the node above a leaf at one level up to another. -/
theorem climbTo_node (n fuel : ℕ) (hfuel : n ≤ fuel) (htop : i / 2 ^ (k + n) = 0) :
    climbTo (node (k + n) 0) fuel (node k (i / 2 ^ k)) =
      some ((List.range' k n).map (above i)) := by
  induction n generalizing k fuel with
  | zero =>
    rw [add_zero] at htop
    cases fuel <;> rw [climbTo, htop, add_zero, if_pos rfl] <;> rfl
  | succ n ih =>
    obtain ⟨fuel, rfl⟩ := Nat.exists_eq_add_of_le' (Nat.le_of_add_left_le hfuel)
    rw [climbTo, if_neg fun heq => by have := (node_injective heq).1; omega]
    dsimp only
    rw [parent_new_node, ← div_two_pow_succ, toTreeIndex_parentAt,
      show k + (n + 1) = k + 1 + n by omega,
      ih fuel (Nat.le_of_succ_le_succ hfuel) (by rwa [show k + 1 + n = k + (n + 1) by omega])]
    rfl

theorem toTreeIndex_leaf (i : ℕ) : (LeafNodeIndex.mk i).toTreeIndex = node 0 i := by
  rw [LeafNodeIndex.toTreeIndex, node_zero, mul_comm]

/-- The direct path has the node of each level above the leaf, up to the root. -/
theorem directPath_eq (hi : i < size.leafCount) :
    directPath ⟨i⟩ size = some ((List.range size.height).map (above i)) := by
  rw [size.leafCount_eq] at hi
  have hclimb := @climbTo_node 0 i size.height 32 (size.height_lt.le.trans (by decide))
    (by rw [zero_add, Nat.div_eq_of_lt hi])
  rw [zero_add, pow_zero, Nat.div_one] at hclimb
  rw [directPath, u32_root, toTreeIndex_leaf, hclimb, List.range_eq_range']

/-! ### The copath -/

/-- A leaf is below a node, or the node itself. -/
def LeafNodeIndex.IsBelow (leaf : LeafNodeIndex) (n : TreeNodeIndex) : Prop :=
  ∃ k, n.u32 = node k (leaf.u32 / 2 ^ k)

theorem isBelow_new_node_iff : (LeafNodeIndex.mk j).IsBelow (.new (node k m)) ↔ j / 2 ^ k = m := by
  constructor
  · rintro ⟨k', heq⟩
    rw [TreeNodeIndex.u32_new] at heq
    obtain ⟨rfl, rfl⟩ := node_injective heq
    rfl
  · rintro rfl
    exact ⟨k, TreeNodeIndex.u32_new _⟩

theorem range_succ_dropLast (h : ℕ) : (List.range (h + 1)).dropLast = List.range h := by
  rw [List.range_succ, List.dropLast_concat]

/-- The copath has the twin of each level below the root. In a tree of one leaf it has the
sibling of this leaf, which is not in the tree. -/
theorem copath_eq (hi : i < size.leafCount) :
    copath ⟨i⟩ size = some ((List.range (max size.height 1)).map fun k =>
      TreeNodeIndex.new (node k (twin (i / 2 ^ k)))) := by
  have hnode : ∀ k, TreeNodeIndex.parent (above i k) = .new (node (k + 1) (i / 2 ^ (k + 1))) :=
    fun k => new_node_succ.symm
  rw [copath, directPath_eq hi, Option.map_some, Option.some_inj]
  cases hheight : size.height with
  | zero => simp [← new_node_zero, sibling_new_node]
  | succ h =>
    rw [← List.map_dropLast, range_succ_dropLast, max_eq_left (Nat.le_add_left 1 h),
      List.range_succ_eq_map, List.map_cons, List.map_cons, pow_zero, Nat.div_one, ← new_node_zero,
      sibling_new_node]
    simp only [List.map_map]
    congr 1
    apply List.map_congr_left
    intro k _
    rw [Function.comp_apply, Function.comp_apply, Function.comp_apply, hnode, sibling_new_node]

/-- Every other leaf of the tree is below exactly one node of the copath, and the leaf itself below
none. -/
theorem copath_covers (hi : i < size.leafCount) :
    ∃ nodes, copath ⟨i⟩ size = some nodes ∧
      (∀ n ∈ nodes, ¬ (LeafNodeIndex.mk i).IsBelow n) ∧
        ∀ j < size.leafCount, j ≠ i → ∃! n, n ∈ nodes ∧ (LeafNodeIndex.mk j).IsBelow n := by
  refine ⟨_, copath_eq hi, ?_, ?_⟩
  · intro n hn hbelow
    obtain ⟨k, -, rfl⟩ := List.mem_map.mp hn
    exact twin_ne _ (isBelow_new_node_iff.mp hbelow).symm
  · intro j hj hne
    rw [size.leafCount_eq] at hi hj
    obtain ⟨k, ⟨hk, hbeside⟩, honly⟩ := existsUnique_beside hi hj hne
    refine ⟨.new (node k (twin (i / 2 ^ k))), ⟨?_, isBelow_new_node_iff.mpr hbeside⟩, ?_⟩
    · exact List.mem_map.mpr ⟨k, List.mem_range.mpr (lt_max_of_lt_left hk), rfl⟩
    · rintro n ⟨hn, hbelow⟩
      obtain ⟨k', hk', rfl⟩ := List.mem_map.mp hn
      have hbeside' : Beside i j k' := isBelow_new_node_iff.mp hbelow
      have hlt : k' < size.height := by
        rcases lt_max_iff.mp (List.mem_range.mp hk') with hlt | hone
        · exact hlt
        · exact (Nat.lt_one_iff.mp hone) ▸ Nat.zero_lt_of_lt hk
      rw [honly k' ⟨hlt, hbeside'⟩]

/-- In a tree of four leaves. -/
theorem copath_covers_four : ∃ nodes, copath ⟨1⟩ (.new 7 (by decide)) = some nodes ∧
    (∀ n ∈ nodes, ¬ (LeafNodeIndex.mk 1).IsBelow n) ∧
      ∀ j < (TreeSize.new 7 (by decide)).leafCount, j ≠ 1 →
        ∃! n, n ∈ nodes ∧ (LeafNodeIndex.mk j).IsBelow n :=
  copath_covers (by decide)

/-! ### Where two direct paths meet -/

/-- The first number of shifts that makes two numbers equal. -/
theorem meetAt_eq {d : ℕ} (x y k : ℕ) (happart : ∀ e < d, x / 2 ^ e ≠ y / 2 ^ e)
    (hmeet : x / 2 ^ d = y / 2 ^ d) : meetAt x y k = (x / 2 ^ d, k + d) := by
  induction d generalizing x y k with
  | zero =>
    rw [pow_zero, Nat.div_one, Nat.div_one] at hmeet
    rw [meetAt, if_pos hmeet, pow_zero, Nat.div_one, add_zero]
  | succ d ih =>
    have hne : x ≠ y := by simpa using happart 0 (Nat.succ_pos d)
    have hhalf : ∀ z e : ℕ, z / 2 / 2 ^ e = z / 2 ^ (e + 1) := fun z e => by
      rw [Nat.div_div_eq_div_mul, ← pow_succ']
    rw [meetAt, if_neg hne, ih (x / 2) (y / 2) (k + 1), hhalf, add_assoc, add_comm 1 d]
    · intro e he
      rw [hhalf, hhalf]
      exact happart (e + 1) (Nat.succ_lt_succ he)
    · rw [hhalf, hhalf]
      exact hmeet

/-- The node above both leaves, one level higher than the last at which their paths are apart. -/
theorem lowestCommonAncestor_eq {d : ℕ} (hmeet : ∀ k, i / 2 ^ k = j / 2 ^ k ↔ d < k) :
    lowestCommonAncestor ⟨i⟩ ⟨j⟩ = above i d := by
  have hne : i ≠ j := by simpa using mt (hmeet 0).mp (Nat.not_lt_zero d)
  have hdouble : ∀ z e : ℕ, z * 2 / 2 ^ (e + 1) = z / 2 ^ e := fun z e => by
    rw [pow_succ, Nat.mul_div_mul_right _ _ two_pos]
  have hshifts : meetAt (i * 2) (j * 2) 0 = (i / 2 ^ (d + 1), d + 2) := by
    rw [meetAt_eq (i * 2) (j * 2) 0 (d := d + 2), hdouble, zero_add]
    · intro e he
      cases e with
      | zero =>
        rw [pow_zero, Nat.div_one, Nat.div_one]
        omega
      | succ e =>
        rw [hdouble, hdouble, ne_eq, hmeet]
        omega
    · rw [hdouble, hdouble, hmeet]
      exact Nat.lt_succ_self d
  have hlevel : ∀ z, level (z * 2) = 0 := fun z => by
    rw [level, mul_comm, trailingOnes_two_mul]
  have hleaf : ∀ z, (z * 2) >>> (0 + 1) = z := fun z => by
    rw [Nat.shiftRight_eq_div_pow, zero_add, pow_one, Nat.mul_div_cancel _ two_pos]
  simp only [lowestCommonAncestor, LeafNodeIndex.toTreeIndex, hlevel, hleaf, hne, and_false,
    if_false, hshifts]
  rw [above, ← fromTreeIndex_node_succ, node, Nat.shiftLeft_eq, Nat.one_shiftLeft,
    show d + 2 - 1 = d + 1 by omega, Nat.add_sub_assoc (Nat.one_le_two_pow)]

theorem commonFront_map (f g : ℕ → ParentNodeIndex) (levels : List ℕ) :
    commonFront (levels.map f) (levels.map g) =
      (levels.takeWhile fun k => f k = g k).map f := by
  induction levels with
  | nil => rfl
  | cons k levels ih =>
    rw [List.map_cons, List.map_cons, commonFront, List.takeWhile_cons]
    by_cases heq : f k = g k
    · rw [if_pos heq, if_pos (decide_eq_true heq), List.map_cons, ih]
    · rw [if_neg heq, if_neg (by simpa using heq), List.map_nil]

/-- The part at the end of a list that has a property, when the part before it has not. -/
theorem takeWhile_reverse_append {α : Type*} {p : α → Bool} {front back : List α}
    (hback : ∀ x ∈ back, p x = true) (hfront : ∀ x ∈ front, p x = false) :
    (front ++ back).reverse.takeWhile p = back.reverse := by
  have hstop : front.reverse.takeWhile p = [] := by
    rw [List.eq_nil_iff_forall_not_mem]
    intro x hx
    have hfalse := hfront x (List.mem_reverse.mp ((List.takeWhile_sublist p).mem hx))
    exact Bool.false_ne_true (hfalse.symm.trans (List.mem_takeWhile_imp hx))
  rw [List.reverse_append, List.takeWhile_append_of_pos
    (fun x hx => hback x (List.mem_reverse.mp hx)), hstop, List.append_nil]

/-- The direct paths of two leaves are apart below their common ancestor and the same from there
on, and this is their common direct path. -/
theorem commonDirectPath_eq (hi : i < size.leafCount) (hj : j < size.leafCount) (hne : i ≠ j) :
    ∃ front front' back,
      directPath ⟨i⟩ size = some (front ++ lowestCommonAncestor ⟨i⟩ ⟨j⟩ :: back) ∧
      directPath ⟨j⟩ size = some (front' ++ lowestCommonAncestor ⟨i⟩ ⟨j⟩ :: back) ∧
      commonDirectPath ⟨i⟩ ⟨j⟩ size = some (lowestCommonAncestor ⟨i⟩ ⟨j⟩ :: back) ∧
      front.Disjoint front' := by
  have hi' := size.leafCount_eq ▸ hi
  have hj' := size.leafCount_eq ▸ hj
  obtain ⟨d, hd, hmeet⟩ := exists_meet hi' hj' hne
  have hsame : ∀ k, above i k = above j k ↔ d ≤ k := fun k => by
    rw [← Nat.lt_succ_iff, ← hmeet]
    exact ⟨fun heq => (above_injective heq).2, fun heq => by rw [above, above, heq]⟩
  -- the levels, split where the paths meet
  obtain ⟨n, hn⟩ := Nat.exists_eq_add_of_lt hd
  have hlevels : List.range size.height = List.range d ++ d :: List.range' (d + 1) n := by
    rw [hn, add_assoc, List.range_add, List.range_succ_eq_map]
    simp [List.range'_eq_map_range, Function.comp_def, add_assoc, add_comm 1]
  have hback : (d :: List.range' (d + 1) n).map (above j) =
      (d :: List.range' (d + 1) n).map (above i) := by
    apply List.map_congr_left
    intro k hk
    refine ((hsame k).mpr ?_).symm
    rcases List.mem_cons.mp hk with rfl | hk
    · exact le_rfl
    · exact Nat.le_of_succ_le (List.mem_range'_1.mp hk).1
  have hfront : ∀ k ∈ List.range d, ¬ (above i k = above j k) := fun k hk heq =>
    absurd (List.mem_range.mp hk) (not_lt.mpr ((hsame k).mp heq))
  refine ⟨(List.range d).map (above i), (List.range d).map (above j),
    (List.range' (d + 1) n).map (above i), ?_, ?_, ?_, ?_⟩
  · rw [directPath_eq hi, hlevels, List.map_append, List.map_cons, lowestCommonAncestor_eq hmeet]
  · rw [directPath_eq hj, hlevels, List.map_append, hback, List.map_cons,
      lowestCommonAncestor_eq hmeet]
  · have htake : (List.range size.height).reverse.takeWhile
        (fun k => above i k = above j k) = (d :: List.range' (d + 1) n).reverse := by
      rw [hlevels]
      refine takeWhile_reverse_append (fun k hk => decide_eq_true ((hsame k).mpr ?_))
        fun k hk => decide_eq_false (hfront k hk)
      rcases List.mem_cons.mp hk with rfl | hk
      · exact le_rfl
      · exact Nat.le_of_succ_le (List.mem_range'_1.mp hk).1
    rw [commonDirectPath, directPath_eq hi, directPath_eq hj]
    simp only [Option.bind_eq_bind, Option.bind_some, Option.pure_def, Option.some_inj]
    rw [← List.map_reverse, ← List.map_reverse, commonFront_map, htake, List.map_reverse,
      List.reverse_reverse, List.map_cons, lowestCommonAncestor_eq hmeet]
  · intro n hn hn'
    obtain ⟨k, hk, rfl⟩ := List.mem_map.mp hn
    obtain ⟨k', -, heq⟩ := List.mem_map.mp hn'
    obtain ⟨rfl, -⟩ := above_injective heq
    exact hfront k' hk heq.symm

/-- In a tree of four leaves. -/
theorem commonDirectPath_four : ∃ front front' back,
    directPath ⟨0⟩ (.new 7 (by decide)) = some (front ++ lowestCommonAncestor ⟨0⟩ ⟨3⟩ :: back) ∧
      directPath ⟨3⟩ (.new 7 (by decide)) =
        some (front' ++ lowestCommonAncestor ⟨0⟩ ⟨3⟩ :: back) ∧
      commonDirectPath ⟨0⟩ ⟨3⟩ (.new 7 (by decide)) =
        some (lowestCommonAncestor ⟨0⟩ ⟨3⟩ :: back) ∧
      front.Disjoint front' :=
  commonDirectPath_eq (by decide) (by decide) (by decide)

end Nodes

end SafeHub
