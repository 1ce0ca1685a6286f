import SafeHub.Lib.CommonSubsequence
import SafeHub.SGit.Diff
import Mathlib.Data.List.Infix

/-!
# The matched places are as many as can be

The table of a difference holds, for a rest of either list, the length of a longest common
subsequence of the two rests. It is filled from below, and each row is computed from the one below
it. The walk over the table takes every match it meets, and where there is none it leaves out a
unit that the table says it can spare. Hence it finds as many places as there can be.

## Main definitions

* `lcsLengths` — what a row of the table should hold

## Main results

* `lcsTable_eq` — every row holds it
* `longest_lcsPairs` — no common subsequence is longer than the one that is found
-/

namespace SafeHub.SGit

open CommonSubsequence EditScript

variable {α : Type} {a b as bs : List α} {i j : ℕ} {pairs : List (ℕ × ℕ)}

/-- Matched places are places of a common subsequence, and none is before the given ones. -/
theorem common_of_matches (h : Matches a b i j pairs) :
    Common Eq a b pairs ∧ ∀ p ∈ pairs, i ≤ p.1 ∧ j ≤ p.2 := by
  induction pairs generalizing i j with
  | nil => exact ⟨common_nil, List.forall_mem_nil _⟩
  | cons p pairs ih =>
    obtain ⟨hi, hj, ⟨unit, ha, hb⟩, hrest⟩ := h
    obtain ⟨hcommon, hafter⟩ := ih hrest
    refine ⟨⟨List.pairwise_cons.mpr ⟨hafter, hcommon.increasing⟩, ?_⟩, ?_⟩
    · exact List.forall_mem_cons.mpr ⟨⟨unit, unit, ha, hb, rfl⟩, hcommon.related⟩
    · refine List.forall_mem_cons.mpr ⟨⟨hi, hj⟩, fun q hq => ?_⟩
      obtain ⟨hfst, hsnd⟩ := hafter q hq
      exact ⟨hi.trans (Nat.le_of_succ_le hfst), hj.trans (Nat.le_of_succ_le hsnd)⟩

/-! ### The table -/

variable [DecidableEq α]

theorem ofNat_le_ofNat {m n : ℕ} (hm : m < 2 ^ 32) (hn : n < 2 ^ 32) :
    UInt32.ofNat m ≤ UInt32.ofNat n ↔ m ≤ n := by
  rw [UInt32.le_iff_toNat_le, UInt32.toNat_ofNat_of_lt' hm, UInt32.toNat_ofNat_of_lt' hn]

theorem max_ofNat {m n : ℕ} (hm : m < 2 ^ 32) (hn : n < 2 ^ 32) :
    max (UInt32.ofNat m) (UInt32.ofNat n) = UInt32.ofNat (max m n) := by
  by_cases hle : m ≤ n
  · rw [max_eq_right hle]
    exact if_pos ((ofNat_le_ofNat hm hn).mpr hle)
  · rw [max_eq_left (Nat.le_of_not_le hle)]
    exact if_neg (mt (ofNat_le_ofNat hm hn).mp hle)

/-- What a row of the table should hold: the lengths for the rests of the second list. -/
def lcsLengths (a b : List α) : List UInt32 :=
  b.tails.map fun rest => UInt32.ofNat (lcsLength Eq a rest)

theorem lcsLengths_cons (a : List α) (y : α) (b : List α) :
    lcsLengths a (y :: b) = UInt32.ofNat (lcsLength Eq a (y :: b)) :: lcsLengths a b := by
  rw [lcsLengths, List.tails_cons, List.map_cons]
  rfl

theorem headD_lcsLengths (a b : List α) :
    (lcsLengths a b).headD 0 = UInt32.ofNat (lcsLength Eq a b) := by
  cases b with
  | nil => rfl
  | cons y b =>
    rw [lcsLengths_cons]
    rfl

/-- A row is computed from the row below it. -/
theorem lcsRow_lcsLengths (ha : a.length + 1 < 2 ^ 32) (x : α) (b : List α) :
    lcsRow x b (lcsLengths a b) = lcsLengths (x :: a) b := by
  induction b with
  | nil =>
    rw [lcsRow, lcsLengths, List.tails, List.map_singleton, lcsLength_nil_right]
    rfl
  | cons y b ih =>
    have hleft : lcsLength Eq a (y :: b) < 2 ^ 32 :=
      (lcsLength_le a (y :: b)).trans_lt (Nat.lt_of_succ_lt ha)
    have hright : lcsLength Eq (x :: a) b < 2 ^ 32 := (lcsLength_le (x :: a) b).trans_lt ha
    rw [lcsRow, lcsLengths_cons, List.tail_cons, ih, lcsLengths_cons, headD_lcsLengths,
      headD_lcsLengths, List.headD_cons, lcsLength_cons]
    congr 1
    split_ifs
    -- the sum is right even where it wraps, and the maximum where neither length does
    · exact (UInt32.ofNat_add _ 1).symm
    · exact max_ofNat hleft hright

/-- Every row of the table holds the lengths for a rest of the first list. -/
theorem lcsTable_eq (ha : a.length < 2 ^ 32) (b : List α) :
    lcsTable b a = a.tails.map fun rest => lcsLengths rest b := by
  induction a with
  | nil =>
    have hzero : (fun rest : List α => UInt32.ofNat (lcsLength Eq [] rest)) = fun _ => 0 := by
      funext rest
      rw [lcsLength_nil_left]
      rfl
    rw [lcsTable, List.tails, List.map_singleton, lcsLengths, hzero, List.map_const',
      List.length_tails]
  | cons x a ih =>
    have hbelow := ih (Nat.lt_of_succ_lt ha)
    have hhead : (a.tails.map fun rest => lcsLengths rest b).headD [] = lcsLengths a b := by
      cases a with
      | nil => rfl
      | cons x' a => rw [List.tails_cons, List.map_cons, List.headD_cons]
    rw [lcsTable, hbelow, hhead, lcsRow_lcsLengths ha, List.tails_cons, List.map_cons]

/-- An entry of the table is the length for the rests from its places on. -/
theorem getD_lcsTable (ha : a.length < 2 ^ 32) (hi : i ≤ a.length) (hj : j ≤ b.length) :
    ((lcsTable b a).getD i []).getD j 0 =
      UInt32.ofNat (lcsLength Eq (a.drop i) (b.drop j)) := by
  have hi' : i < a.tails.length := (Nat.lt_succ_of_le hi).trans_eq (List.length_tails a).symm
  have hj' : j < b.tails.length := (Nat.lt_succ_of_le hj).trans_eq (List.length_tails b).symm
  have hrow : (lcsTable b a).getD i [] = lcsLengths (a.drop i) b := by
    rw [lcsTable_eq ha, List.getD_eq_getElem?_getD, List.getElem?_map,
      List.getElem?_eq_getElem hi', List.getElem_tails, Option.map_some, Option.getD_some]
  rw [hrow, lcsLengths, List.getD_eq_getElem?_getD, List.getElem?_map,
    List.getElem?_eq_getElem hj', List.getElem_tails, Option.map_some, Option.getD_some]

/-! ### The walk -/

/-- The walk finds as many places as the table says. -/
theorem length_lcsWalk {dp : ℕ → ℕ → UInt32} (has : as.length < 2 ^ 32)
    (hdp : ∀ i ≤ as.length, ∀ j ≤ bs.length,
      dp i j = UInt32.ofNat (lcsLength Eq (as.drop i) (bs.drop j)))
    (ha : as.drop i = a) (hb : bs.drop j = b) :
    (lcsWalk dp i j a b).length = lcsLength Eq a b := by
  have hshort : ∀ k (rest : List α), lcsLength Eq (as.drop k) rest < 2 ^ 32 := by
    intro k rest
    refine (lcsLength_le _ _).trans_lt (lt_of_le_of_lt ?_ has)
    rw [List.length_drop]
    exact Nat.sub_le _ _
  fun_induction lcsWalk dp i j a b with
  | case1 i j a x b ih =>
    rw [List.length_cons, ih (of_drop_eq_cons ha).2.1 (of_drop_eq_cons hb).2.1, lcsLength_cons,
      if_pos rfl]
  | case2 i j x a y b hne hle ih =>
    -- ties go here: nothing is lost without the first unit of the first list
    obtain ⟨-, ha', hi⟩ := of_drop_eq_cons ha
    obtain ⟨-, hb', hj⟩ := of_drop_eq_cons hb
    rw [hdp i (Nat.le_of_succ_le hi) (j + 1) hj, hdp (i + 1) hi j (Nat.le_of_succ_le hj),
      ofNat_le_ofNat (hshort _ _) (hshort _ _), ha, ha', hb, hb'] at hle
    rw [ih ha' hb, lcsLength_cons, if_neg hne, max_eq_left hle]
  | case3 i j x a y b hne hle ih =>
    -- something would be, so it is the other list that can spare one
    obtain ⟨-, ha', hi⟩ := of_drop_eq_cons ha
    obtain ⟨-, hb', hj⟩ := of_drop_eq_cons hb
    rw [hdp i (Nat.le_of_succ_le hi) (j + 1) hj, hdp (i + 1) hi j (Nat.le_of_succ_le hj),
      ofNat_le_ofNat (hshort _ _) (hshort _ _), ha, ha', hb, hb'] at hle
    rw [ih ha hb', lcsLength_cons, if_neg hne, max_eq_right (Nat.le_of_not_le hle)]
  | case4 i j a b hempty =>
    rw [List.length_nil, lcsLength]
    exact hempty

/-- As many places are matched as a common subsequence can have. -/
theorem length_lcsPairs (ha : a.length < 2 ^ 32) (b : List α) :
    (lcsPairs a b).length = lcsLength Eq a b := by
  rw [lcsPairs]
  split_ifs with hempty
  · rw [Bool.or_eq_true, List.isEmpty_iff, List.isEmpty_iff] at hempty
    rcases hempty with rfl | rfl
    · exact (lcsLength_nil_left b).symm
    · exact (lcsLength_nil_right a).symm
  · exact length_lcsWalk ha (fun i hi j hj => getD_lcsTable ha hi hj) rfl rfl

/-- Matched places increase in both lists and have the same unit at them, and no other sequence of
such places is longer. The entries of the table do not exceed the length of the first list. -/
theorem longest_lcsPairs (a b : List α) (ha : a.length < 2 ^ 32) :
    Longest Eq a b (lcsPairs a b) := by
  refine ⟨(common_of_matches (matches_lcsPairs a b)).1, fun others hothers => ?_⟩
  rw [length_lcsPairs ha]
  exact hothers.length_le

/-- Of two texts that begin differently. -/
theorem longest_lcsPairs_cab : lcsPairs "cab".toList "abd".toList = [(1, 0), (2, 1)] ∧
    Longest Eq "cab".toList "abd".toList [(1, 0), (2, 1)] := by
  have hpairs : lcsPairs "cab".toList "abd".toList = [(1, 0), (2, 1)] := by decide +kernel
  have hlongest := longest_lcsPairs "cab".toList "abd".toList (by decide)
  rw [hpairs] at hlongest
  exact ⟨hpairs, hlongest⟩

end SafeHub.SGit
