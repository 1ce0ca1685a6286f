import SafeHub.SGit.CleanupRounds

/-!
# Runs of matched characters

The clean-up of a difference by characters is to give up equalities that are too short to pay for
the operations around them. It is given one equality for every matched character, each of length
one, before it joins any, so it gives all of them up, however long the run that they make up.

## Main definitions

* `middles` — the middle parts of two texts, which are compared
* `MatchedRun` — a run of matched characters between two changes
* `LongRunsKept` — the runs that are long enough are kept

## Main results

* `keeps_cleanup_eq_zero` — nothing is kept of the middle parts
* `longRunsKept_iff` — long runs are kept where there are none
-/

namespace SafeHub.SGit

open EditScript

/-! ### The middle parts -/

/-- The parts of two texts between their common ends. -/
def middles (old new : String) : List Char × List Char :=
  let ac := old.toList
  let bc := new.toList
  let p := commonPrefix ac bc
  let s := commonPrefix (ac.drop p).reverse (bc.drop p).reverse
  ((ac.drop p).take (ac.length - s - p), (bc.drop p).take (bc.length - s - p))

section Ends

variable {α : Type} [DecidableEq α]

/-- After their common beginning two lists differ. -/
theorem ne_of_commonPrefix {a b : List α} {unit : α} (h : a[commonPrefix a b]? = some unit) :
    b[commonPrefix a b]? ≠ some unit := by
  fun_induction commonPrefix a b with
  | case1 x a b ih =>
    rw [List.getElem?_cons_succ] at h ⊢
    exact ih h
  | case2 x a y b hne =>
    rw [List.getElem?_cons_zero] at h ⊢
    intro heq
    exact hne ((Option.some.inj h).trans (Option.some.inj heq).symm)
  | case3 a b hshort =>
    intro heq
    cases a with
    | nil => cases h
    | cons x a =>
      cases b with
      | nil => cases heq
      | cons y b => exact hshort x a y b rfl rfl

end Ends

/-- Before their common end two lists differ. -/
theorem ne_of_commonSuffix {α : Type} [DecidableEq α] {a b : List α} {n s p q : ℕ} {unit : α}
    (hs : s = commonPrefix a.reverse b.reverse) (hp : p + 1 + s = a.length)
    (hq : q + 1 + s = b.length) (h : (a.take n)[p]? = some unit) : b[q]? ≠ some unit := by
  have ha : a.reverse[s]? = a[p]? := by
    rw [List.getElem?_reverse (by omega)]
    congr 1
    omega
  have hb : b.reverse[s]? = b[q]? := by
    rw [List.getElem?_reverse (by omega)]
    congr 1
    omega
  rw [List.getElem?_take] at h
  split_ifs at h
  rw [← hb, hs]
  apply ne_of_commonPrefix
  rw [← hs, ha, h]

/-- The middle parts begin with different characters. -/
theorem middles_head {old new : String} {c : Char} (h : (middles old new).1[0]? = some c) :
    (middles old new).2[0]? ≠ some c := by
  rw [middles] at h ⊢
  dsimp only at h ⊢
  set p := commonPrefix old.toList new.toList with hp
  rw [List.getElem?_take] at h ⊢
  split_ifs at h
  split_ifs
  · rw [List.getElem?_drop, Nat.add_zero] at h ⊢
    exact ne_of_commonPrefix h
  · exact fun heq => by cases heq

/-- And end with different ones. -/
theorem middles_last {old new : String} {c : Char} {p q : ℕ}
    (hp : p + 1 = (middles old new).1.length) (hq : q + 1 = (middles old new).2.length)
    (h : (middles old new).1[p]? = some c) : (middles old new).2[q]? ≠ some c := by
  rw [middles] at h hp hq ⊢
  dsimp only at h hp hq ⊢
  set begin := commonPrefix old.toList new.toList
  set s := commonPrefix (old.toList.drop begin).reverse (new.toList.drop begin).reverse with hs
  rw [List.length_take, List.length_drop] at hp hq
  intro heq
  rw [List.getElem?_take] at heq
  split_ifs at heq
  refine ne_of_commonSuffix hs ?_ ?_ h heq
  · rw [List.length_drop]
    omega
  · rw [List.length_drop]
    omega

/-! ### What the clean-up keeps -/

section Kept

variable {out segs : List (Seg Char)} {changed : Bool}

/-- Between a first change and a last one, every short equality is given up. -/
theorem keeps_absorb_of_short (hout : out ≠ [])
    (hshort : ∀ e, .keep e ∈ segs → e.length < editCost)
    (hlast : ∀ e, segs.getLast? ≠ some (.keep e)) :
    keeps (absorb out changed segs).1 = keeps out := by
  induction segs generalizing out changed with
  | nil => rfl
  | cons seg segs ih =>
    have hshort' : ∀ e, .keep e ∈ segs → e.length < editCost :=
      fun e hmem => hshort e (List.mem_cons_of_mem _ hmem)
    have hlast' : ∀ e, segs.getLast? ≠ some (.keep e) := by
      intro e hrest
      apply hlast e
      rw [List.getLast?_cons, hrest, Option.getD_some]
    have hgrown (more : List (Seg Char)) : out ++ more ≠ [] :=
      List.append_ne_nil_of_left_ne_nil hout _
    cases seg with
    | keep e =>
      have hne : segs ≠ [] := by
        rintro rfl
        exact hlast e rfl
      have hgiven : (!out.isEmpty && !segs.isEmpty && decide (e.length < editCost)) = true := by
        simp [hout, hne, hshort e List.mem_cons_self]
      rw [absorb, if_pos hgiven, ih (hgrown _) hshort' hlast']
      simp
    | del e =>
      rw [absorb_cons rfl, ih (hgrown _) hshort' hlast']
      simp
    | ins e =>
      rw [absorb_cons rfl, ih (hgrown _) hshort' hlast']
      simp

theorem keeps_round_le : keeps (round segs).1 ≤ keeps (absorb [] false segs).1 := by
  have hmerge := (@merge_measure [] [] (absorb [] false segs).1 (absorb [] false segs).2 rfl).1
  rwa [keeps_nil, Nat.zero_add] at hmerge

/-- Without equalities nothing is kept. -/
theorem keptAt_eq_nil (h : keeps segs = 0) (i j : ℕ) : keptAt i j segs = [] := by
  induction segs generalizing i j with
  | nil => rfl
  | cons seg segs ih =>
    cases seg with
    | keep e =>
      rw [keeps_cons_keep] at h
      cases h
    | del e =>
      rw [keeps_cons_del] at h
      exact ih h _ _
    | ins e =>
      rw [keeps_cons_ins] at h
      exact ih h _ _

/-- An alignment that neither begins nor ends with an equality, and has short ones only, is given
up as a whole. -/
theorem keeps_cleanup_eq_zero (hshort : ∀ e, .keep e ∈ segs → e.length < editCost)
    (hfirst : ∀ e, segs.head? ≠ some (.keep e)) (hlast : ∀ e, segs.getLast? ≠ some (.keep e)) :
    keeps (cleanup segs) = 0 := by
  have habsorb : keeps (absorb [] false segs).1 = 0 := by
    cases segs with
    | nil => rfl
    | cons seg segs =>
      have hseg : isKeep seg = false := by
        cases seg with
        | keep e => exact absurd rfl (hfirst e)
        | del e => rfl
        | ins e => rfl
      rw [absorb_cons hseg, List.nil_append, keeps_absorb_of_short (List.cons_ne_nil _ _),
        keeps_cons hseg, keeps_nil]
      · exact fun e hmem => hshort e (List.mem_cons_of_mem _ hmem)
      · intro e hrest
        apply hlast e
        rw [List.getLast?_cons, hrest, Option.getD_some]
  have hle := @keeps_round_le segs
  rw [habsorb] at hle
  rw [cleanup_eq]
  exact Nat.le_zero.mp hle

end Kept

/-! ### Segments of matched places -/

section Segments

variable {α : Type} {a b : List α} {pairs : List (ℕ × ℕ)} {e : List α}

/-- Every equality is one unit. -/
theorem length_of_keep_mem {oi ni : ℕ} (h : .keep e ∈ segsFromPairsAt a b oi ni pairs) :
    e.length ≤ 1 := by
  induction pairs generalizing oi ni with
  | nil =>
    rw [segsFromPairsAt] at h
    split_ifs at h <;> simp at h
  | cons pair pairs ih =>
    obtain ⟨po, pn⟩ := pair
    rw [segsFromPairsAt] at h
    rcases List.mem_append.mp h with hdel | hrest
    · split_ifs at hdel <;> simp at hdel
    rcases List.mem_append.mp hrest with hins | hrest
    · split_ifs at hins <;> simp at hins
    rcases List.mem_cons.mp hrest with hkeep | hlater
    · rw [Seg.keep.inj hkeep]
      cases a[po]? with
      | none => exact Nat.zero_le _
      | some unit => exact le_rfl
    · exact ih hlater

/-- The first segment is a change, unless the first units match. -/
theorem head_segsFromPairs (h : (0, 0) ∉ pairs) :
    (segsFromPairs a b pairs).head? ≠ some (.keep e) := by
  rw [segsFromPairs]
  cases pairs with
  | nil =>
    rw [segsFromPairsAt]
    split_ifs <;> simp
  | cons pair pairs =>
    obtain ⟨po, pn⟩ := pair
    rw [segsFromPairsAt]
    split_ifs with hdel hins
    · simp
    · simp
    · simp
    · obtain rfl := Nat.eq_zero_of_not_pos hdel
      rename_i hins
      obtain rfl := Nat.eq_zero_of_not_pos hins
      exact absurd List.mem_cons_self h

/-- There are no segments only where nothing is left. -/
theorem eq_length_of_segsFromPairsAt {oi ni : ℕ} (hmatches : Matches a b oi ni pairs)
    (h : segsFromPairsAt a b oi ni pairs = []) : oi = a.length ∧ ni = b.length := by
  cases pairs with
  | nil =>
    obtain ⟨ha, hb⟩ := hmatches
    rw [segsFromPairsAt, List.append_eq_nil_iff] at h
    have hdel : ¬ oi < a.length := fun hlt => by
      rw [if_pos hlt] at h
      cases h.1
    have hins : ¬ ni < b.length := fun hlt => by
      rw [if_pos hlt] at h
      cases h.2
    exact ⟨ha.antisymm (not_lt.mp hdel), hb.antisymm (not_lt.mp hins)⟩
  | cons pair pairs =>
    rw [segsFromPairsAt] at h
    have hkeep := (List.append_eq_nil_iff.mp (List.append_eq_nil_iff.mp h).2).2
    cases hkeep

/-- The last segment is a change, unless the last units match. -/
theorem getLast_segsFromPairsAt {oi ni : ℕ} (hmatches : Matches a b oi ni pairs)
    (h : ∀ p q, (p, q) ∈ pairs → p + 1 = a.length → q + 1 ≠ b.length) :
    (segsFromPairsAt a b oi ni pairs).getLast? ≠ some (.keep e) := by
  induction pairs generalizing oi ni with
  | nil =>
    rw [segsFromPairsAt]
    split_ifs <;> simp
  | cons pair pairs ih =>
    obtain ⟨po, pn⟩ := pair
    obtain ⟨-, -, ⟨unit, ha, hb⟩, hrest⟩ := hmatches
    have hlater := ih hrest fun p q hmem => h p q (List.mem_cons_of_mem _ hmem)
    rw [segsFromPairsAt, List.getLast?_append, List.getLast?_append, List.getLast?_cons,
      Option.some_or, Option.some_or]
    cases htail : (segsFromPairsAt a b (po + 1) (pn + 1) pairs).getLast? with
    | none =>
      -- nothing follows, so the match is one of the last units
      rw [List.getLast?_eq_none_iff] at htail
      obtain ⟨hpo, hpn⟩ := eq_length_of_segsFromPairsAt hrest htail
      exact absurd hpn (h po pn List.mem_cons_self hpo)
    | some seg =>
      rw [Option.getD_some, ← htail]
      exact hlater

end Segments

/-! ### Long runs -/

/-- A run of consecutive matched places between two changes, as long as it can be. -/
structure MatchedRun {α : Type} (a b : List α) (pairs : List (ℕ × ℕ)) (i j n : ℕ) : Prop where
  matched (k : ℕ) : k < n → (i + k, j + k) ∈ pairs
  first {i' j' : ℕ} : i = i' + 1 → j = j' + 1 → (i', j') ∉ pairs
  last : (i + n, j + n) ∉ pairs
  /-- There is a change before it. -/
  after : 0 < i ∨ 0 < j
  /-- There is a change after it. -/
  before : i + n < a.length ∨ j + n < b.length

/-- The alignment that a difference by characters is read off, and what the clean-up makes of
it. -/
def alignment (old new : String) : List (ℕ × ℕ) :=
  lcsPairs (middles old new).1 (middles old new).2

def cleaned (old new : String) : List (Seg Char) :=
  cleanup (segsFromPairs (middles old new).1 (middles old new).2 (alignment old new))

/-- An alignment is made of middle parts that are not too long. -/
def Aligned (old new : String) : Prop :=
  (middles old new).1.length ≤ charLcsCap ∧ (middles old new).2.length ≤ charLcsCap

/-- The operations of such a difference are those of the alignment as it was cleaned. -/
theorem comDiffChar_of_aligned {old new : String} (h : Aligned old new) : comDiffChar old new =
    opsFromSegs (commonPrefix old.toList new.toList) (cleaned old new) := if_pos h

/-- Every run of at least `EDIT_COST` matched characters between two changes is kept. -/
def LongRunsKept (old new : String) : Prop :=
  Aligned old new → ∀ i j n,
    MatchedRun (middles old new).1 (middles old new).2 (alignment old new) i j n →
    editCost ≤ n → ∀ k < n, (i + k, j + k) ∈ keptAt 0 0 (cleaned old new)

/-- Nothing is kept of the middle parts. -/
theorem keptAt_cleaned (old new : String) : keptAt 0 0 (cleaned old new) = [] := by
  have hmatches := matches_lcsPairs (middles old new).1 (middles old new).2
  refine keptAt_eq_nil (keeps_cleanup_eq_zero ?_ ?_ ?_) 0 0
  · intro e hmem
    exact (length_of_keep_mem hmem).trans_lt (by decide)
  · -- the middle parts begin with different characters
    intro e
    refine head_segsFromPairs fun hmem => ?_
    obtain ⟨unit, ha, hb⟩ := hmatches.agree hmem
    exact middles_head ha hb
  · intro e
    refine getLast_segsFromPairsAt hmatches fun p q hmem hp hq => ?_
    obtain ⟨unit, ha, hb⟩ := hmatches.agree hmem
    exact middles_last hp hq ha hb

/-- Long runs are kept exactly where there are none. -/
theorem longRunsKept_iff (old new : String) : LongRunsKept old new ↔
    (Aligned old new → ∀ i j n,
      MatchedRun (middles old new).1 (middles old new).2 (alignment old new) i j n →
      n < editCost) := by
  refine imp_congr_right fun _ => forall_congr' fun i => forall_congr' fun j =>
    forall_congr' fun n => imp_congr_right fun _ => ?_
  rw [keptAt_cleaned]
  constructor
  · intro h
    by_contra hlong
    have hpos : 0 < n := (Nat.zero_lt_succ 3).trans_le (not_lt.mp hlong)
    cases h (not_lt.mp hlong) 0 hpos
  · intro hshort hlong
    exact absurd hshort (not_lt.mpr hlong)

/-- Four matched characters between two replaced ones. -/
theorem not_longRunsKept_four : ¬ LongRunsKept "1aaaa2" "3aaaa4" := by
  have hpairs : alignment "1aaaa2" "3aaaa4" = [(1, 1), (2, 2), (3, 3), (4, 4)] := by decide +kernel
  have hmiddles : middles "1aaaa2" "3aaaa4" =
      (['1', 'a', 'a', 'a', 'a', '2'], ['3', 'a', 'a', 'a', 'a', '4']) := by decide +kernel
  rw [longRunsKept_iff]
  intro h
  refine absurd (h ?_ 1 1 4 ?_) (by decide)
  · rw [Aligned, hmiddles]
    decide
  · rw [hpairs, hmiddles]
    refine ⟨by decide, ?_, by decide, by decide, by decide⟩
    intro i' j' hi hj
    obtain rfl := Nat.succ.inj hi
    obtain rfl := Nat.succ.inj hj
    decide

end SafeHub.SGit
