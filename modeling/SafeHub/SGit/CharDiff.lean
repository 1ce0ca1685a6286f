import SafeHub.SGit.Diff

/-!
# Differences of texts by characters

The common ends of the two texts are cut off, and the middle parts are compared by characters. A
longest common subsequence matches single characters by accident, so equalities that are too
short between changes are given up, round after round, and each run of changes becomes one
deletion and one insertion. Middle parts that are too long are replaced as a whole.

## Main definitions

* `absorb`, `merge`, `cleanup` — giving up short equalities
* `comDiffChar` — the difference of two texts by characters

## Main results

* `source_cleanup` — the clean-up changes neither text
* `exists_alignment` — the operations are the script of an alignment of the two texts
* `applyChars_comDiffChar` — they make the new text of the old
-/

namespace SafeHub.SGit

open EditScript

/-! ### Equalities that are given up -/

/-- `EDIT_COST`, below which an equality is not worth keeping. -/
def editCost : ℕ := 4

/-- Turn short equalities between changes into a deletion and an insertion, and say whether there
was one. The first and the last segment stay. -/
def absorb (out : List (Seg Char)) (changed : Bool) : List (Seg Char) → List (Seg Char) × Bool
  | [] => (out, changed)
  | .keep e :: segs =>
    if !out.isEmpty && !segs.isEmpty && decide (e.length < editCost) then
      absorb (out ++ [.del e, .ins e]) true segs
    else absorb (out ++ [.keep e]) changed segs
  | seg :: segs => absorb (out ++ [seg]) changed segs

/-- A run of changes as one deletion and one insertion. -/
def collapse (run : List (Seg Char)) : List (Seg Char) :=
  (if (source run).isEmpty then [] else [.del (source run)]) ++
    (if (target run).isEmpty then [] else [.ins (target run)])

/-- Collapse every run of changes and join adjacent equalities, and say whether that did
anything. -/
def merge (merged run : List (Seg Char)) (changed : Bool) :
    List (Seg Char) → List (Seg Char) × Bool
  | [] => (merged ++ collapse run, changed || decide (2 < run.length))
  | .keep e :: segs =>
    let changed := changed || decide (2 < run.length)
    let merged := merged ++ collapse run
    if e.isEmpty then merge merged [] changed segs
    else
      match merged.getLast? with
      | some (.keep prev) => merge (merged.dropLast ++ [.keep (prev ++ e)]) [] true segs
      | _ => merge (merged ++ [.keep e]) [] changed segs
  | seg :: segs => merge merged (run ++ [seg]) changed segs

/-- An equality. -/
def isKeep : Seg Char → Bool
  | .keep _ => true
  | _ => false

/-- The number of equalities. -/
def keeps (segs : List (Seg Char)) : ℕ := segs.countP isKeep

section Rounds

variable {out merged run segs : List (Seg Char)} {changed : Bool}

@[simp] theorem keeps_nil : keeps [] = 0 := rfl

@[simp] theorem keeps_append {more : List (Seg Char)} :
    keeps (segs ++ more) = keeps segs + keeps more := List.countP_append

@[simp] theorem keeps_cons_keep {e : List Char} : keeps (.keep e :: segs) = keeps segs + 1 :=
  List.countP_cons_of_pos rfl

@[simp] theorem keeps_cons_del {e : List Char} : keeps (.del e :: segs) = keeps segs :=
  List.countP_cons_of_neg Bool.false_ne_true

@[simp] theorem keeps_cons_ins {e : List Char} : keeps (.ins e :: segs) = keeps segs :=
  List.countP_cons_of_neg Bool.false_ne_true

theorem keeps_cons {seg : Seg Char} (h : isKeep seg = false) : keeps (seg :: segs) = keeps segs :=
  List.countP_cons_of_neg (Bool.eq_false_iff.mp h)

/-- A change stays. -/
theorem absorb_cons {seg : Seg Char} (h : isKeep seg = false) :
    absorb out changed (seg :: segs) = absorb (out ++ [seg]) changed segs := by
  cases seg with
  | keep e => cases h
  | del e => rfl
  | ins e => rfl

/-- A change is added to its run. -/
theorem merge_cons {seg : Seg Char} (h : isKeep seg = false) :
    merge merged run changed (seg :: segs) = merge merged (run ++ [seg]) changed segs := by
  cases seg with
  | keep e => cases h
  | del e => rfl
  | ins e => rfl

/-- Giving up an equality changes neither text. -/
theorem source_absorb : source (absorb out changed segs).1 = source out ++ source segs ∧
    target (absorb out changed segs).1 = target out ++ target segs := by
  induction segs generalizing out changed with
  | nil => simp [absorb]
  | cons seg segs ih =>
    cases seg with
    | keep e =>
      rw [absorb]
      split_ifs
      · simp [ih, Seg.source, Seg.target]
      · simp [ih, Seg.source, Seg.target]
    | del e => simp [absorb, ih, Seg.source, Seg.target]
    | ins e => simp [absorb, ih, Seg.source, Seg.target]

theorem keeps_absorb_le : keeps (absorb out changed segs).1 ≤ keeps out + keeps segs := by
  induction segs generalizing out changed with
  | nil => simp [absorb]
  | cons seg segs ih =>
    cases seg with
    | keep e =>
      rw [absorb]
      split_ifs
      · refine ih.trans ?_
        simp
      · refine ih.trans_eq ?_
        simp
        omega
    | del e => exact ih.trans_eq (by simp)
    | ins e => exact ih.trans_eq (by simp)

/-- Either nothing was given up, or there are fewer equalities. -/
theorem absorb_cases : absorb out changed segs = (out ++ segs, changed) ∨
    keeps (absorb out changed segs).1 < keeps out + keeps segs := by
  induction segs generalizing out changed with
  | nil => exact .inl (by simp [absorb])
  | cons seg segs ih =>
    cases seg with
    | keep e =>
      rw [absorb]
      split_ifs
      · refine .inr (keeps_absorb_le.trans_lt ?_)
        simp
      · rcases @ih (out ++ [.keep e]) changed with hsame | hless
        · exact .inl (by simpa using hsame)
        · refine .inr (hless.trans_eq ?_)
          simp
          omega
    | del e =>
      rcases @ih (out ++ [.del e]) changed with hsame | hless
      · exact .inl (by simpa [absorb] using hsame)
      · exact .inr (hless.trans_eq (by simp))
    | ins e =>
      rcases @ih (out ++ [.ins e]) changed with hsame | hless
      · exact .inl (by simpa [absorb] using hsame)
      · exact .inr (hless.trans_eq (by simp))

@[simp] theorem source_collapse : source (collapse run) = source run := by
  rw [collapse]
  split_ifs with hdel hins hins <;>
    simp_all [Seg.source, List.isEmpty_iff]

@[simp] theorem target_collapse : target (collapse run) = target run := by
  rw [collapse]
  split_ifs with hdel hins hins <;>
    simp_all [Seg.target, List.isEmpty_iff]

@[simp] theorem keeps_collapse : keeps (collapse run) = 0 := by
  rw [collapse]
  split_ifs <;> rfl

/-- A run of changes does not get longer, and a run of more than two gets shorter. -/
theorem length_collapse (hrun : keeps run = 0) : (collapse run).length ≤ run.length ∧
    (2 < run.length → (collapse run).length < run.length) := by
  have htwo : (collapse run).length ≤ 2 := by
    rw [collapse]
    split_ifs <;> simp
  match run, hrun, htwo with
  | [], _, _ => exact ⟨le_rfl, fun h => absurd h (by simp)⟩
  | [.keep e], hkeep, _ => rw [keeps_cons_keep] at hkeep; cases hkeep
  | [.del e], _, _ =>
    refine ⟨?_, fun h => absurd h (by simp)⟩
    rw [collapse]
    split_ifs <;> simp_all [Seg.source, Seg.target]
  | [.ins e], _, _ =>
    refine ⟨?_, fun h => absurd h (by simp)⟩
    rw [collapse]
    split_ifs <;> simp_all [Seg.source, Seg.target]
  | _ :: _ :: _, _, htwo =>
    refine ⟨htwo.trans (by simp), fun h => ?_⟩
    omega

/-- Merging changes neither text. -/
theorem source_merge :
    source (merge merged run changed segs).1 = source merged ++ (source run ++ source segs) ∧
      target (merge merged run changed segs).1 =
        target merged ++ (target run ++ target segs) := by
  induction segs generalizing merged run changed with
  | nil => simp [merge]
  | cons seg segs ih =>
    cases seg with
    | keep e =>
      rw [merge]
      split_ifs with hempty
      · have he : e = [] := List.isEmpty_iff.mp hempty
        simp [ih, he, Seg.source, Seg.target]
      · split
        · next prev hlast =>
          -- the equality before it is the last segment of what is done
          obtain ⟨front, hfront⟩ := List.getLast?_eq_some_iff.mp hlast
          have hsource := congrArg source hfront
          have htarget := congrArg target hfront
          rw [source_append, source_append, source_collapse] at hsource
          rw [target_append, target_append, target_collapse] at htarget
          rw [hfront, List.dropLast_concat]
          simp only [ih, source_append, target_append, source_cons, target_cons, source_nil,
            target_nil, Seg.source, Seg.target, List.append_nil, List.nil_append] at *
          constructor
          · rw [← List.append_assoc, ← List.append_assoc, ← hsource]
            simp
          · rw [← List.append_assoc, ← List.append_assoc, ← htarget]
            simp
        · simp [ih, Seg.source, Seg.target]
    | del e => simp [merge, ih, Seg.source, Seg.target]
    | ins e => simp [merge, ih, Seg.source, Seg.target]

/-- A round that reports a change has left fewer equalities or fewer segments. -/
theorem merge_measure (hrun : keeps run = 0) :
    keeps (merge merged run changed segs).1 ≤ keeps merged + keeps segs ∧
    (merge merged run changed segs).1.length ≤ merged.length + run.length + segs.length ∧
    ((merge merged run changed segs).2 = changed ∨
      keeps (merge merged run changed segs).1 < keeps merged + keeps segs ∨
      (merge merged run changed segs).1.length < merged.length + run.length + segs.length) := by
  induction segs generalizing merged run changed with
  | nil =>
    obtain ⟨hle, hlt⟩ := length_collapse hrun
    rw [merge]
    dsimp only
    rw [List.length_append, keeps_append, keeps_collapse, List.length_nil]
    refine ⟨le_rfl, by omega, ?_⟩
    by_cases hlong : 2 < run.length
    · exact .inr (.inr (by have := hlt hlong; omega))
    · exact .inl (by simp [hlong])
  | cons seg segs ih =>
    by_cases hseg : isKeep seg = false
    · -- a change makes the run longer by what the rest gets shorter
      have hlength : merged.length + (run ++ [seg]).length + segs.length =
          merged.length + run.length + (seg :: segs).length := by
        rw [List.length_append, List.length_singleton, List.length_cons]
        omega
      rw [merge_cons hseg, keeps_cons hseg, ← hlength]
      apply ih
      rw [keeps_append, hrun, keeps_cons hseg, keeps_nil]
    · cases seg with
      | del e => exact absurd rfl hseg
      | ins e => exact absurd rfl hseg
      | keep e =>
        obtain ⟨hle, hlt⟩ := length_collapse hrun
        rw [merge]
        split_ifs with hempty
        · -- an empty equality is dropped
          obtain ⟨hkeeps, hlength, -⟩ :=
            @ih (merged ++ collapse run) [] (changed || decide (2 < run.length)) rfl
          simp only [keeps_append, keeps_collapse, List.length_append, List.length_nil,
            List.length_cons, keeps_cons_keep] at *
          omega
        · split
          · next prev hlast =>
            -- two equalities become one
            obtain ⟨front, hfront⟩ := List.getLast?_eq_some_iff.mp hlast
            have hkeeps' := congrArg keeps hfront
            have hlength' := congrArg List.length hfront
            rw [hfront, List.dropLast_concat]
            obtain ⟨hkeeps, hlength, -⟩ := @ih (front ++ [.keep (prev ++ e)]) [] true rfl
            simp only [keeps_append, keeps_collapse, keeps_nil, List.length_append, List.length_nil,
              List.length_cons, keeps_cons_keep] at *
            omega
          · obtain ⟨hkeeps, hlength, hchanged⟩ :=
              @ih (merged ++ collapse run ++ [.keep e]) [] (changed || decide (2 < run.length)) rfl
            by_cases hlong : 2 < run.length
            · have hshorter := hlt hlong
              simp only [keeps_append, keeps_collapse, keeps_nil, List.length_append,
                List.length_nil, List.length_cons, keeps_cons_keep] at *
              omega
            · simp only [hlong, decide_false, Bool.or_false, keeps_append, keeps_collapse,
                keeps_nil, List.length_append, List.length_nil, List.length_cons,
                keeps_cons_keep] at *
              refine ⟨by omega, by omega, ?_⟩
              rcases hchanged with hsame | hfewer | hshorter
              · exact .inl hsame
              · exact .inr (.inl (by omega))
              · exact .inr (.inr (by omega))

/-- What one round of the clean-up makes of an alignment. -/
def round (segs : List (Seg Char)) : List (Seg Char) × Bool :=
  let absorbed := absorb [] false segs
  merge [] [] absorbed.2 absorbed.1

/-- A round that reports a change has left fewer equalities, or fewer segments. -/
theorem round_measure (hchanged : (round segs).2 = true) : keeps (round segs).1 < keeps segs ∨
    keeps (round segs).1 ≤ keeps segs ∧ (round segs).1.length < segs.length := by
  rcases @absorb_cases [] segs false with hsame | hless
  · -- nothing was given up, so the report is about the merge
    have hround : round segs = merge [] [] false segs := by
      rw [round, hsame]
      rfl
    obtain ⟨hkeeps, -, hcases⟩ := @merge_measure [] [] segs false rfl
    rw [hround] at hchanged ⊢
    rw [hchanged] at hcases
    rw [keeps_nil, Nat.zero_add] at hkeeps hcases
    rcases hcases with hfalse | hfewer | hshorter
    · cases hfalse
    · exact .inl hfewer
    · rw [List.length_nil, Nat.zero_add] at hshorter
      exact .inr ⟨hkeeps, hshorter⟩
  · obtain ⟨hkeeps, -⟩ := @merge_measure [] [] (absorb [] false segs).1 (absorb [] false segs).2 rfl
    rw [keeps_nil, Nat.zero_add] at hless hkeeps
    exact .inl (hkeeps.trans_lt hless)

theorem source_round :
    source (round segs).1 = source segs ∧ target (round segs).1 = target segs := by
  obtain ⟨hsource, htarget⟩ :=
    @source_merge [] [] (absorb [] false segs).1 (absorb [] false segs).2
  obtain ⟨hsource', htarget'⟩ := @source_absorb [] segs false
  exact ⟨hsource.trans hsource', htarget.trans htarget'⟩

end Rounds

/-- Give up equalities too short to pay for the operations around them, until nothing changes. -/
def cleanup (segs : List (Seg Char)) : List (Seg Char) :=
  if _h : (round segs).2 = true then cleanup (round segs).1 else (round segs).1
termination_by (keeps segs, segs.length)
decreasing_by
  rcases round_measure _h with hfewer | ⟨hkeeps, hshorter⟩
  · exact .left _ _ hfewer
  · rcases hkeeps.lt_or_eq with hfewer | hsame
    · exact .left _ _ hfewer
    · rw [hsame]
      exact .right _ hshorter

/-- The clean-up changes neither text. -/
theorem source_cleanup (segs : List (Seg Char)) :
    source (cleanup segs) = source segs ∧ target (cleanup segs) = target segs := by
  induction segs using cleanup.induct with
  | case1 segs hchanged ih =>
    rw [cleanup, dif_pos hchanged]
    exact ⟨ih.1.trans source_round.1, ih.2.trans source_round.2⟩
  | case2 segs hdone =>
    rw [cleanup, dif_neg hdone]
    exact source_round

/-! ### The difference by characters -/

/-- The loop of `segs_from_pairs`, at a place of either text. -/
def segsFromPairsAt {α : Type} (a b : List α) (oi ni : ℕ) : List (ℕ × ℕ) → List (Seg α)
  | [] =>
    (if oi < a.length then [.del (a.drop oi)] else []) ++
      (if ni < b.length then [.ins (b.drop ni)] else [])
  | (po, pn) :: pairs =>
    (if oi < po then [.del ((a.drop oi).take (po - oi))] else []) ++
      ((if ni < pn then [.ins ((b.drop ni).take (pn - ni))] else []) ++
        .keep a[po]?.toList :: segsFromPairsAt a b (po + 1) (pn + 1) pairs)

/-- Segments from matched places. -/
def segsFromPairs {α : Type} (a b : List α) (pairs : List (ℕ × ℕ)) : List (Seg α) :=
  segsFromPairsAt a b 0 0 pairs

/-- Segments as operations on the text in between. -/
def opsFromSegs (cursor : ℕ) : List (Seg Char) → List Op
  | [] => []
  | .keep v :: segs => opsFromSegs (cursor + v.length) segs
  | .del v :: segs => .delete cursor v.length :: opsFromSegs cursor segs
  | .ins v :: segs => .insert cursor (String.ofList v) :: opsFromSegs (cursor + v.length) segs

/-- How many units two lists have in common at their beginning. -/
def commonPrefix {α : Type} [DecidableEq α] : List α → List α → ℕ
  | x :: a, y :: b => if x = y then commonPrefix a b + 1 else 0
  | _, _ => 0

/-- `CHAR_LCS_CAP` -/
def charLcsCap : ℕ := 4096

/-- The difference by characters. -/
def comDiffChar (old new : String) : List Op :=
  let ac := old.toList
  let bc := new.toList
  let p := commonPrefix ac bc
  -- the common end, which does not reach into the common beginning
  let s := commonPrefix (ac.drop p).reverse (bc.drop p).reverse
  let aMid := (ac.drop p).take (ac.length - s - p)
  let bMid := (bc.drop p).take (bc.length - s - p)
  if aMid.length ≤ charLcsCap ∧ bMid.length ≤ charLcsCap then
    opsFromSegs p (cleanup (segsFromPairs aMid bMid (lcsPairs aMid bMid)))
  else
    (if aMid.isEmpty then [] else [.delete p aMid.length]) ++
      (if bMid.isEmpty then [] else [.insert p (String.ofList bMid)])

section ByChar

variable {α : Type} {a b : List α} {pairs : List (ℕ × ℕ)}

/-- A gap between matched places is deleted. -/
theorem source_del (oi po : ℕ) :
    source (if oi < po then [.del ((a.drop oi).take (po - oi))] else []) =
      (a.drop oi).take (po - oi) ∧
    target (if oi < po then [.del ((a.drop oi).take (po - oi))] else []) = [] := by
  split_ifs with hgap
  · exact ⟨List.append_nil _, rfl⟩
  · rw [Nat.sub_eq_zero_of_le (not_lt.mp hgap), List.take_zero]
    exact ⟨rfl, rfl⟩

/-- And filled by an insertion. -/
theorem source_ins (ni pn : ℕ) :
    source (if ni < pn then [.ins ((b.drop ni).take (pn - ni))] else []) = [] ∧
    target (if ni < pn then [.ins ((b.drop ni).take (pn - ni))] else []) =
      (b.drop ni).take (pn - ni) := by
  split_ifs with hgap
  · exact ⟨rfl, List.append_nil _⟩
  · rw [Nat.sub_eq_zero_of_le (not_lt.mp hgap), List.take_zero]
    exact ⟨rfl, rfl⟩

/-- The segments of matched places align the rests of the two lists. -/
theorem source_segsFromPairsAt {oi ni : ℕ} (hmatches : Matches a b oi ni pairs) :
    source (segsFromPairsAt a b oi ni pairs) = a.drop oi ∧
      target (segsFromPairsAt a b oi ni pairs) = b.drop ni := by
  induction pairs generalizing oi ni with
  | nil =>
    obtain ⟨hdel, hdel'⟩ := @source_del α a oi a.length
    obtain ⟨hins, hins'⟩ := @source_ins α b ni b.length
    rw [List.take_of_length_le (by rw [List.length_drop])] at hdel hdel' hins hins'
    rw [segsFromPairsAt, source_append, target_append, hdel, hdel', hins, hins']
    exact ⟨List.append_nil _, rfl⟩
  | cons pair pairs ih =>
    obtain ⟨po, pn⟩ := pair
    obtain ⟨hoi, hni, ⟨unit, ha, hb⟩, hrest⟩ := hmatches
    obtain ⟨hsource, htarget⟩ := ih hrest
    obtain ⟨hdel, hdel'⟩ := @source_del α a oi po
    obtain ⟨hins, hins'⟩ := @source_ins α b ni pn
    rw [segsFromPairsAt, ha]
    simp only [source_append, target_append, source_cons, target_cons, hdel, hdel', hins, hins',
      hsource, htarget, Seg.source, Seg.target, Option.toList_some]
    exact ⟨(drop_eq_of_getElem? hoi ha).symm, (drop_eq_of_getElem? hni hb).symm⟩

theorem source_segsFromPairs (hmatches : Matches a b 0 0 pairs) :
    source (segsFromPairs a b pairs) = a ∧ target (segsFromPairs a b pairs) = b :=
  source_segsFromPairsAt hmatches

/-- The operations of segments are the script of the alignment. -/
theorem map_edit_opsFromSegs (cursor : ℕ) (segs : List (Seg Char)) :
    (opsFromSegs cursor segs).map (Op.edit String.toList) = script cursor segs := by
  induction segs generalizing cursor with
  | nil => rfl
  | cons seg segs ih =>
    cases seg with
    | keep v => exact ih _
    | del v =>
      rw [opsFromSegs, List.map_cons, ih, script]
      rfl
    | ins v =>
      rw [opsFromSegs, List.map_cons, ih, script, Op.edit, String.toList_ofList]

/-- Two lists begin with what they have in common. -/
theorem take_commonPrefix [DecidableEq α] (a b : List α) :
    a.take (commonPrefix a b) = b.take (commonPrefix a b) ∧
      commonPrefix a b ≤ a.length ∧ commonPrefix a b ≤ b.length := by
  fun_induction commonPrefix a b with
  | case1 y a b ih =>
    refine ⟨?_, Nat.succ_le_succ ih.2.1, Nat.succ_le_succ ih.2.2⟩
    rw [List.take_succ_cons, List.take_succ_cons, ih.1]
  | case2 => exact ⟨rfl, Nat.zero_le _, Nat.zero_le _⟩
  | case3 => exact ⟨rfl, Nat.zero_le _, Nat.zero_le _⟩

/-- Two lists around what is between their common beginning and their common end. -/
theorem exists_commonEnds [DecidableEq α] (a b : List α) (p s : ℕ)
    (hp : p = commonPrefix a b) (hs : s = commonPrefix (a.drop p).reverse (b.drop p).reverse) :
    ∃ pre post, pre.length = p ∧
      a = pre ++ ((a.drop p).take (a.length - s - p) ++ post) ∧
      b = pre ++ ((b.drop p).take (b.length - s - p) ++ post) := by
  obtain ⟨hbegin, hpa, -⟩ := take_commonPrefix a b
  obtain ⟨hend, ha, hb⟩ := take_commonPrefix (a.drop p).reverse (b.drop p).reverse
  rw [← hp] at hbegin hpa
  rw [← hs, List.take_reverse, List.take_reverse] at hend
  rw [← hs, List.length_reverse, List.length_drop] at ha hb
  -- what agrees from behind is an end of both
  have hpost := List.reverse_injective hend
  rw [List.length_drop, List.length_drop] at hpost
  have hca : a.length - s - p = a.length - p - s := by omega
  have hcb : b.length - s - p = b.length - p - s := by omega
  refine ⟨a.take p, (a.drop p).drop (a.length - p - s), List.length_take_of_le hpa, ?_, ?_⟩
  · rw [hca, List.take_append_drop, List.take_append_drop]
  · rw [hcb, hpost, hbegin, List.take_append_drop, List.take_append_drop]

end ByChar

/-- A deletion and an insertion in one place are the script of an alignment. -/
theorem exists_replacement (p : ℕ) (a b : List Char) : ∃ segs : List (Seg Char),
    source segs = a ∧ target segs = b ∧
      ((if a.isEmpty then [] else [Op.delete p a.length]) ++
        (if b.isEmpty then [] else [Op.insert p (String.ofList b)])).map (Op.edit String.toList) =
      script p segs := by
  cases a with
  | nil =>
    cases b with
    | nil => exact ⟨[], rfl, rfl, rfl⟩
    | cons c b =>
      refine ⟨[.ins (c :: b)], rfl, List.append_nil _, ?_⟩
      simp [Op.edit, script]
  | cons c a =>
    cases b with
    | nil =>
      refine ⟨[.del (c :: a)], List.append_nil _, rfl, ?_⟩
      simp [Op.edit, script]
    | cons d b =>
      refine ⟨[.del (c :: a), .ins (d :: b)], List.append_nil _, List.append_nil _, ?_⟩
      simp [Op.edit, script]

/-- The edits of the difference by characters are the script of an alignment of the middle parts
of the two texts, between common ends. -/
theorem exists_alignment (old new : String) : ∃ (pre post : List Char) (segs : List (Seg Char)),
    old.toList = pre ++ (source segs ++ post) ∧ new.toList = pre ++ (target segs ++ post) ∧
      (comDiffChar old new).map (Op.edit String.toList) = script pre.length segs := by
  obtain ⟨pre, post, hpre, hold, hnew⟩ := exists_commonEnds old.toList new.toList _ _ rfl rfl
  rw [comDiffChar]
  rw [← hpre] at hold hnew ⊢
  set aMid := (old.toList.drop pre.length).take _ with haMid
  set bMid := (new.toList.drop pre.length).take _ with hbMid
  by_cases hsmall : aMid.length ≤ charLcsCap ∧ bMid.length ≤ charLcsCap
  · rw [if_pos hsmall]
    refine ⟨pre, post, cleanup (segsFromPairs aMid bMid (lcsPairs aMid bMid)), ?_, ?_,
      map_edit_opsFromSegs _ _⟩
    · rw [(source_cleanup _).1, (source_segsFromPairs (matches_lcsPairs _ _)).1]
      exact hold
    · rw [(source_cleanup _).2, (source_segsFromPairs (matches_lcsPairs _ _)).2]
      exact hnew
  · rw [if_neg hsmall]
    obtain ⟨segs, hsource, htarget, hscript⟩ := exists_replacement pre.length aMid bMid
    exact ⟨pre, post, segs, hsource ▸ hold, htarget ▸ hnew, hscript⟩

theorem applyChars_comDiffChar (old new : String) :
    applyChars old (comDiffChar old new) = new := by
  obtain ⟨pre, post, segs, hold, hnew, hscript⟩ := exists_alignment old new
  rw [applyChars, foldl_applyTo, hscript, hold, applyAll_script, ← hnew, String.ofList_toList]

end SafeHub.SGit
