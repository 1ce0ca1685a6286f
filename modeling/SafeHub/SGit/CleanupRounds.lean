import SafeHub.SGit.CharDiff
import Mathlib.Data.List.Chain

/-!
# Rounds of the clean-up

The clean-up of a difference by characters repeats its round until a round reports no change. An
equality is given up or kept by its length and its place alone. What is given up between two
changes makes one run of them, so after a round no two segments of one kind are adjacent and every
equality between changes is long. The next round finds nothing to do there.

## Main definitions

* `cleanupWithin` — the loop, for a number of rounds
* `Tidy` — segments that a round leaves as they are

## Main results

* `tidy_round` — every round makes them tidy
* `cleanupWithin_eq_cleanup` — the second round is the last, and neither text changes
-/

namespace SafeHub.SGit

open EditScript

/-- The loop of `cleanup`, for at most so many rounds. -/
def cleanupWithin : ℕ → List (Seg Char) → Option (List (Seg Char))
  | 0, _ => none
  | n + 1, segs => if (round segs).2 then cleanupWithin n (round segs).1 else some (round segs).1

/-- The text of a segment. -/
def units : Seg Char → List Char
  | .keep e => e
  | .del e => e
  | .ins e => e

/-- The segments that may follow another: an insertion comes after the deletion in its place. -/
def Follows : Seg Char → Seg Char → Prop
  | .keep _, .keep _ => False
  | .del _, .del _ => False
  | .ins _, .del _ => False
  | .ins _, .ins _ => False
  | _, _ => True

/-- No equality is short. -/
def LongKeeps (segs : List (Seg Char)) : Prop := ∀ e, .keep e ∈ segs → editCost ≤ e.length

/-- Segments that a round leaves as they are. -/
structure Tidy (segs : List (Seg Char)) : Prop where
  chain : segs.IsChain Follows
  nonempty : ∀ seg ∈ segs, units seg ≠ []
  long : LongKeeps segs.tail.dropLast

variable {out merged run segs more : List (Seg Char)} {seg : Seg Char} {e : List Char}
variable {changed : Bool}

theorem LongKeeps.dropLast (h : LongKeeps segs) : LongKeeps segs.dropLast :=
  fun e hmem => h e (List.mem_of_mem_dropLast hmem)

theorem LongKeeps.append (h : LongKeeps segs) (h' : LongKeeps more) : LongKeeps (segs ++ more) :=
  fun e hmem => (List.mem_append.mp hmem).elim (h e) (h' e)

theorem longKeeps_nil : LongKeeps [] := fun _ hmem => absurd hmem List.not_mem_nil

theorem longKeeps_of_keeps (h : keeps run = 0) : LongKeeps run :=
  fun _ hmem => absurd rfl (List.countP_eq_zero.mp h _ hmem)

/-- Where the last segment does not count. -/
theorem longKeeps_dropLast_cons : LongKeeps (seg :: segs).dropLast ↔
    (∀ e, seg = .keep e → segs ≠ [] → editCost ≤ e.length) ∧ LongKeeps segs.dropLast := by
  cases segs with
  | nil => exact ⟨fun _ => ⟨fun e _ hne => absurd rfl hne, longKeeps_nil⟩, fun _ => longKeeps_nil⟩
  | cons next segs =>
    rw [List.dropLast_cons_of_ne_nil (List.cons_ne_nil _ _)]
    constructor
    · intro h
      exact ⟨fun e heq _ => h e (heq ▸ List.mem_cons_self),
        fun e hmem => h e (List.mem_cons_of_mem _ hmem)⟩
    · rintro ⟨hfirst, hrest⟩ e hmem
      rcases List.mem_cons.mp hmem with heq | hlater
      · exact hfirst e heq.symm (List.cons_ne_nil _ _)
      · exact hrest e hlater

theorem LongKeeps.tail_append (h : LongKeeps segs.tail) (h' : LongKeeps more) :
    LongKeeps (segs ++ more).tail := by
  cases segs with
  | nil => exact fun e hmem => h' e (List.mem_of_mem_tail hmem)
  | cons seg segs => exact h.append h'

/-! ### Equalities that are given up -/

/-- The first segment stays. -/
theorem absorb_first : absorb [] changed (seg :: segs) = absorb [seg] changed segs := by
  cases seg with
  | keep e => rfl
  | del e => rfl
  | ins e => rfl

/-- An equality after it is given up if it is short and not the last segment. -/
theorem absorb_keep (hout : out ≠ []) : absorb out changed (.keep e :: segs) =
    if segs ≠ [] ∧ e.length < editCost then absorb (out ++ [.del e, .ins e]) true segs
    else absorb (out ++ [.keep e]) changed segs := by
  rw [absorb]
  simp [hout]

/-- Long equalities stay. -/
theorem absorb_of_long (hout : out ≠ []) (h : LongKeeps segs.dropLast) :
    absorb out changed segs = (out ++ segs, changed) := by
  induction segs generalizing out with
  | nil => rw [absorb, List.append_nil]
  | cons seg segs ih =>
    obtain ⟨hfirst, hrest⟩ := longKeeps_dropLast_cons.mp h
    have hstays : absorb out changed (seg :: segs) = absorb (out ++ [seg]) changed segs := by
      cases seg with
      | keep e =>
        rw [absorb_keep hout, if_neg]
        exact fun hshort => absurd (hfirst e rfl hshort.1) (Nat.not_le_of_gt hshort.2)
      | del e => rfl
      | ins e => rfl
    rw [hstays, ih (List.append_ne_nil_of_left_ne_nil hout _) hrest, List.append_assoc]
    rfl

/-- No others are left, except as the last segment. -/
theorem exists_absorb (hout : out ≠ []) : ∃ rest, (absorb out changed segs).1 = out ++ rest ∧
    LongKeeps rest.dropLast ∧ (segs = [] → rest = []) := by
  induction segs generalizing out changed with
  | nil => exact ⟨[], (List.append_nil _).symm, longKeeps_nil, fun _ => rfl⟩
  | cons seg segs ih =>
    have hgrown (new : List (Seg Char)) : out ++ new ≠ [] :=
      List.append_ne_nil_of_left_ne_nil hout _
    -- a segment that is passed on as it is
    have hstays (h : absorb out changed (seg :: segs) = absorb (out ++ [seg]) changed segs)
        (hlong : ∀ e, seg = .keep e → segs ≠ [] → editCost ≤ e.length) :
        ∃ rest, (absorb out changed (seg :: segs)).1 = out ++ rest ∧
          LongKeeps rest.dropLast ∧ (seg :: segs = [] → rest = []) := by
      obtain ⟨rest, hrest, hlong', hnil⟩ := @ih (out ++ [seg]) changed (hgrown _)
      refine ⟨seg :: rest, ?_, longKeeps_dropLast_cons.mpr ⟨fun e heq hne => ?_, hlong'⟩,
        fun hsegs => absurd hsegs (List.cons_ne_nil _ _)⟩
      · rw [h, hrest, List.append_assoc]
        rfl
      · exact hlong e heq (mt hnil hne)
    cases seg with
    | keep e =>
      by_cases hgiven : segs ≠ [] ∧ e.length < editCost
      · -- a short equality before other segments becomes two changes
        obtain ⟨rest, hrest, hlong, -⟩ := @ih (out ++ [.del e, .ins e]) true (hgrown _)
        refine ⟨.del e :: .ins e :: rest, ?_, ?_, fun hsegs => absurd hsegs (List.cons_ne_nil _ _)⟩
        · rw [absorb_keep hout, if_pos hgiven, hrest, List.append_assoc]
          rfl
        · rw [longKeeps_dropLast_cons, longKeeps_dropLast_cons]
          exact ⟨fun e' heq => (by cases heq), fun e' heq => (by cases heq), hlong⟩
      · apply hstays
        · rw [absorb_keep hout, if_neg hgiven]
        · intro e' heq hne
          obtain rfl := Seg.keep.inj heq
          exact Nat.le_of_not_lt fun hshort => hgiven ⟨hne, hshort⟩
    | del e => exact hstays rfl fun e' heq => (by cases heq)
    | ins e => exact hstays rfl fun e' heq => (by cases heq)

/-- So no equality between two segments is short. -/
theorem long_absorb (changed : Bool) (segs : List (Seg Char)) :
    LongKeeps (absorb [] changed segs).1.tail.dropLast := by
  cases segs with
  | nil => exact longKeeps_nil
  | cons seg segs =>
    obtain ⟨rest, hrest, hlong, -⟩ := @exists_absorb [seg] segs changed (List.cons_ne_nil _ _)
    rw [absorb_first, hrest]
    exact hlong

/-- And if none is, none is given up. -/
theorem absorb_of_tidy (h : Tidy segs) : absorb [] changed segs = (segs, changed) := by
  cases segs with
  | nil => rfl
  | cons seg segs =>
    have hlong : LongKeeps segs.dropLast := h.long
    rw [absorb_first, absorb_of_long (List.cons_ne_nil _ _) hlong, List.singleton_append]

/-! ### Segments that are joined -/

/-- A run of changes collapses to a deletion and an insertion that are not empty. -/
theorem tidy_collapse (run : List (Seg Char)) :
    (collapse run).IsChain Follows ∧ ∀ seg ∈ collapse run, units seg ≠ [] := by
  rw [collapse]
  split_ifs with hdel hins hins
  · exact ⟨List.IsChain.nil, List.forall_mem_nil _⟩
  · exact ⟨List.IsChain.singleton _, List.forall_mem_singleton.mpr (mt List.isEmpty_iff.mpr hins)⟩
  · exact ⟨List.IsChain.singleton _, List.forall_mem_singleton.mpr (mt List.isEmpty_iff.mpr hdel)⟩
  · refine ⟨List.isChain_pair.mpr trivial, List.forall_mem_cons.mpr ⟨?_, ?_⟩⟩
    · exact mt List.isEmpty_iff.mpr hdel
    · exact List.forall_mem_singleton.mpr (mt List.isEmpty_iff.mpr hins)

/-- Changes that follow each other are a deletion and an insertion at most. -/
theorem cases_of_chain (hrun : keeps run = 0) (hchain : run.IsChain Follows) :
    run = [] ∨ (∃ d, run = [.del d]) ∨ (∃ i, run = [.ins i]) ∨ ∃ d i, run = [.del d, .ins i] := by
  match run, hrun, hchain with
  | [], _, _ => exact .inl rfl
  | .keep e :: run, hrun, _ =>
    rw [keeps_cons_keep] at hrun
    cases hrun
  | [.del d], _, _ => exact .inr (.inl ⟨d, rfl⟩)
  | [.ins i], _, _ => exact .inr (.inr (.inl ⟨i, rfl⟩))
  | [.del d, .ins i], _, _ => exact .inr (.inr (.inr ⟨d, i, rfl⟩))
  | _ :: .keep e :: run, hrun, _ =>
    rw [keeps, List.countP_cons, ← keeps, keeps_cons_keep] at hrun
    omega
  | .del d :: .del d' :: run, _, hchain => exact (List.isChain_cons_cons.mp hchain).1.elim
  | .ins i :: .del d :: run, _, hchain => exact (List.isChain_cons_cons.mp hchain).1.elim
  | .ins i :: .ins i' :: run, _, hchain => exact (List.isChain_cons_cons.mp hchain).1.elim
  | .del d :: .ins i :: .keep e :: run, hrun, _ =>
    rw [keeps_cons_del, keeps_cons_ins, keeps_cons_keep] at hrun
    cases hrun
  | .del d :: .ins i :: .del d' :: run, _, hchain =>
    exact (List.isChain_cons_cons.mp (List.isChain_cons_cons.mp hchain).2).1.elim
  | .del d :: .ins i :: .ins i' :: run, _, hchain =>
    exact (List.isChain_cons_cons.mp (List.isChain_cons_cons.mp hchain).2).1.elim

/-- And so they stay. -/
theorem collapse_of_chain (hrun : keeps run = 0) (hchain : run.IsChain Follows)
    (hnonempty : ∀ seg ∈ run, units seg ≠ []) : collapse run = run ∧ run.length ≤ 2 := by
  rcases cases_of_chain hrun hchain with rfl | ⟨d, rfl⟩ | ⟨i, rfl⟩ | ⟨d, i, rfl⟩
  · exact ⟨rfl, Nat.zero_le _⟩
  · have hd : d ≠ [] := hnonempty _ List.mem_cons_self
    exact ⟨by simp [collapse, Seg.source, Seg.target, hd], Nat.le_succ 1⟩
  · have hi : i ≠ [] := hnonempty _ List.mem_cons_self
    exact ⟨by simp [collapse, Seg.source, Seg.target, hi], Nat.le_succ 1⟩
  · have hd : d ≠ [] := hnonempty _ List.mem_cons_self
    have hi : i ≠ [] := hnonempty (.ins i) (List.mem_cons_of_mem _ List.mem_cons_self)
    exact ⟨by simp [collapse, Seg.source, Seg.target, hd, hi], le_rfl⟩

@[simp] theorem collapse_nil : collapse [] = [] := rfl

/-- What an equality makes of the segments before it. -/
def addKeep (merged : List (Seg Char)) (e : List Char) : List (Seg Char) :=
  if e.isEmpty then merged
  else
    match merged.getLast? with
    | some (.keep prev) => merged.dropLast ++ [.keep (prev ++ e)]
    | _ => merged ++ [.keep e]

/-- An empty equality is dropped. -/
@[simp] theorem addKeep_nil : addKeep merged [] = merged := if_pos rfl

theorem exists_merge_keep : ∃ changed', merge merged run changed (.keep e :: segs) =
    merge (addKeep (merged ++ collapse run) e) [] changed' segs := by
  rw [merge, addKeep]
  split_ifs with hempty
  · exact ⟨_, rfl⟩
  · cases hlast : (merged ++ collapse run).getLast? with
    | none => exact ⟨_, rfl⟩
    | some last =>
      cases last with
      | keep prev => exact ⟨true, rfl⟩
      | del d => exact ⟨_, rfl⟩
      | ins i => exact ⟨_, rfl⟩

/-- Before a change an equality may stand, and no other before an equality. -/
theorem keep_follows_iff : Follows (.keep e) seg ↔ isKeep seg = false := by
  cases seg with
  | keep e => exact ⟨fun h => h.elim, fun h => by cases h⟩
  | del d => exact ⟨fun _ => rfl, fun _ => trivial⟩
  | ins i => exact ⟨fun _ => rfl, fun _ => trivial⟩

theorem follows_keep_iff : Follows seg (.keep e) ↔ isKeep seg = false := by
  cases seg with
  | keep e => exact ⟨fun h => h.elim, fun h => by cases h⟩
  | del d => exact ⟨fun _ => rfl, fun _ => trivial⟩
  | ins i => exact ⟨fun _ => rfl, fun _ => trivial⟩

/-- Segments that others may follow. -/
structure Merged (segs : List (Seg Char)) : Prop where
  chain : segs.IsChain Follows
  nonempty : ∀ seg ∈ segs, units seg ≠ []
  long : LongKeeps segs.tail

/-- Segments that a change may follow. -/
structure Ready (segs : List (Seg Char)) : Prop extends Merged segs where
  last : ∀ seg ∈ segs.getLast?, isKeep seg = true

theorem ready_nil : Ready [] :=
  ⟨⟨List.IsChain.nil, List.forall_mem_nil _, longKeeps_nil⟩, fun _ h => by cases h⟩

theorem Merged.tidy (h : Merged merged) : Tidy merged := ⟨h.chain, h.nonempty, h.long.dropLast⟩

theorem Ready.collapse (h : Ready merged) (run : List (Seg Char)) :
    Merged (merged ++ SGit.collapse run) := by
  obtain ⟨hchain, hnonempty⟩ := tidy_collapse run
  refine ⟨h.chain.append hchain fun seg hseg next hnext => ?_, ?_,
    h.long.tail_append (longKeeps_of_keeps keeps_collapse)⟩
  · have hnext' : isKeep next = false :=
      Bool.eq_false_iff.mpr (List.countP_eq_zero.mp keeps_collapse _ (List.mem_of_mem_head? hnext))
    cases seg with
    | keep e => exact keep_follows_iff.mpr hnext'
    | del d => cases h.last _ hseg
    | ins i => cases h.last _ hseg
  · exact fun seg hseg => (List.mem_append.mp hseg).elim (h.nonempty seg) (hnonempty seg)

/-- An equality is joined with one right before it, and does not get shorter. -/
theorem Merged.exists_addKeep (h : Merged merged) (he : e ≠ []) : ∃ front e',
    addKeep merged e = front ++ [.keep e'] ∧ e.length ≤ e'.length ∧ front <+: merged ∧
      ∀ seg ∈ front.getLast?, isKeep seg = false := by
  rw [addKeep, if_neg (mt List.isEmpty_iff.mp he)]
  cases hlast : merged.getLast? with
  | none =>
    obtain rfl := List.getLast?_eq_none_iff.mp hlast
    exact ⟨[], e, rfl, le_rfl, List.prefix_rfl, fun _ hseg => by cases hseg⟩
  | some last =>
    cases last with
    | keep prev =>
      obtain ⟨front, rfl⟩ := List.getLast?_eq_some_iff.mp hlast
      refine ⟨front, prev ++ e, ?_, ?_, List.prefix_append _ _, fun seg hseg => ?_⟩
      · rw [List.dropLast_concat]
      · rw [List.length_append]
        exact Nat.le_add_left _ _
      · exact follows_keep_iff.mp ((List.isChain_append.mp h.chain).2.2 seg hseg _ rfl)
    | del d =>
      exact ⟨merged, e, rfl, le_rfl, List.prefix_rfl, fun seg hseg => by
        obtain rfl := Option.some.inj (hlast.symm.trans hseg)
        rfl⟩
    | ins i =>
      exact ⟨merged, e, rfl, le_rfl, List.prefix_rfl, fun seg hseg => by
        obtain rfl := Option.some.inj (hlast.symm.trans hseg)
        rfl⟩

/-- The last equality may be short, but no other segments follow it then. -/
theorem Merged.addKeep (h : Merged merged) (he : e ≠ []) : Tidy (addKeep merged e) ∧
    (editCost ≤ e.length → Ready (SGit.addKeep merged e)) := by
  obtain ⟨front, e', hadd, hle, hfront, hlast⟩ := h.exists_addKeep he
  have hbefore := List.IsChain.prefix h.chain hfront
  have hchain : (front ++ [Seg.keep e']).IsChain Follows := by
    refine hbefore.append (List.IsChain.singleton _) fun seg hseg next hnext => ?_
    obtain rfl := Option.some.inj hnext
    exact follows_keep_iff.mpr (hlast seg hseg)
  have hnonempty : ∀ seg ∈ front ++ [Seg.keep e'], units seg ≠ [] := by
    intro seg hseg
    rcases List.mem_append.mp hseg with hbefore | hkeep
    · exact h.nonempty seg (hfront.subset hbefore)
    · obtain rfl := List.mem_singleton.mp hkeep
      exact List.ne_nil_of_length_pos ((List.length_pos_iff.mpr he).trans_le hle)
  have hlong : LongKeeps front.tail := by
    intro e'' hmem
    apply h.long e''
    rw [← List.drop_one] at hmem ⊢
    exact (hfront.drop 1).subset hmem
  rw [hadd]
  constructor
  · refine ⟨hchain, hnonempty, ?_⟩
    cases front with
    | nil => exact longKeeps_nil
    | cons seg front =>
      rw [List.cons_append, List.tail_cons, List.dropLast_concat]
      exact hlong
  · intro hlen
    refine ⟨⟨hchain, hnonempty, hlong.tail_append fun e'' hmem => ?_⟩, fun seg hseg => ?_⟩
    · obtain rfl := Seg.keep.inj (List.mem_singleton.mp hmem)
      exact hlen.trans hle
    · rw [List.getLast?_concat] at hseg
      obtain rfl := Option.some.inj hseg
      rfl

/-! ### A round -/

/-- A merge joins what is to be joined. -/
theorem tidy_merge (hsegs : LongKeeps segs.dropLast) (hmerged : Ready merged) :
    Tidy (merge merged run changed segs).1 := by
  induction segs generalizing merged run changed with
  | nil => exact (hmerged.collapse run).tidy
  | cons seg segs ih =>
    obtain ⟨hfirst, hrest⟩ := longKeeps_dropLast_cons.mp hsegs
    cases seg with
    | del d => exact ih hrest hmerged
    | ins i => exact ih hrest hmerged
    | keep e =>
      obtain ⟨changed', hmerge⟩ := @exists_merge_keep merged run segs e changed
      rw [hmerge]
      by_cases hlast : segs = []
      · -- nothing follows, so the equality may be short or empty
        rw [hlast, merge, collapse_nil, List.append_nil]
        by_cases he : e = []
        · rw [he, addKeep_nil]
          exact (hmerged.collapse run).tidy
        · exact ((hmerged.collapse run).addKeep he).1
      · have hlong := hfirst e rfl hlast
        have he : e ≠ [] := List.ne_nil_of_length_pos (Nat.zero_lt_of_lt hlong)
        exact ih hrest (((hmerged.collapse run).addKeep he).2 hlong)

/-- Before the first equality there is nothing to join it with. -/
theorem ready_addKeep (e : List Char) : Ready (addKeep [] e) := by
  by_cases he : e = []
  · rw [he, addKeep_nil]
    exact ready_nil
  · rw [addKeep, if_neg (mt List.isEmpty_iff.mp he)]
    refine ⟨⟨List.IsChain.singleton _, List.forall_mem_singleton.mpr he, longKeeps_nil⟩, ?_⟩
    intro seg hseg
    obtain rfl := Option.some.inj hseg
    rfl

/-- A round makes segments tidy. -/
theorem tidy_round (segs : List (Seg Char)) : Tidy (round segs).1 := by
  have hlong := long_absorb false segs
  rw [round]
  generalize (absorb [] false segs).1 = absorbed at hlong
  generalize (absorb [] false segs).2 = changed
  cases absorbed with
  | nil => exact ready_nil.toMerged.tidy
  | cons seg absorbed =>
    cases seg with
    | del d =>
      rw [merge_cons rfl]
      exact tidy_merge hlong ready_nil
    | ins i =>
      rw [merge_cons rfl]
      exact tidy_merge hlong ready_nil
    | keep e =>
      obtain ⟨changed', hmerge⟩ := @exists_merge_keep [] [] absorbed e changed
      rw [hmerge]
      exact tidy_merge hlong (ready_addKeep e)

/-- After a run that stays, an equality is put with no other before it. -/
theorem merge_keep (hcollapse : collapse run = run) (hshort : run.length ≤ 2) (he : e ≠ [])
    (hlast : ∀ seg ∈ (merged ++ run).getLast?, isKeep seg = false) :
    merge merged run changed (.keep e :: segs) =
      merge (merged ++ run ++ [.keep e]) [] changed segs := by
  rw [merge, hcollapse, decide_eq_false (Nat.not_lt_of_le hshort), Bool.or_false,
    if_neg (mt List.isEmpty_iff.mp he)]
  split
  · next prev hprev => cases hlast _ hprev
  · rfl

/-- In tidy segments nothing is to be joined. -/
theorem merge_of_chain (hrun : keeps run = 0) (hchain : (merged ++ (run ++ segs)).IsChain Follows)
    (hnonempty : ∀ seg ∈ run ++ segs, units seg ≠ []) :
    merge merged run changed segs = (merged ++ (run ++ segs), changed) := by
  induction segs generalizing merged run with
  | nil =>
    rw [List.append_nil] at hchain hnonempty ⊢
    obtain ⟨hcollapse, hshort⟩ := collapse_of_chain hrun hchain.right_of_append hnonempty
    rw [merge, hcollapse, decide_eq_false (Nat.not_lt_of_le hshort), Bool.or_false]
  | cons seg segs ih =>
    by_cases hseg : isKeep seg = false
    · -- a change goes to the end of its run
      have hgrown : run ++ seg :: segs = run ++ [seg] ++ segs := by
        rw [List.append_assoc, List.singleton_append]
      rw [hgrown] at hchain hnonempty ⊢
      rw [merge_cons hseg]
      apply ih _ hchain hnonempty
      rw [keeps_append, hrun, keeps_cons hseg, keeps_nil]
    · cases seg with
      | del d => exact absurd rfl hseg
      | ins i => exact absurd rfl hseg
      | keep e =>
        -- the run is over, and the segment before the equality is none itself
        obtain ⟨hcollapse, hshort⟩ := collapse_of_chain hrun hchain.right_of_append.left_of_append
          fun seg hmem => hnonempty seg (List.mem_append_left _ hmem)
        have he : e ≠ [] :=
          hnonempty (.keep e) (List.mem_append_right _ List.mem_cons_self)
        rw [← List.append_assoc] at hchain
        have hlast : ∀ seg ∈ (merged ++ run).getLast?, isKeep seg = false :=
          fun seg hmem => follows_keep_iff.mp ((List.isChain_append.mp hchain).2.2 seg hmem _ rfl)
        have hgrown : merged ++ run ++ Seg.keep e :: segs =
            merged ++ run ++ [.keep e] ++ ([] ++ segs) := by
          rw [List.append_assoc _ [Seg.keep e], List.nil_append, List.singleton_append]
        rw [← List.append_assoc, hgrown, merge_keep hcollapse hshort he hlast]
        rw [hgrown] at hchain
        exact ih rfl hchain fun seg hmem =>
          hnonempty seg (List.mem_append_right _ (List.mem_cons_of_mem _ hmem))

/-- A round leaves tidy segments as they are. -/
theorem round_of_tidy (h : Tidy segs) : round segs = (segs, false) := by
  rw [round, absorb_of_tidy h]
  exact merge_of_chain rfl h.chain h.nonempty

/-- The clean-up is done with the first round. -/
theorem cleanup_eq (segs : List (Seg Char)) : cleanup segs = (round segs).1 := by
  have hround := round_of_tidy (tidy_round segs)
  rw [cleanup]
  split_ifs
  · rw [cleanup, dif_neg, hround]
    rw [hround]
    exact Bool.false_ne_true
  · rfl

/-- What the clean-up leaves is tidy. -/
theorem tidy_cleanup (segs : List (Seg Char)) : Tidy (cleanup segs) := by
  rw [cleanup_eq]
  exact tidy_round segs

/-- On every list of segments the loop ends, with its second round at the latest, and both sides of
the difference are as before. -/
theorem cleanupWithin_eq_cleanup (segs : List (Seg Char)) :
    (∀ n, cleanupWithin (n + 2) segs = some (cleanup segs)) ∧
      source (cleanup segs) = source segs ∧ target (cleanup segs) = target segs := by
  refine ⟨fun n => ?_, source_cleanup segs⟩
  have hround := round_of_tidy (tidy_round segs)
  rw [cleanupWithin, cleanup_eq]
  split_ifs
  · -- the second round finds nothing to do
    rw [cleanupWithin, hround]
    rfl
  · rfl

end SafeHub.SGit
