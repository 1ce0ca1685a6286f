import SafeHub.Client.Push
import SafeHub.Lib.ThreeWay

/-!
# The merge of a push as a three-way merge

A push that may not drop refs merges what it names into the refs of the tip. It is the
three-way merge in which a ref that the caller leaves out is a ref that the caller left alone.
As a three-way merge that counts the caller's deletions it is not exact.

## Main definitions

* `refValues` — a ref map as a function of the name
* `DroppedUnder` — the tip has lost a ref that the caller changes

## Main results

* `reconcileRefsForCas_threeWay` — where the merge is exact
-/

namespace SafeHub

open Std (ExtTreeMap)
open ThreeWay

/-- A ref map as a function of the name. -/
def refValues (refs : RefMap) (name : String) : Option String := refs[name]?

/-- The tip no longer has a ref of the baseline that the caller changes. -/
def DroppedUnder (base ours theirs : String → Option String) (name : String) : Prop :=
  Changed base ours name ∧ base name ≠ none ∧ theirs name = none

section Merge

variable {baseline caller remote merged : RefMap}

/-- A merge that may not drop refs passes exactly where no name that the tip has is in
conflict. -/
theorem mergeable_iff_conflict_free :
    Mergeable baseline caller remote ↔
      ∀ name, Conflict (refValues baseline) (upsert (refValues baseline) (refValues caller))
        (refValues remote) name → remote[name]? = none := by
  simp only [Mergeable, conflict_upsert_iff, refValues]
  constructor
  · rintro hmergeable name ⟨oid, hcaller, hbase, hmoved, hother⟩
    rcases hmergeable name oid hcaller hbase with hnone | hsame | hours
    · exact hnone
    · exact absurd hsame hmoved
    · exact absurd hours hother
  · intro hfree name oid hcaller hbase
    by_contra hmoved
    simp only [not_or] at hmoved
    exact hmoved.1 (hfree name ⟨oid, hcaller, hbase, hmoved.2⟩)

theorem exists_reconcileRefsForCas_iff :
    (∃ merged, reconcileRefsForCas baseline caller remote false = .ok merged) ↔
      Mergeable baseline caller remote := by
  simp only [reconcileRefsForCas_eq_ok_iff, exists_and_left, exists_eq', and_true]

theorem reconcileRefsForCas_eq_error_iff :
    (∃ e, reconcileRefsForCas baseline caller remote false = .error e) ↔
      ¬ Mergeable baseline caller remote := by
  rw [← exists_reconcileRefsForCas_iff]
  cases reconcileRefsForCas baseline caller remote false <;> simp

/-- What a merge that may not drop refs holds under a name. -/
theorem mergedAt_of_reconcileRefsForCas
    (h : reconcileRefsForCas baseline caller remote false = .ok merged) (name : String) :
    MergedAt (refValues baseline) (upsert (refValues baseline) (refValues caller))
      (refValues remote) (refValues merged) name := by
  have hmerged : merged[name]? = _ := getElem?_merged h
  simp only [Bool.false_eq_true, if_false] at hmerged
  rw [MergedAt, changed_upsert_iff]
  simp only [refValues, hmerged]
  constructor
  · rintro ⟨hnamed, hbase⟩
    obtain ⟨oid, hoid⟩ := Option.ne_none_iff_exists'.mp hnamed
    have hours : refValues caller name = some oid := hoid
    rw [if_neg hbase, hoid, Option.some_or, upsert_of_named hours]
  · intro hkept
    split_ifs with hsame
    · rfl
    · -- the caller's map lacks the name
      have hnone : caller[name]? = none := by
        by_contra hnamed
        exact hkept ⟨hnamed, hsame⟩
      rw [hnone, Option.none_or]

end Merge

/-- A push that may not drop refs is merged three ways, with the refs that the caller leaves out
counted as left alone. It fails only on a conflict, it fails on every conflict over a ref that
the tip has, and it is right about every ref that has not been dropped under the caller. -/
theorem reconcileRefsForCas_threeWay (baseline caller remote : RefMap) :
    let ours := upsert (refValues baseline) (refValues caller)
    ((∃ e, reconcileRefsForCas baseline caller remote false = .error e) →
      ∃ name, Conflict (refValues baseline) ours (refValues remote) name) ∧
    ((∃ name, Conflict (refValues baseline) ours (refValues remote) name ∧
        ¬ DroppedUnder (refValues baseline) ours (refValues remote) name) →
      ∃ e, reconcileRefsForCas baseline caller remote false = .error e) ∧
    ∀ merged, reconcileRefsForCas baseline caller remote false = .ok merged →
      ∀ name, ¬ DroppedUnder (refValues baseline) ours (refValues remote) name →
        MergedAt (refValues baseline) ours (refValues remote) (refValues merged) name := by
  intro ours
  rw [reconcileRefsForCas_eq_error_iff, mergeable_iff_conflict_free]
  refine ⟨fun hfails => ?_, ?_, fun merged h name _ => mergedAt_of_reconcileRefsForCas h name⟩
  · obtain ⟨name, hname⟩ := not_forall.mp hfails
    exact ⟨name, (Classical.not_imp.mp hname).1⟩
  · -- a conflict that passes is one over a ref that the tip has dropped
    rintro ⟨name, hconflict, hkept⟩ hfree
    have hnone : refValues remote name = none := hfree name hconflict
    refine hkept ⟨hconflict.1, fun hbase => ?_, hnone⟩
    exact hconflict.2.1 (hnone.trans hbase.symm)

/-- The caller deletes a ref that the remote leaves alone, and the merge keeps it. -/
theorem reconcileRefsForCas_keeps_deleted :
    ¬ ∀ baseline caller remote : RefMap,
      MergesExactly (refValues baseline) (refValues caller) (refValues remote)
        ((reconcileRefsForCas baseline caller remote false).toOption.map refValues) := by
  intro hexact
  set baseline : RefMap := (∅ : RefMap).insert "refs/heads/old" "1" with hbaseline
  have hmergeable : Mergeable baseline ∅ baseline := fun name oid hcaller _ => by
    rw [ExtTreeMap.getElem?_empty] at hcaller
    cases hcaller
  obtain ⟨merged, hmerged⟩ := exists_reconcileRefsForCas_iff.mpr hmergeable
  have hright := (hexact baseline ∅ baseline).2 (refValues merged)
    (by rw [hmerged]; rfl) "refs/heads/old"
  have hbase : refValues baseline "refs/heads/old" = some "1" := by
    rw [refValues, hbaseline, ExtTreeMap.getElem?_insert_self]
  have hdeleted : Changed (refValues baseline) (refValues ∅) "refs/heads/old" := by
    rw [Changed, hbase, refValues, ExtTreeMap.getElem?_empty]
    exact (Option.some_ne_none _).symm
  have hgone := hright.1 hdeleted
  rw [refValues, getElem?_merged hmerged, ExtTreeMap.getElem?_empty] at hgone
  change baseline["refs/heads/old"]? = _ at hbase
  simp [hbase, refValues] at hgone

end SafeHub
