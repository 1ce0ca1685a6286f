import SafeHub.Client.RefPush

/-!
# The branch of a clone and the branch of a pull

A clone checks out, as `main`, the ref of the tip whose name comes first. A pull merges the ref
that the symbolic `HEAD` of the tip names, or else `main`, `master`, or the first one. A push from
the clone sends what is checked out to `main`.

## Main definitions

* `cloneCommit`, `targetRef`, `pullCommit` — what a clone checks out and what a pull merges
* `mergeTip` — a pull, once it has the tip
* `ClonePullAgree` — clone, pull and push choose the same branch

## Main results

* `clonePullAgree_iff` — when they do
-/

namespace SafeHub

open Std (ExtTreeMap)

/-- The rest of a text after a prefix. -/
def stripPrefix (front s : String) : Option String :=
  if front.toList.isPrefixOf s.toList then some (String.ofList (s.toList.drop front.toList.length))
  else none

/-- The commit that a clone checks out as `main`. -/
def cloneCommit (tip : EncryptedRefsMap) : Option String := tip.refs.toList.head?.map Prod.snd

/-- The ref that a pull merges: that of the symbolic `HEAD`, else main or master, else the first. -/
def targetRef (tip : EncryptedRefsMap) : String :=
  let headSym := tip.head.getD ""
  match stripPrefix "ref: " headSym with
  | some r => r
  | none =>
    if tip.refs.contains "refs/heads/main" then "refs/heads/main"
    else if tip.refs.contains "refs/heads/master" then "refs/heads/master"
    else tip.refs.keys.head?.getD ""

/-- The commit that a pull merges. -/
def pullCommit (tip : EncryptedRefsMap) : Option String := tip.refs[targetRef tip]?

/-- What a pull asks of git once it has a commit. -/
structure MergeGit where
  /-- `git merge-base --is-ancestor` -/
  isAncestor : String → String → Bool
  /-- Whether `git merge --ff-only` succeeds. -/
  ffOnly : String → String → Bool
  /-- `git merge`, with the commit that comes of it. -/
  merge : String → String → Option String
  isAncestor_self (oid : String) : isAncestor oid oid = true
  /-- A merge of what is checked out is up to date. -/
  merge_self (oid : String) : merge oid oid = some oid

/-- The commit at `HEAD` after a pull of a tip. -/
def mergeTip (git : MergeGit) (head : String) (tip : EncryptedRefsMap) : Option String :=
  match pullCommit tip with
  | none => some head
  | some remoteOid =>
    if git.isAncestor head remoteOid then
      if git.ffOnly head remoteOid then some remoteOid else git.merge head remoteOid
    else if git.isAncestor remoteOid head then some head
    else git.merge head remoteOid

/-- The source and the destination of a refspec. -/
def splitRefspec (refspec : String) : String × String :=
  match refspec.toList.dropWhile (· != ':') with
  | _ :: dst => (String.ofList (refspec.toList.takeWhile (· != ':')), String.ofList dst)
  | [] =>
    if refspec = "HEAD" then ("HEAD", "refs/heads/main")
    else if "refs/".toList.isPrefixOf refspec.toList then (refspec, refspec)
    else (refspec, "refs/heads/" ++ refspec)

/-! ### Agreement -/

/-- A clone checks out the commit that a pull of the same tip merges, the pull changes nothing,
and a push of `HEAD` leaves the branch of the pull where it is. -/
structure ClonePullAgree (tip : EncryptedRefsMap) : Prop where
  commit : cloneCommit tip = pullCommit tip
  pull (git : MergeGit) {oid : String} : cloneCommit tip = some oid →
    mergeTip git oid tip = some oid
  push {git : LocalGit} {dag : Option GitDag} {force nonFf : Bool} {oid : String}
    {bundle : GitBundle} {gitRefs : RefMap} {headSymref : Option String} :
    cloneCommit tip = some oid → git.revParse "HEAD" = .ok oid →
    runWithForce git dag (splitRefspec "HEAD").1 (splitRefspec "HEAD").2 force
      (.ok (some tip.refs)) = .push bundle gitRefs headSymref nonFf →
    gitRefs[targetRef tip]? = tip.refs[targetRef tip]?

/-- Unless a tip has no refs, its symbolic `HEAD` names a ref at the commit of the first ref; and
without a symbolic `HEAD`, main is at that commit if there is a main, or else master if there is
one. -/
def FirstIsTarget (tip : EncryptedRefsMap) : Prop :=
  ∀ name oid, tip.refs.toList.head? = some (name, oid) →
    match stripPrefix "ref: " (tip.head.getD "") with
    | some r => tip.refs[r]? = some oid
    | none =>
      (∀ main, tip.refs["refs/heads/main"]? = some main → main = oid) ∧
        (tip.refs["refs/heads/main"]? = none →
          ∀ master, tip.refs["refs/heads/master"]? = some master → master = oid)

section Agreement

variable {tip : EncryptedRefsMap} {name oid : String}

/-- Without refs there is nothing to check out and nothing to merge. -/
theorem commits_of_empty (h : tip.refs.toList.head? = none) :
    cloneCommit tip = none ∧ pullCommit tip = none := by
  refine ⟨by rw [cloneCommit, h]; rfl, ?_⟩
  rw [List.head?_eq_none_iff] at h
  rw [pullCommit]
  by_contra hsome
  obtain ⟨oid, hoid⟩ := Option.ne_none_iff_exists'.mp hsome
  have hmem := ExtTreeMap.mem_toList_iff_getElem?_eq_some.mpr hoid
  rw [h] at hmem
  cases hmem

/-- A pull merges the commit of the first ref exactly if the condition says so. -/
theorem pullCommit_eq_iff (h : tip.refs.toList.head? = some (name, oid)) :
    pullCommit tip = some oid ↔ FirstIsTarget tip := by
  have hlisted : tip.refs[name]? = some oid :=
    ExtTreeMap.mem_toList_iff_getElem?_eq_some.mp (List.mem_of_mem_head? h)
  have hkey : tip.refs.keys.head? = some name := by
    rw [← ExtTreeMap.map_fst_toList_eq_keys, List.head?_map, h]
    rfl
  have hfirst : FirstIsTarget tip ↔
      match stripPrefix "ref: " (tip.head.getD "") with
      | some r => tip.refs[r]? = some oid
      | none =>
        (∀ main, tip.refs["refs/heads/main"]? = some main → main = oid) ∧
          (tip.refs["refs/heads/main"]? = none →
            ∀ master, tip.refs["refs/heads/master"]? = some master → master = oid) := by
    constructor
    · exact fun hall => hall name oid h
    · intro hone name' oid' h'
      obtain ⟨rfl, rfl⟩ := Prod.mk.inj (Option.some.inj (h.symm.trans h'))
      exact hone
  rw [hfirst, pullCommit, targetRef]
  cases stripPrefix "ref: " (tip.head.getD "") with
  | some r => rfl
  | none =>
    dsimp only
    simp only [ExtTreeMap.contains_eq_isSome_getElem?]
    cases hmain : tip.refs["refs/heads/main"]? with
    | some main => simp [hmain]
    | none =>
      cases hmaster : tip.refs["refs/heads/master"]? with
      | some master => simp [hmaster]
      | none => simp [hkey, hlisted]

end Agreement

/-- They agree exactly if the first ref of the tip is at the commit of the target. -/
theorem clonePullAgree_iff (tip : EncryptedRefsMap) : ClonePullAgree tip ↔ FirstIsTarget tip := by
  have hcommit : cloneCommit tip = pullCommit tip ↔ FirstIsTarget tip := by
    cases hfirst : tip.refs.toList.head? with
    | none =>
      obtain ⟨hclone, hpull⟩ := commits_of_empty hfirst
      refine iff_of_true (hclone.trans hpull.symm) fun name oid h => ?_
      cases hfirst.symm.trans h
    | some entry =>
      rw [← pullCommit_eq_iff hfirst, cloneCommit, hfirst]
      exact eq_comm
  rw [← hcommit]
  refine ⟨fun h => h.commit, fun h => ⟨h, ?_, ?_⟩⟩
  · intro git oid hclone
    rw [mergeTip, ← h, hclone]
    dsimp only
    rw [if_pos (git.isAncestor_self oid), git.merge_self, ite_self]
  · intro git dag force nonFf oid bundle gitRefs headSymref hclone hhead hpush
    have hread : remoteRefs force (.ok (some tip.refs)) = .ok tip.refs := rfl
    have hsrc : git.revParse (splitRefspec "HEAD").1 = .ok oid := hhead
    rw [runWithForce_of_read hread hsrc] at hpush
    dsimp only at hpush
    split_ifs at hpush
    obtain ⟨-, rfl, -, -⟩ := PushStart.push.inj hpush
    rw [pushedRefs_eq]
    by_cases hmain : targetRef tip = dstRef (splitRefspec "HEAD").2
    · -- what is pushed to the target is the commit that it has
      rw [← hmain, ExtTreeMap.getElem?_insert_self, ← hclone, h, pullCommit]
    · exact TreeMaps.getElem?_insert_of_ne hmain

/-- A branch that sorts before the default branch, at another commit. -/
def devBeforeMain : EncryptedRefsMap where
  refs := ((∅ : RefMap).insert "refs/heads/main" "a").insert "refs/heads/dev" "b"
  head := some "ref: refs/heads/main"
  pushId := ""
  chunkIds := []

theorem not_clonePullAgree_devBeforeMain : ¬ ClonePullAgree devBeforeMain := by
  intro h
  have hclone : cloneCommit devBeforeMain = some "b" := by decide +kernel
  have hpull : pullCommit devBeforeMain = some "a" := by decide +kernel
  have hcommit := h.commit
  rw [hclone, hpull] at hcommit
  exact absurd (Option.some.inj hcommit) (by decide)

end SafeHub
