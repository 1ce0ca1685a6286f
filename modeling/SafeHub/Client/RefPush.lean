import SafeHub.Client.Push
import SafeHub.Lib.Reachability

/-!
# The push command and git

What the push command does before it calls the client: it resolves its source, has git make a
bundle of what the remote lacks, and checks the update. Git is a parameter.

## Main definitions

* `LocalGit` — what the command asks of the local repository
* `buildBundleAndRefs`, `runWithForce` — the command
* `BelowPublished` — the source is an ancestor of another ref of the remote

## Main results

* `succeeds_runWithForce_iff` — which permitted updates can be pushed
-/

namespace SafeHub

open Reachability
open Std (ExtTreeMap)

/-- A git bundle: the objects that its tips reach and the excluded object ids do not. -/
structure GitBundle where
  tips : List String
  excluded : List String
  deriving DecidableEq, Repr

/-- What the push command asks of the local repository. -/
structure LocalGit where
  /-- `git rev-parse`, with what it reports when it fails. -/
  revParse : String → Except String String
  /-- `git cat-file -e {oid}^{commit}` -/
  hasCommit : String → Bool
  /-- Whether `git bundle create` with a source and negative revisions succeeds. -/
  bundleCreate : String → List String → Bool

/-- `git bundle create` of a source fails exactly when no commit is reachable from the source and
not from the excluded object ids. git makes no bundle of a source that names no ref, so this is
asked of one source and not of all that resolve. -/
def LocalGit.RefusesEmpty (git : LocalGit) (parents : String → String → Prop) (src : String) :
    Prop :=
  ∀ oid negatives, git.revParse src = .ok oid → (∀ ex ∈ negatives, git.hasCommit ex = true) →
    (git.bundleCreate src negatives = true ↔
      (delta parents {oid} {ex | ex ∈ negatives}).Nonempty)

/-- The object ids of a ref map. -/
def refOids (refs : RefMap) : List String := refs.toList.map Prod.snd

/-- The object ids that are left out of a bundle: those that are there and not the source. -/
def LocalGit.negatives (git : LocalGit) (oid : String) (exclude : List String) : List String :=
  exclude.filter fun ex => ex != oid && git.hasCommit ex

/-- What a push reports when git makes no bundle. -/
def bundleFailed (src : String) : ClientError :=
  .other (s!"git bundle create failed for {src}; refusing to push. Shipping a " ++
    "placeholder payload would record a head that no reader can replay, " ++
    "breaking every later clone and pull of this repository.")

/-- Build the push bundle, with the ref it moves and the symbolic HEAD. -/
def buildBundleAndRefs (git : LocalGit) (src dst : String) (exclude : List String) :
    Except ClientError (GitBundle × RefMap × Option String) :=
  match git.revParse src with
  | .error stderr => .error (.other s!"git rev-parse {src} failed: {stderr}")
  | .ok oid =>
    let negatives := git.negatives oid exclude
    if git.bundleCreate src negatives then
      .ok (⟨[oid], negatives⟩, (∅ : RefMap).insert (dstRef dst) oid,
        some ("ref: " ++ dstRef dst))
    else .error (bundleFailed src)

/-- What a push command does once it has the tip. -/
inductive PushStart
  /-- The tip cannot be read, so a fast-forward cannot be proven. -/
  | unverified (error : ClientError)
  | upToDate
  /-- There is no bundle to push. -/
  | unbundled (error : ClientError)
  /-- The remote contains work that is not here. -/
  | rejected
  /-- Call the client. -/
  | push (bundle : GitBundle) (gitRefs : RefMap) (headSymref : Option String) (nonFf : Bool)

/-- The refs of the tip that was read. A forced push goes on without those of an unreadable
tip. -/
def remoteRefs (force : Bool) (tip : Except ClientError (Option RefMap)) :
    Except ClientError RefMap :=
  match tip with
  | .ok refs => .ok (refs.getD ∅)
  | .error e => if force then .ok ∅ else .error e

/-- The push command, from the refs of the tip it has read to the call of the client. -/
def runWithForce (git : LocalGit) (dag : Option GitDag) (src dst : String) (force : Bool)
    (tip : Except ClientError (Option RefMap)) : PushStart :=
  match remoteRefs force tip with
  | .error e => .unverified e
  | .ok remote =>
    if (git.revParse src).toOption.any fun oid => remote[dstRef dst]? == some oid then .upToDate
    else
      match buildBundleAndRefs git src dst (refOids remote) with
      | .error e => .unbundled e
      | .ok (bundle, refs, headSymref) =>
        let refs := orInsert refs remote
        let gitRefs := match git.revParse src with
          | .ok oid => refs.insert (dstRef dst) oid
          | .error _ => refs
        let nonFf := recomputedNonFf dag remote gitRefs
        if nonFf && !force then .rejected
        else .push bundle gitRefs headSymref (nonFf || force)

/-- The command ends well, or goes on to the client. -/
def PushStart.Succeeds : PushStart → Prop
  | .upToDate => True
  | .push .. => True
  | _ => False

instance : DecidablePred PushStart.Succeeds := fun start =>
  match start with
  | .upToDate => isTrue trivial
  | .push .. => isTrue trivial
  | .unverified _ => isFalse id
  | .unbundled _ => isFalse id
  | .rejected => isFalse id

/-- The update passes the policy: it is forced, or a fast-forward. -/
def Permitted (dag : Option GitDag) (remote : RefMap) (dst oid : String) (force : Bool) : Prop :=
  force = true ∨ recomputedNonFf dag remote (pushedRefs (dstRef dst) oid remote) = false

instance (dag : Option GitDag) (remote : RefMap) (dst oid : String) (force : Bool) :
    Decidable (Permitted dag remote dst oid force) :=
  inferInstanceAs (Decidable (_ ∨ _))

/-- The source is an ancestor of another object id that the remote has a ref at and the local
repository a commit for. -/
def BelowPublished (parents : String → String → Prop) (git : LocalGit) (oid : String)
    (remote : RefMap) : Prop :=
  ∃ name ex : String, remote[name]? = some ex ∧ ex ≠ oid ∧ git.hasCommit ex = true ∧
    oid ∈ reach parents {ex}

section Command

variable {git : LocalGit} {dag : Option GitDag} {src dst oid : String} {force : Bool}
variable {tip : Except ClientError (Option RefMap)} {remote : RefMap}
variable {parents : String → String → Prop} {exclude : List String}

theorem mem_refOids_iff {ex : String} :
    ex ∈ refOids remote ↔ ∃ name : String, remote[name]? = some ex := by
  simp [refOids, ExtTreeMap.mem_toList_iff_getElem?_eq_some]

theorem mem_negatives_iff {ex : String} :
    ex ∈ git.negatives oid exclude ↔ ex ∈ exclude ∧ ex ≠ oid ∧ git.hasCommit ex = true := by
  rw [LocalGit.negatives, List.mem_filter, Bool.and_eq_true, bne_iff_ne]

/-- A source has commits that the remote lacks unless it is below another published one. -/
theorem bundleCreate_iff (hgit : git.RefusesEmpty parents src)
    (hsrc : git.revParse src = .ok oid) :
    git.bundleCreate src (git.negatives oid (refOids remote)) = true ↔
      ¬ BelowPublished parents git oid remote := by
  have hhave : ∀ ex ∈ git.negatives oid (refOids remote), git.hasCommit ex = true :=
    fun ex hex => (mem_negatives_iff.mp hex).2.2
  rw [hgit oid _ hsrc hhave, Set.nonempty_iff_ne_empty, ne_eq, delta_eq_empty_iff,
    Set.singleton_subset_iff, mem_reach_iff, BelowPublished]
  simp only [Set.mem_ofPred_eq, mem_negatives_iff, mem_refOids_iff, and_assoc]
  rw [exists_comm]
  simp only [exists_and_right]

/-- The command on a source that resolves. -/
theorem runWithForce_of_read (hread : remoteRefs force tip = .ok remote)
    (hsrc : git.revParse src = .ok oid) :
    runWithForce git dag src dst force tip =
      if remote[dstRef dst]? = some oid then .upToDate
      else if git.bundleCreate src (git.negatives oid (refOids remote)) then
        let gitRefs := pushedRefs (dstRef dst) oid remote
        let nonFf := recomputedNonFf dag remote gitRefs
        if nonFf && !force then .rejected
        else
          .push ⟨[oid], git.negatives oid (refOids remote)⟩ gitRefs (some ("ref: " ++ dstRef dst))
            (nonFf || force)
      else .unbundled (bundleFailed src) := by
  rw [runWithForce, hread]
  simp only [hsrc, Except.toOption, Option.any_some, beq_iff_eq, buildBundleAndRefs]
  by_cases hbundle : git.bundleCreate src (git.negatives oid (refOids remote)) = true
  · simp only [if_pos hbundle, pushedRefs]
    rfl
  · simp only [if_neg hbundle]

/-- A permitted update can be pushed unless its source is an ancestor of another commit that
the remote has a ref at. -/
theorem succeeds_runWithForce_iff (hgit : git.RefusesEmpty parents src)
    (hread : remoteRefs force tip = .ok remote) (hsrc : git.revParse src = .ok oid)
    (hpermitted : Permitted dag remote dst oid force) :
    (runWithForce git dag src dst force tip).Succeeds ↔
      remote[dstRef dst]? = some oid ∨ ¬ BelowPublished parents git oid remote := by
  rw [runWithForce_of_read hread hsrc, ← bundleCreate_iff hgit hsrc]
  have hpasses : (recomputedNonFf dag remote (pushedRefs (dstRef dst) oid remote) && !force) =
      false := by
    rcases hpermitted with hforce | hforward
    · rw [hforce, Bool.not_true, Bool.and_false]
    · rw [hforward, Bool.false_and]
  by_cases hsame : remote[dstRef dst]? = some oid
  · simp [hsame, PushStart.Succeeds]
  · by_cases hbundle : git.bundleCreate src (git.negatives oid (refOids remote)) = true
    · simp [hsame, hbundle, hpasses, PushStart.Succeeds]
    · simp [hsame, hbundle, PushStart.Succeeds]

/-- What a push calls the client with. -/
theorem eq_of_runWithForce_push {bundle : GitBundle} {gitRefs : RefMap}
    {headSymref : Option String} {nonFf : Bool}
    (h : runWithForce git dag src dst force tip = .push bundle gitRefs headSymref nonFf) :
    ∃ remote oid, remoteRefs force tip = .ok remote ∧
      bundle = ⟨[oid], git.negatives oid (refOids remote)⟩ ∧
      gitRefs = pushedRefs (dstRef dst) oid remote := by
  cases hread : remoteRefs force tip with
  | error e =>
    rw [runWithForce, hread] at h
    cases h
  | ok remote =>
    cases hsrc : git.revParse src with
    | error e =>
      rw [runWithForce, hread] at h
      simp [hsrc, Except.toOption, buildBundleAndRefs] at h
    | ok oid =>
      rw [runWithForce_of_read hread hsrc] at h
      dsimp only at h
      split_ifs at h
      obtain ⟨rfl, rfl, rfl, rfl⟩ := PushStart.push.inj h
      exact ⟨remote, oid, rfl, rfl, rfl⟩

/-- Where git makes a bundle, the command is the push of that bundle. -/
theorem decide_of_runWithForce {D : Type} [Sha512 D] [HashPrimitives] [MlDsa87] [RefsCodec]
    [HexCodec D] {push : RefPush D} {fetched : Except ClientError (Option (FetchResult D))}
    {bundle : GitBundle} {gitRefs : RefMap} {headSymref : Option String} {nonFf : Bool}
    (hsrc : git.revParse src = .ok push.oid)
    (hread : remoteRefs push.force
      (fetched.map fun tip => tip.map fun fetched => fetched.refs.refs) = .ok remote)
    (h : runWithForce git push.dag src push.dst push.force
      (fetched.map fun tip => tip.map fun fetched => fetched.refs.refs) =
        .push bundle gitRefs headSymref nonFf) :
    push.decide fetched = .push remote {
      repo := push.repo
      bundle := push.bundle remote.values
      gitRefs := gitRefs
      headSymref := headSymref
      material := push.material
      keys := push.keys
      nonFf := nonFf
      maxRetries := defaultCasRetries } := by
  -- both read the same refs of the tip
  have hrefs : ∃ tip, (if push.force then .ok (fetched.toOption.getD none) else fetched) =
      Except.ok tip ∧ (tip.map fun tip => tip.refs.refs).getD ∅ = remote := by
    cases fetched with
    | ok tip =>
      obtain rfl := Except.ok.inj hread
      exact ⟨tip, ite_self _, rfl⟩
    | error e =>
      change (if push.force then Except.ok ∅ else Except.error e) = _ at hread
      split_ifs at hread with hforce
      exact ⟨none, if_pos hforce, Except.ok.inj hread⟩
  obtain ⟨tip, htip, hremote⟩ := hrefs
  rw [runWithForce_of_read hread hsrc] at h
  rw [RefPush.decide, htip]
  simp only [hremote]
  dsimp only at h
  split_ifs at h with hsame hbundle hrejected
  obtain ⟨rfl, rfl, rfl, rfl⟩ := PushStart.push.inj h
  rw [if_neg hsame, if_neg hrejected]

end Command

section Sample

/-- The branches of a history of two commits. -/
def branchTip (name : String) : Option String := [("old", "a"), ("main", "b")].lookup name

/-- The repository with these branches. A branch resolves to its commit, and a bundle is made of a
branch. -/
def twoCommits : LocalGit where
  revParse rev :=
    match branchTip rev with
    | some oid => .ok oid
    | none => if rev = "a" ∨ rev = "b" then .ok rev else .error "unknown revision"
  hasCommit oid := oid == "a" || oid == "b"
  bundleCreate src negatives :=
    match branchTip src with
    | some oid => !(negatives.contains oid || oid == "a" && negatives.contains "b")
    | none => false

/-- The second commit's parent is the first. -/
def twoCommitsParents (commit parent : String) : Prop := commit = "b" ∧ parent = "a"

/-- The remote has its branch at the second commit. -/
def publishedTwo : RefMap := (∅ : RefMap).insert "refs/heads/main" "b"

theorem refusesEmpty_twoCommits {name tip : String} (hbranch : branchTip name = some tip) :
    twoCommits.RefusesEmpty twoCommitsParents name := by
  intro oid negatives hsrc _
  obtain rfl : tip = oid := by
    change (match branchTip name with
      | some oid => Except.ok oid
      | none => if name = "a" ∨ name = "b" then .ok name else .error "unknown revision") = _ at hsrc
    rw [hbranch] at hsrc
    exact Except.ok.inj hsrc
  -- what reaches the source is the source, and the second commit when it is the first
  have hreach : ∀ ex, tip ∈ reach twoCommitsParents {ex} ↔ ex = tip ∨ ex = "b" ∧ tip = "a" := by
    intro ex
    rw [mem_reach_singleton]
    constructor
    · intro hpath
      rcases Relation.ReflTransGen.cases_head hpath with rfl | ⟨next, ⟨hex, hnext⟩, hrest⟩
      · exact .inl rfl
      · rcases Relation.ReflTransGen.cases_head hrest with rfl | ⟨more, ⟨hb, _⟩, _⟩
        · exact .inr ⟨hex, hnext⟩
        · exact absurd (hnext.symm.trans hb) (by decide)
    · rintro (rfl | ⟨rfl, rfl⟩)
      · exact .refl
      · exact .single ⟨rfl, rfl⟩
  rw [Set.nonempty_iff_ne_empty, ne_eq, delta_eq_empty_iff, Set.singleton_subset_iff,
    mem_reach_iff]
  simp only [hreach, Set.mem_ofPred_eq]
  simp only [twoCommits, hbranch, Bool.not_eq_true', ← Bool.not_eq_true, Bool.or_eq_true,
    List.contains_iff_mem, Bool.and_eq_true, beq_iff_eq, not_iff_not]
  constructor
  · rintro (hmem | ⟨hsrc, hmem⟩)
    · exact ⟨tip, hmem, .inl rfl⟩
    · exact ⟨"b", hmem, .inr ⟨rfl, hsrc⟩⟩
  · rintro ⟨ex, hmem, rfl | ⟨rfl, hsrc⟩⟩
    · exact .inl hmem
    · exact .inr ⟨hsrc, hmem⟩

/-- A new branch at the older of two branches, and the other one taken back to it by force: both
are permitted, and neither can be pushed. -/
theorem not_succeeds_twoCommits :
    twoCommits.revParse "old" = .ok "a" ∧
    twoCommits.RefusesEmpty twoCommitsParents "old" ∧
    Permitted none publishedTwo "dev" "a" false ∧
    ¬ (runWithForce twoCommits none "old" "dev" false (.ok (some publishedTwo))).Succeeds ∧
    Permitted none publishedTwo "main" "a" true ∧
    ¬ (runWithForce twoCommits none "old" "main" true (.ok (some publishedTwo))).Succeeds := by
  refine ⟨rfl, refusesEmpty_twoCommits rfl, by decide +kernel, by decide +kernel, .inl rfl,
    by decide +kernel⟩

theorem succeeds_runWithForce_iff_twoCommits :
    (runWithForce twoCommits none "main" "dev" false (.ok (some publishedTwo))).Succeeds ↔
      publishedTwo[dstRef "dev"]? = some "b" ∨
        ¬ BelowPublished twoCommitsParents twoCommits "b" publishedTwo :=
  succeeds_runWithForce_iff (refusesEmpty_twoCommits (show branchTip "main" = _ from rfl)) rfl rfl
    (.inr (by decide +kernel))

end Sample

end SafeHub
