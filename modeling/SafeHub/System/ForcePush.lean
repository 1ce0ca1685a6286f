import SafeHub.Client.Fetch

/-!
# The force-push policy of readers

A reader checks the chain, the epoch tags and the leaf signatures of the heads it
fetches. The force-push policy is not among the checks, so whether a fetched run obeys
it is a matter of what the heads contain.

## Main definitions

* `PolicyEnforced` — every fetched head obeys the policy
* `CompliantRun` — the refs inside the served heads only advance, or the admin has
  signed for it

## Main results

* `policyEnforced_iff` — a fetched run obeys the policy exactly when it is compliant
-/

namespace SafeHub

open Std (ExtTreeMap)

section Policy

variable {D : Type} [Sha512 D] [MlDsa87] [RefsCodec]
variable (dag : Option GitDag) (scope : AncestryScope) (adminVk : Option Bytes)
variable (roster : List Bytes)

/-- The policy lets a transition pass: it is a fast-forward, or the head carries an
admin co-signature that is accepted for it. -/
def PolicyAccepts (oldRefs : RefMap) (head : RefHead D) (newRefs : EncryptedRefsMap) : Prop :=
  classifyFf dag oldRefs newRefs.refs = .ok .fastForward ∨
    ∃ status, classifyFf dag oldRefs newRefs.refs = .ok status ∧ head.adminCosig.isSome ∧
      verifyForcePushPolicyScoped head head.nonFf status scope adminVk newRefs roster = .ok ()

/-- Every fetched head obeys the policy, from the refs before the first one on. -/
def PolicyEnforced : RefMap → List (FetchResult D) → Prop
  | _, [] => True
  | oldRefs, r :: rs =>
    PolicyAccepts dag scope adminVk roster oldRefs r.head r.refs ∧ PolicyEnforced r.refs.refs rs

/-- No ref is dropped and every changed one advances, or the admin has signed the
transition and the head does not pass a known non-fast-forward off as a fast-forward. -/
def Compliant (oldRefs : RefMap) (head : RefHead D) (newRefs : EncryptedRefsMap) : Prop :=
  FastForwardUpdate dag oldRefs newRefs.refs ∨
    (∃ status, classifyFf dag oldRefs newRefs.refs = .ok status ∧
      (status = .nonFastForward → head.nonFf = true)) ∧ Cosigned head adminVk newRefs roster

/-- Every head of a served run is compliant, given the refs its heads open to. -/
def CompliantRun (openedRefs : RefHead D → Except ClientError EncryptedRefsMap) :
    RefMap → List (RefHead D) → Prop
  | _, [] => True
  | oldRefs, head :: heads =>
    ∃ newRefs, openedRefs head = .ok newRefs ∧ Compliant dag adminVk roster oldRefs head newRefs ∧
      CompliantRun openedRefs newRefs.refs heads

variable {dag scope adminVk roster}

theorem policyAccepts_iff {oldRefs : RefMap} {head : RefHead D} {newRefs : EncryptedRefsMap} :
    PolicyAccepts dag scope adminVk roster oldRefs head newRefs ↔
      Compliant dag adminVk roster oldRefs head newRefs := by
  rw [PolicyAccepts, Compliant, classifyFf_eq_fastForward_iff]
  by_cases hforward : FastForwardUpdate dag oldRefs newRefs.refs
  · exact iff_of_true (.inl hforward) (.inl hforward)
  rw [or_iff_right hforward, or_iff_right hforward]
  have hne : ∀ status, classifyFf dag oldRefs newRefs.refs = .ok status →
      status ≠ .fastForward := by
    rintro status hstatus rfl
    exact hforward (classifyFf_eq_fastForward_iff.mp hstatus)
  constructor
  · intro ⟨status, hstatus, _, haccepted⟩
    -- beyond fast-forwards the label and the co-signature decide
    rw [verifyForcePushPolicyScoped_eq_ok_iff, or_iff_right (hne status hstatus)] at haccepted
    exact ⟨⟨status, hstatus, haccepted.1⟩, haccepted.2⟩
  · intro ⟨⟨status, hstatus, hlabel⟩, hcosigned⟩
    refine ⟨status, hstatus, ?_, verifyForcePushPolicyScoped_eq_ok_iff.mpr
      (.inr ⟨hlabel, hcosigned⟩)⟩
    obtain ⟨cosig, vk, hcosig, hrest⟩ := hcosigned
    rw [hcosig]
    rfl

theorem policyEnforced_iff_compliantRun
    {openedRefs : RefHead D → Except ClientError EncryptedRefsMap} {base : RefMap}
    {results : List (FetchResult D)} (hopened : ∀ r ∈ results, openedRefs r.head = .ok r.refs) :
    PolicyEnforced dag scope adminVk roster base results ↔
      CompliantRun dag adminVk roster openedRefs base (results.map FetchResult.head) := by
  induction results generalizing base with
  | nil => exact Iff.rfl
  | cons r rs ih =>
    have hfirst := hopened r List.mem_cons_self
    rw [List.map_cons, PolicyEnforced, CompliantRun, policyAccepts_iff,
      ih fun r' hr' => hopened r' (List.mem_cons_of_mem r hr')]
    constructor
    · intro ⟨haccepts, hrest⟩
      exact ⟨r.refs, hfirst, haccepts, hrest⟩
    · intro ⟨newRefs, hnew, haccepts, hrest⟩
      obtain rfl := Except.ok.inj (hfirst.symm.trans hnew)
      exact ⟨haccepts, hrest⟩

end Policy

section Fetch

variable {D : Type} [Sha512 D] [HashPrimitives] [MlDsa87] [RefsCodec] [HexCodec D] [DecidableEq D]

/-- The heads a fetch returns obey the force-push policy exactly when the readable
heads the host served are compliant, whatever the reader's Git objects and keys are. -/
theorem policyEnforced_iff {repo : RepoId} {material : EpochMaterial Bytes Bytes}
    {group : Except ClientError LocalGroup} {host : HostReplies D}
    {draws : RefHead D → OpenDraws} {afterSeq : UInt64} {anchor : Option (HeadHash D)}
    {served : List (RefHead D)} {results : List (FetchResult D)}
    (dag : Option GitDag) (scope : AncestryScope) (adminVk : Option Bytes) (roster : List Bytes)
    (base : RefMap) (hserved : headsSince host afterSeq = .ok served)
    (hfetch : fetchBundlesSince repo material group host draws afterSeq anchor = .ok results) :
    PolicyEnforced dag scope adminVk roster base results ↔
      CompliantRun dag adminVk roster (fun head => openRefsMap material (draws head).refs head)
        base (readableHeads material served) := by
  obtain ⟨served', hserved', hheads, -, hopened⟩ := fetchBundlesSince_eq_ok hfetch
  obtain rfl := Except.ok.inj (hserved.symm.trans hserved')
  rw [← hheads]
  exact policyEnforced_iff_compliantRun hopened

end Fetch

/-! ### Two pushes of one member -/

section Evaluate

attribute [local instance] transparentSha512 transparentHash transparentMlDsa87 framedRefsCodec
  plainHexCodec

/-- A host that serves two heads, and blobs under their ids. -/
def twoHeadHost (first second : RefHead Bytes) : HostReplies Bytes where
  headsPage _ := .ok [first, second]
  headTip := .ok (some second)
  getBlob id := .ok id

/-- What the reader draws; within the segment capacity it makes no difference. -/
def noDraws (_ : RefHead Bytes) : OpenDraws := ⟨⟨[], []⟩, ⟨[], []⟩⟩

theorem readableHeads_two {first second : RefHead Bytes} (h : first.seq ≤ second.seq) :
    readableHeads deviceMaterial [first, second] = [first, second] := by
  have hfull : ¬ 0 < deviceMaterial.historyFrom := Nat.lt_irrefl 0
  simp [readableHeads, hfull, h]

/-- What the device pushes passes the checks of a reader of its group, and its bundle
is fetched. -/
theorem exists_devicePush (repo : RepoId) (bundle : Bytes) (gitRefs : RefMap) (prev : Bytes)
    (seq : UInt64) (hlength : bundle.length < (2 ^ 32 - 1) * bundleChunkSize) :
    ∃ (head : RefHead Bytes) (refs : EncryptedRefsMap), head.seq = seq ∧ head.prevHeadHash = prev ∧
      head.adminCosig = none ∧ refs.refs = gitRefs ∧
      checkEpochTag deviceMaterial head = .ok () ∧
      checkPusher (rosterKeys deviceKeys.group) head = .ok () ∧
      ∀ host : HostReplies Bytes, (∀ id, host.getBlob id = .ok id) →
        fetchHeadBundle repo deviceMaterial host noDraws head = .ok ⟨head, refs, bundle⟩ := by
  have hkey : deviceMaterial.epochKey (flatRandom 1).epoch = .ok _ :=
    deviceMaterial_epochKeyAt (flatRandom 1).epoch
  have hgroup : deviceKeys.group =
      .ok ⟨⟨flatSeed 7, paddedKey (flatSeed 7)⟩, [paddedKey (flatSeed 7)]⟩ := rfl
  obtain ⟨plan, head, refs, hplan, -, hcosig, hsig⟩ :=
    exists_buildPushPlan repo bundle gitRefs none prev seq hkey hgroup (length_flatSeed 7)
  obtain ⟨epochKey, hplanned⟩ := planned_of_buildPushPlan hplan
  obtain rfl := Except.ok.inj (hkey.symm.trans hplanned.key)
  have hepoch : head.mlsEpoch.toNat = 0 := by
    rw [hplanned.mlsEpoch]
    rfl
  -- the tag is under the own key, the signature the roster's, and the chunks are at the host
  refine ⟨head, refs, hplanned.seq, hplanned.prevHeadHash, hcosig, hplanned.gitRefs, ?_, ?_, ?_⟩
  · have hmac : deviceMaterial.refsMacAt head.mlsEpoch.toNat = some deviceMaterial.refsMac := by
      rw [hepoch]
      rfl
    rw [checkEpochTag, hmac]
    exact if_pos hplanned.epochTag
  · exact checkPusher_eq_ok_iff.mpr
      (.inr ⟨_, List.mem_cons_self, verifyPusherSig_flatSeed rfl hsig⟩)
  · intro host hblobs
    have hdraws : ∀ draws, deviceMaterial.epochKeyAt draws head.mlsEpoch.toNat =
        .ok (SeedKdf.expand (List.replicate 48 1 : Bytes) (dkrEpochInfo 0)) := by
      intro draws
      rw [hepoch]
      exact deviceMaterial_epochKeyAt draws
    refine hplanned.fetchHeadBundle hlength ?_ (hdraws _) (hdraws _) fun chunk hchunk => ?_
    · rw [hplanned.pushId]
      decide
    · obtain ⟨i, -, rfl⟩ := List.mem_map.mp hchunk
      exact hblobs _

/-- A member pushes twice, signing both heads as fast-forwards; a reader of its group
fetches both, whatever refs are inside. -/
theorem exists_fetch_two (repo : RepoId) (refs₁ refs₂ : RefMap) :
    ∃ (host : HostReplies Bytes) (served : List (RefHead Bytes)) (r₁ r₂ : FetchResult Bytes),
      headsSince host 0 = .ok served ∧
      fetchBundlesSince repo deviceMaterial deviceKeys.group host noDraws 0 none = .ok [r₁, r₂] ∧
      r₁.refs.refs = refs₁ ∧ r₂.refs.refs = refs₂ ∧ r₂.head.adminCosig = none := by
  obtain ⟨first, sealed₁, hseq₁, -, -, hrefs₁, htag₁, hpusher₁, hfetch₁⟩ :=
    exists_devicePush repo [1] refs₁ [] 1 (by decide)
  obtain ⟨second, sealed₂, hseq₂, hprev₂, hcosig₂, hrefs₂, htag₂, hpusher₂, hfetch₂⟩ :=
    exists_devicePush repo [1] refs₂ first.hash 2 (by decide)
  have hread : readableHeads deviceMaterial [first, second] = [first, second] :=
    readableHeads_two (by rw [hseq₁, hseq₂]; decide)
  have hserved : headsSince (twoHeadHost first second) 0 = .ok [first, second] := by
    rw [headsSince, headsSinceLoop]
    simp [twoHeadHost, hseq₂, headsPageLen]
  have hverified : verifyFetchedHeads [first, second] deviceMaterial none
      (rosterKeys deviceKeys.group) = .ok () := by
    refine verifyFetchedHeads_eq_ok_iff.mpr ⟨?_, ?_⟩
    · simp [verifyFetchedChain, verifyHeadChain, verifyHeadChainLoop, hprev₂]
    · simp [htag₁, htag₂, hpusher₁, hpusher₂]
  refine ⟨twoHeadHost first second, [first, second], ⟨first, sealed₁, [1]⟩, ⟨second, sealed₂, [1]⟩,
    hserved, ?_, hrefs₁, hrefs₂, hcosig₂⟩
  refine bind_eq_ok_iff.mpr ⟨_, hserved, ?_⟩
  have hanchor : readableAnchor deviceMaterial [first, second] none = none := ite_self none
  rw [hread, hanchor]
  refine bind_eq_ok_iff.mpr ⟨(), hverified, bind_eq_ok_iff.mpr ⟨some second, rfl,
    bind_eq_ok_iff.mpr ⟨(), ?_, mapM_eq_ok_iff.mpr ?_⟩⟩⟩
  · simp [checkTruncation]
  · exact .cons (hfetch₁ _ fun _ => rfl) (.cons (hfetch₂ _ fun _ => rfl) .nil)

/-- A branch, and the same with a second one beside it. -/
def oneBranch : RefMap := (∅ : RefMap).insert "refs/heads/main" "a"

def twoBranches : RefMap := oneBranch.insert "refs/heads/dev" "b"

/-- A push that creates a branch and one that adds another: the run is compliant, and
the policy holds. -/
theorem policyEnforced_addBranch : ∃ host served results,
    fetchBundlesSince (Vector.replicate 32 1) deviceMaterial deviceKeys.group host noDraws 0 none =
      .ok results ∧ results.length = 2 ∧
    PolicyEnforced none .full none [] ∅ results ∧
    CompliantRun none none [] (fun head => openRefsMap deviceMaterial (noDraws head).refs head) ∅
      (readableHeads deviceMaterial served) := by
  obtain ⟨host, served, r₁, r₂, hserved, hfetch, hrefs₁, hrefs₂, -⟩ :=
    exists_fetch_two (Vector.replicate 32 1) oneBranch twoBranches
  have henforced : PolicyEnforced none .full none [] ∅ [r₁, r₂] := by
    refine ⟨.inl ?_, .inl ?_, trivial⟩
    · rw [hrefs₁]
      rfl
    · rw [hrefs₁, hrefs₂]
      rfl
  exact ⟨host, served, [r₁, r₂], hfetch, rfl, henforced,
    (policyEnforced_iff none .full none [] ∅ hserved hfetch).mp henforced⟩

/-- The second push deletes the branch and says that it is a fast-forward: a reader
fetches both heads without an admin co-signature. -/
theorem not_policyEnforced_dropBranch : ∃ host results,
    fetchBundlesSince (Vector.replicate 32 1) deviceMaterial deviceKeys.group host noDraws 0 none =
      .ok results ∧
    ¬ PolicyEnforced none .full none [] ∅ results := by
  obtain ⟨host, served, r₁, r₂, -, hfetch, hrefs₁, hrefs₂, hunsigned⟩ :=
    exists_fetch_two (Vector.replicate 32 1) oneBranch ∅
  have hdropped : classifyFf none r₁.refs.refs r₂.refs.refs = .ok .nonFastForward := by
    rw [hrefs₁, hrefs₂]
    rfl
  refine ⟨host, [r₁, r₂], hfetch, fun ⟨_, haccepts, _⟩ => ?_⟩
  rcases haccepts with hforward | ⟨status, -, hsigned, -⟩
  · cases hdropped.symm.trans hforward
  · rw [hunsigned] at hsigned
    cases hsigned

end Evaluate

end SafeHub
