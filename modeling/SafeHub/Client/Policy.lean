import SafeHub.Client.AdminQuorum
import SafeHub.Crypto.Aead
import Mathlib.Data.List.Sort
import Std.Data.ExtTreeMap.Lemmas

/-!
# Force-push policy

Fast-forward classification of a ref update against the local Git objects, and
the checks a verifier makes of one head: its force-push policy, its epoch tag, its
place in the chain and the pusher's signature. Git itself and the JSON codec are
parameters.

## Main definitions

* `classifyFf` — whether an update of the ref map is a fast-forward
* `verifyForcePushPolicyScoped` — the policy for a verifier of any scope
* `verifyEpochTag`, `verifyHeadChain`, `verifyPusherSig` — the other checks

## Main results

* `classifyFf_eq_fastForward_iff` — which updates are fast-forwards
* `verifyForcePushPolicyScoped_eq_ok_iff` — which heads the policy lets pass
* `isChain_of_verifyHeadChainLoop` — what holds of the heads of a verified chain
-/

namespace SafeHub

open FixedWidth
open Std (ExtTreeMap)

/-- Git ref name to object id. -/
abbrev RefMap := ExtTreeMap String String compare

/-- Payload sealed in `encRefs`: Git tips and fetch framing. -/
structure EncryptedRefsMap where
  refs : RefMap
  /-- Symbolic HEAD. -/
  head : Option String
  /-- Push correlation id, needed to rebuild the associated data of the chunks. -/
  pushId : String
  /-- Content ids of the uploaded chunks, in order. -/
  chunkIds : List String

/-- JSON of the refs map. -/
class RefsCodec where
  encode : EncryptedRefsMap → Bytes
  decode : Bytes → Option EncryptedRefsMap
  decode_encode : ∀ refs, decode (encode refs) = some refs

/-- The local Git object store. -/
structure GitDag where
  /-- `git cat-file -e` -/
  hasObject : String → Bool
  /-- `git merge-base --is-ancestor` -/
  isAncestor : String → String → Except ClientError Bool

/-! ### Fast-forward classification -/

/-- Whether an object id is absent: empty or all zeros. -/
def absentOid (oid : String) : Bool := oid.toList.all (· == '0')

/-- Whether updating `oldOid` to `newOid` is a fast-forward. -/
def isFastForward (dag : GitDag) (oldOid newOid : String) : Except ClientError Bool :=
  if absentOid oldOid then .ok true
  else if oldOid = newOid then .ok true
  else dag.isAncestor oldOid newOid

/-- Whether an object id names an object the local store holds. -/
def holdsObject (dag : GitDag) (oid : String) : Bool := absentOid oid || dag.hasObject oid

/-- The ancestry verdict a verifier can justify from its local objects. -/
inductive FfStatus
  | fastForward
  | nonFastForward
  /-- The merge base is below the graft. -/
  | unverifiable
  deriving DecidableEq, Repr

/-- Whether a verifier must treat this as a non-fast-forward. -/
def FfStatus.isNonFf (status : FfStatus) : Bool := status != .fastForward

/-- What a verifier knows about the completeness of its objects. -/
structure AncestryScope where
  /-- Inclusive epoch from which history was granted. -/
  historyFrom : ℕ
  /-- Whether the objects were seeded from a grafted snapshot. -/
  grafted : Bool
  deriving DecidableEq, Repr

/-- A member present since genesis. -/
def AncestryScope.full : AncestryScope := ⟨0, false⟩

/-- Whether a ref is a tag. -/
def isTag (name : String) : Bool := "refs/tags/".toList.isPrefixOf name.toList

/-- The loop over the new refs, with what could not be verified so far. -/
def classifyLoop (dag : Option GitDag) (oldRefs : RefMap) :
    List (String × String) → (unverifiable : Bool) → Except ClientError FfStatus
  | [], unverifiable => .ok (if unverifiable then .unverifiable else .fastForward)
  | (name, newOid) :: rest, unverifiable =>
    match oldRefs[name]? with
    | none => classifyLoop dag oldRefs rest unverifiable
    | some oldOid =>
      if oldOid = newOid then classifyLoop dag oldRefs rest unverifiable
      -- a tag that moves is a policy event whatever the ancestry says
      else if isTag name then .ok .nonFastForward
      else
        match dag with
        | none => classifyLoop dag oldRefs rest true
        | some git =>
          if holdsObject git oldOid && holdsObject git newOid then
            match isFastForward git oldOid newOid with
            | .error e => .error e
            | .ok true => classifyLoop dag oldRefs rest unverifiable
            | .ok false => .ok .nonFastForward
          else classifyLoop dag oldRefs rest true

/-- Classify a tip update, distinguishing "not a fast-forward" from "cannot tell". -/
def classifyFf (dag : Option GitDag) (oldRefs newRefs : RefMap) : Except ClientError FfStatus :=
  if oldRefs.keys.any fun name => !newRefs.contains name then .ok .nonFastForward
  else classifyLoop dag oldRefs newRefs.toList false

/-- Whether a tip update is a non-fast-forward; what cannot be verified counts. -/
def classifyNonFf (dag : Option GitDag) (oldRefs newRefs : RefMap) : Except ClientError Bool :=
  (classifyFf dag oldRefs newRefs).map FfStatus.isNonFf

/-! ### Digests and authenticators -/

section Checks

variable {D : Type} [Sha512 D] [HashPrimitives] [MlDsa87] [RefsCodec]

/-- Digest of the roster at the authorizing epoch. -/
def rosterDigest (leafVks : List Bytes) : D :=
  let sorted := leafVks.insertionSort (· ≤ ·)
  Sha512.digest (labelBytes "roster-digest" ++ leBytes 4 (sorted.length % 2 ^ 32) ++
    sorted.flatMap fun vk => leBytes 4 (vk.length % 2 ^ 32) ++ vk)

/-- Digest of the refs for binding a co-signature to them. -/
def refsDigest (refs : EncryptedRefsMap) : D :=
  Sha512.digest (labelBytes "refs-digest" ++ RefsCodec.encode refs)

/-- The leaf transcript of a head. -/
def leafSignMessage (head : RefHead D) : Bytes :=
  refheadLeafMessage head.repoId head.seq head.encRefs head.bundleRoot head.dekWrap
    head.prevHeadHash head.mlsEpoch head.epochTag head.nonFf

/-- Epoch authenticator of a head. -/
def epochTagBytes (refsMac : Bytes) (epoch : UInt64) (root : BlobId D) (seq : UInt64) : Bytes :=
  (HashPrimitives.hmacSha512 refsMac
    (labelBytes "epoch-tag" ++ u64LE epoch ++ Sha512.toBytes root ++ u64LE seq)).take 32

/-- Recompute a head's epoch tag and compare. -/
def verifyEpochTag (head : RefHead D) (refsMac : Bytes) : Bool :=
  epochTagBytes refsMac head.mlsEpoch head.bundleRoot head.seq == head.epochTag

/-- Verify the pusher's leaf signature. -/
def verifyPusherSig (head : RefHead D) (leafVk : Bytes) : Except ClientError Unit :=
  if head.pusherSig.isEmpty then
    .error (.other "RefHead missing leaf ML-DSA signature")
  else
    match mldsaVerify leafVk (leafSignMessage head) head.pusherSig with
    | .ok () => .ok ()
    | .error e => .error (.other s!"leaf ML-DSA verify: {e.text}")

/-! ### The head chain -/

variable [DecidableEq D]

/-- The loop over the heads, with the hash and the sequence number expected next. -/
def verifyHeadChainLoop : List (RefHead D) → HeadHash D → Option UInt64 → Except ClientError Unit
  | [], _, _ => .ok ()
  | head :: rest, expectPrev, expectSeq =>
    if head.prevHeadHash ≠ expectPrev then
      .error (.other (s!"head chain broken at seq {head.seq}: " ++
        "prev_head_hash does not descend from the previous head"))
    else
      match expectSeq with
      | none => verifyHeadChainLoop rest head.hash (some head.seq)
      | some prevSeq =>
        if head.seq ≠ prevSeq + 1 then
          .error (.other s!"head chain gap: seq {head.seq} follows seq {prevSeq}")
        else verifyHeadChainLoop rest head.hash (some head.seq)

/-- Verify that heads form an unbroken hash chain rooted at `anchor`. -/
def verifyHeadChain (heads : List (RefHead D)) (anchor : HeadHash D) : Except ClientError Unit :=
  verifyHeadChainLoop heads anchor none

/-! ### The policy -/

/-- The message the admin signs for a pushed head. -/
def pushCosigMessage (head : RefHead D) (newRefs : EncryptedRefsMap) (roster : List Bytes) :
    Bytes :=
  adminCosigMessage head.repoId head.mlsEpoch "push" head.seq head.prevHeadHash
    (refsDigest newRefs) (rosterDigest roster) adminCosigPolicyVersion

/-- Force-push policy for a verifier whose ancestry may be incomplete. -/
def verifyForcePushPolicyScoped (head : RefHead D) (claimedNonFf : Bool) (status : FfStatus)
    (scope : AncestryScope) (adminVk : Option Bytes) (newRefs : EncryptedRefsMap)
    (roster : List Bytes) : Except ClientError Unit :=
  let cosigned : Except ClientError Unit :=
    match head.adminCosig, adminVk with
    | none, _ =>
      .error (.other (match status with
        | .unverifiable =>
          if scope.grafted then
            s!"fast-forward at seq {head.seq} is unverifiable from a grafted view " ++
              s!"(history granted from epoch {scope.historyFrom}): the merge-base is below the " ++
              "graft, so this update must-reject without an admin co-signature"
          else
            s!"fast-forward at seq {head.seq} is unverifiable without a local object DAG: " ++
              "must-reject without an admin co-signature"
        | _ => "non-fast-forward head missing admin co-signature"))
    | some _, none =>
      .error (.other "admin verifying key required to verify non-FF co-signature")
    | some cosig, some vk =>
      adminCosigVerify vk head.repoId head.mlsEpoch "push" head.seq head.prevHeadHash
        (refsDigest newRefs) (rosterDigest roster) cosig
  match status with
  | .fastForward => .ok ()
  | .nonFastForward =>
    if claimedNonFf then cosigned
    else .error (.other "non-fast-forward update falsely labeled as fast-forward")
  | .unverifiable => cosigned

/-- Force-push policy of a verifier with full history. -/
def verifyForcePushPolicy (head : RefHead D) (claimedNonFf recomputedNonFf : Bool)
    (adminVk : Option Bytes) (newRefs : EncryptedRefsMap) (roster : List Bytes) :
    Except ClientError Unit :=
  verifyForcePushPolicyScoped head claimedNonFf
    (if recomputedNonFf then .nonFastForward else .fastForward) .full adminVk newRefs roster

end Checks

/-! ### What the checks accept -/

/-- A changed ref advances: it is no tag, and both objects are there with the old one
an ancestor of the new one. -/
def Advances (dag : Option GitDag) (name oldOid newOid : String) : Prop :=
  isTag name = false ∧ ∃ git, dag = some git ∧ holdsObject git oldOid = true ∧
    holdsObject git newOid = true ∧ isFastForward git oldOid newOid = .ok true

/-- No ref is dropped, and every ref that changes advances. -/
structure FastForwardUpdate (dag : Option GitDag) (oldRefs newRefs : RefMap) : Prop where
  kept : ∀ name ∈ oldRefs, name ∈ newRefs
  advances : ∀ (name oldOid newOid : String), oldRefs[name]? = some oldOid →
    newRefs[name]? = some newOid → oldOid ≠ newOid → Advances dag name oldOid newOid

theorem classifyLoop_eq_fastForward_iff {dag : Option GitDag} {oldRefs : RefMap}
    {entries : List (String × String)} {unverifiable : Bool} :
    classifyLoop dag oldRefs entries unverifiable = .ok .fastForward ↔
      unverifiable = false ∧ ∀ entry ∈ entries, ∀ oldOid : String,
        oldRefs[entry.1]? = some oldOid → oldOid ≠ entry.2 →
          Advances dag entry.1 oldOid entry.2 := by
  induction entries generalizing unverifiable with
  | nil => cases unverifiable <;> simp [classifyLoop]
  | cons entry rest ih =>
    obtain ⟨name, newOid⟩ := entry
    -- what the head entry contributes, and the rest by induction
    have hskip : (∀ oldOid : String, oldRefs[name]? = some oldOid → oldOid ≠ newOid →
        Advances dag name oldOid newOid) →
        (classifyLoop dag oldRefs rest unverifiable = .ok .fastForward ↔
          unverifiable = false ∧ ∀ entry ∈ (name, newOid) :: rest, ∀ oldOid : String,
            oldRefs[entry.1]? = some oldOid → oldOid ≠ entry.2 →
              Advances dag entry.1 oldOid entry.2) := by
      intro hhead
      rw [ih, List.forall_mem_cons]
      exact and_congr_right fun _ => ⟨fun h => ⟨hhead, h⟩, fun h => h.2⟩
    -- an entry that does not advance decides the answer at once
    have hstuck : ∀ result : Except ClientError FfStatus, ∀ oldOid : String,
        oldRefs[name]? = some oldOid → oldOid ≠ newOid → ¬ Advances dag name oldOid newOid →
        result ≠ .ok .fastForward →
        (result = .ok .fastForward ↔
          unverifiable = false ∧ ∀ entry ∈ (name, newOid) :: rest, ∀ oldOid : String,
            oldRefs[entry.1]? = some oldOid → oldOid ≠ entry.2 →
              Advances dag entry.1 oldOid entry.2) := by
      intro result oldOid hold hne hnot hresult
      refine iff_of_false hresult fun h => hnot ?_
      exact h.2 (name, newOid) List.mem_cons_self oldOid hold hne
    -- a change that could not be verified is remembered to the end
    have hflag : classifyLoop dag oldRefs rest true ≠ .ok .fastForward := by
      rw [ne_eq, ih]
      exact fun h => Bool.noConfusion h.1
    -- the branches of the loop, in the order of the code
    rw [classifyLoop]
    cases hold : oldRefs[name]? with
    | none => exact hskip fun oldOid h => by rw [hold] at h; cases h
    | some oldOid =>
      simp only
      split_ifs with hsame htag
      · refine hskip fun oldOid' h hne => ?_
        rw [hold] at h
        obtain rfl := Option.some.inj h
        exact absurd hsame hne
      · refine hstuck _ oldOid hold hsame (fun hadvances => ?_) (fun h => nomatch h)
        exact Bool.noConfusion (htag.symm.trans hadvances.1)
      · cases dag with
        | none => exact hstuck _ oldOid hold hsame (fun ⟨_, _, hdag, _⟩ => nomatch hdag) hflag
        | some git =>
          simp only
          by_cases hheld : (holdsObject git oldOid && holdsObject git newOid) = true
          · rw [if_pos hheld]
            rw [Bool.and_eq_true] at hheld
            cases hforward : isFastForward git oldOid newOid with
            | error e =>
              refine hstuck _ oldOid hold hsame (fun ⟨_, _, hdag, _, _, hok⟩ => ?_) nofun
              obtain rfl := Option.some.inj hdag
              rw [hforward] at hok
              cases hok
            | ok forward =>
              cases forward with
              | true =>
                refine hskip fun oldOid' h _ => ?_
                rw [hold] at h
                obtain rfl := Option.some.inj h
                exact ⟨by simpa using htag, git, rfl, hheld.1, hheld.2, hforward⟩
              | false =>
                refine hstuck _ oldOid hold hsame (fun ⟨_, _, hdag, _, _, hok⟩ => ?_) nofun
                obtain rfl := Option.some.inj hdag
                rw [hforward] at hok
                cases hok
          · rw [if_neg hheld]
            refine hstuck _ oldOid hold hsame (fun ⟨_, _, hdag, hold', hnew, _⟩ => ?_) hflag
            obtain rfl := Option.some.inj hdag
            exact hheld (by rw [hold', hnew]; rfl)

/-- Which updates are classified as fast-forwards. -/
theorem classifyFf_eq_fastForward_iff {dag : Option GitDag} {oldRefs newRefs : RefMap} :
    classifyFf dag oldRefs newRefs = .ok .fastForward ↔ FastForwardUpdate dag oldRefs newRefs := by
  have hkept : (oldRefs.keys.any fun name => !newRefs.contains name) = true ↔
      ¬ ∀ name ∈ oldRefs, name ∈ newRefs := by
    simp only [List.any_eq_true, ExtTreeMap.mem_keys, Bool.not_eq_true', not_forall,
      ← Bool.not_eq_true, ExtTreeMap.contains_iff_mem, exists_prop]
  rw [classifyFf]
  split_ifs with hdropped
  · exact iff_of_false nofun fun h => hkept.mp hdropped h.kept
  · rw [classifyLoop_eq_fastForward_iff]
    rw [hkept, not_not] at hdropped
    constructor
    · intro h
      refine ⟨hdropped, fun name oldOid newOid hold hnew hne => ?_⟩
      exact h.2 (name, newOid) (ExtTreeMap.mem_toList_iff_getElem?_eq_some.mpr hnew) oldOid hold hne
    · intro h
      refine ⟨rfl, fun entry hentry oldOid hold hne => ?_⟩
      exact h.advances entry.1 oldOid entry.2 hold
        (ExtTreeMap.mem_toList_iff_getElem?_eq_some.mp hentry) hne

section Accepts

variable {D : Type} [Sha512 D] [MlDsa87] [RefsCodec]
variable {head : RefHead D} {claimedNonFf : Bool} {status : FfStatus} {scope : AncestryScope}
variable {adminVk : Option Bytes} {newRefs : EncryptedRefsMap} {roster : List Bytes}

/-- The head carries the admin's valid co-signature on this transition. -/
def Cosigned (head : RefHead D) (adminVk : Option Bytes) (newRefs : EncryptedRefsMap)
    (roster : List Bytes) : Prop :=
  ∃ cosig vk, head.adminCosig = some cosig ∧ adminVk = some vk ∧
    mldsaVerify vk (pushCosigMessage head newRefs roster) cosig = .ok ()

/-- Which heads the policy lets pass. -/
theorem verifyForcePushPolicyScoped_eq_ok_iff :
    verifyForcePushPolicyScoped head claimedNonFf status scope adminVk newRefs roster = .ok () ↔
      status = .fastForward ∨ (status = .nonFastForward → claimedNonFf = true) ∧
        Cosigned head adminVk newRefs roster := by
  unfold verifyForcePushPolicyScoped
  cases hcosig : head.adminCosig with
  | none =>
    have hnot : ¬ Cosigned head adminVk newRefs roster := by
      intro ⟨_, _, h, _⟩
      cases hcosig.symm.trans h
    cases status <;> cases claimedNonFf <;> simp [hnot]
  | some cosig =>
    cases adminVk with
    | none =>
      have hnot : ¬ Cosigned head none newRefs roster := fun ⟨_, _, _, h, _⟩ => nomatch h
      cases status <;> cases claimedNonFf <;> simp [hnot]
    | some vk =>
      have hcosigned : adminCosigVerify vk head.repoId head.mlsEpoch "push" head.seq
          head.prevHeadHash (refsDigest newRefs) (rosterDigest roster) cosig = .ok () ↔
          Cosigned head (some vk) newRefs roster := by
        rw [adminCosigVerify, orOther_eq_ok_iff]
        constructor
        · intro h
          exact ⟨cosig, vk, hcosig, rfl, h⟩
        · intro ⟨cosig', vk', hcosig', hvk, h⟩
          obtain rfl := Option.some.inj (hcosig.symm.trans hcosig')
          obtain rfl := Option.some.inj hvk
          exact h
      cases status with
      | fastForward => simp
      | nonFastForward =>
        by_cases hclaimed : claimedNonFf = true
        · simpa [hclaimed] using hcosigned
        · simp [hclaimed]
      | unverifiable => simpa using hcosigned

end Accepts

/-- Consecutive heads of a verified run are linked by their hashes. -/
theorem isChain_of_verifyHeadChainLoop {D : Type} [Sha512 D] [DecidableEq D]
    {heads : List (RefHead D)} {first : RefHead D} {expectSeq : Option UInt64}
    (h : verifyHeadChainLoop heads first.hash expectSeq = .ok ()) :
    (first :: heads).IsChain fun prev head => head.prevHeadHash = prev.hash := by
  induction heads generalizing first expectSeq with
  | nil => exact List.IsChain.singleton first
  | cons head rest ih =>
    unfold verifyHeadChainLoop at h
    split_ifs at h with hbroken
    refine List.isChain_cons_cons.mpr ⟨not_not.mp hbroken, ?_⟩
    cases expectSeq with
    | none => exact ih h
    | some prevSeq =>
      simp only at h
      split_ifs at h
      exact ih h

section Transparent

attribute [local instance] transparentMlDsa87

/-- A head that was signed with a flat seed passes under the seed's key. -/
theorem verifyPusherSig_flatSeed {D : Type} [Sha512 D] {head : RefHead D} {message : Bytes}
    (hmessage : leafSignMessage head = message)
    (hsig : head.pusherSig = clearSig (flatSeed 7) message) :
    verifyPusherSig head (paddedKey (flatSeed 7)) = .ok () := by
  have hvalid := mldsaVerify_of_valid (mldsaValid_flatSeed 7 7 message)
  rw [verifyPusherSig, hsig, hmessage, hvalid]
  rfl

end Transparent

end SafeHub
