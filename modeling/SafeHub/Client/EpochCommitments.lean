import SafeHub.Client.Consolidate

/-!
# What a receipt's epoch commitments bind

A receipt states for every epoch its first sequence, its last sequence and a digest over its
heads. The window check compares the digest only where the receipt states the span that the
window holds, and otherwise asks only that the window's span lies inside the stated one. The
signer chooses the span, so it also chooses whether the digest is compared.

## Main definitions

* `epochHeads`, `epochCommitment` — the heads of one epoch and what is stated about them
* `ConsolidationReceipt.inSpan` — the heads of a receipt's span
* `epochSpan` — the first and last sequence stated for an epoch

## Main results

* `getElem?_epochCommitments` — what is computed for an epoch
* `verifyConsolidationWindow_eq_ok_iff` — what an accepted receipt satisfies
* `epochCommitments_of_window_iff` — when an accepted receipt states the truth about an epoch
  that the window holds
-/

namespace SafeHub.Consolidate

open FixedWidth SignerCount
open Std (ExtTreeMap)

variable {D : Type} [Sha512 D] {heads : List (RefHead D)} {epoch : UInt64}

/-! ### The heads of an epoch -/

/-- The heads of one epoch, in order. -/
def epochHeads {D : Type} (epoch : UInt64) (heads : List (RefHead D)) : List (RefHead D) :=
  heads.filter fun head => head.mlsEpoch = epoch

/-- What is stated about an epoch with these heads. -/
def epochCommitment (epoch : UInt64) (group : List (RefHead D)) : UInt64 × UInt64 × HeadHash D :=
  ((group.head?.map RefHead.seq).getD 0, (group.getLast?.map RefHead.seq).getD 0,
    Sha512.digest (labelBytes "consol-epoch" ++ u64LE epoch ++
      group.flatMap fun head => u64LE head.seq ++ Sha512.toBytes head.hash))

theorem headsByEpoch_concat {D : Type} (heads : List (RefHead D)) (head : RefHead D) :
    headsByEpoch (heads ++ [head]) = (headsByEpoch heads).insert head.mlsEpoch
      ((headsByEpoch heads).getD head.mlsEpoch [] ++ [head]) := by
  rw [headsByEpoch, List.foldl_append]
  rfl

/-- Grouping the heads gives every epoch its heads, and no entry to an epoch without any. -/
theorem getElem?_headsByEpoch {D : Type} (heads : List (RefHead D)) (epoch : UInt64) :
    (headsByEpoch heads)[epoch]? =
      if epochHeads epoch heads = [] then none else some (epochHeads epoch heads) := by
  induction heads using List.reverseRecOn with
  | nil => rfl
  | append_singleton heads head ih =>
    have hgroup : epochHeads epoch (heads ++ [head]) =
        epochHeads epoch heads ++ if head.mlsEpoch = epoch then [head] else [] := by
      rw [epochHeads, List.filter_append, List.filter_singleton]
      simp [epochHeads]
    rw [headsByEpoch_concat, ExtTreeMap.getElem?_insert, hgroup]
    by_cases hepoch : head.mlsEpoch = epoch
    · -- the epoch's heads so far, also when there is no entry yet
      have hcurrent : (headsByEpoch heads).getD epoch [] = epochHeads epoch heads := by
        rw [ExtTreeMap.getD_eq_getD_getElem?, ih]
        split_ifs with hnone
        · exact hnone.symm
        · rfl
      rw [if_pos (Std.LawfulEqCmp.compare_eq_iff_eq.mpr hepoch), if_pos hepoch, hepoch, hcurrent,
        if_neg (by simp)]
    · rw [if_neg (mt Std.LawfulEqCmp.compare_eq_iff_eq.mp hepoch), if_neg hepoch, List.append_nil,
        ih]

theorem getElem?_epochCommitments (heads : List (RefHead D)) (epoch : UInt64) :
    (epochCommitments heads)[epoch]? =
      if epochHeads epoch heads = [] then none
      else some (epochCommitment epoch (epochHeads epoch heads)) := by
  rw [epochCommitments, ExtTreeMap.getElem?_map, getElem?_headsByEpoch]
  split_ifs <;> rfl

theorem epochCommitments_congr {heads' : List (RefHead D)}
    (h : epochHeads epoch heads = epochHeads epoch heads') :
    (epochCommitments heads)[epoch]? = (epochCommitments heads')[epoch]? := by
  rw [getElem?_epochCommitments, getElem?_epochCommitments, h]

/-! ### What the window check accepts -/

/-- The heads of a receipt's span. -/
def ConsolidationReceipt.inSpan {D : Type} (receipt : ConsolidationReceipt D)
    (heads : List (RefHead D)) : List (RefHead D) :=
  heads.filter fun head => receipt.fromSeq ≤ head.seq ∧ head.seq ≤ receipt.toSeq

/-- A window that has all the heads of an epoch in a span has them as the log has them. -/
theorem epochHeads_inSpan_eq {D : Type} {receipt : ConsolidationReceipt D}
    {windowHeads genuine : List (RefHead D)} (hnodup : genuine.Nodup)
    (hwindow : windowHeads.Sublist genuine)
    (hheld : ∀ head ∈ receipt.inSpan genuine, head.mlsEpoch = epoch → head ∈ windowHeads) :
    epochHeads epoch (receipt.inSpan windowHeads) =
      epochHeads epoch (receipt.inSpan genuine) := by
  have hsub : (epochHeads epoch (receipt.inSpan windowHeads)).Sublist
      (epochHeads epoch (receipt.inSpan genuine)) := (hwindow.filter _).filter _
  refine hsub.eq_of_length_le (((hnodup.filter _).filter _).subperm ?_).length_le
  intro head hhead
  obtain ⟨hspan, hepoch⟩ := List.mem_filter.mp hhead
  have hmem := hheld head hspan (of_decide_eq_true hepoch)
  exact List.mem_filter.mpr ⟨List.mem_filter.mpr ⟨hmem, (List.mem_filter.mp hspan).2⟩, hepoch⟩

variable [DecidableEq D] {receipt : ConsolidationReceipt D}

/-- A path of the right place that leads to the receipt's root is accepted. -/
theorem checkInclusion_eq_ok {proofs : ExtTreeMap UInt64 (MerklePath D) compare}
    {head : RefHead D} {path : MerklePath D} (hpath : proofs[head.seq]? = some path)
    (hindex : path.index = (head.seq - receipt.fromSeq).toNat)
    (hroot : merkleRootFromPath (logicalLeaf head) path = receipt.logicalRoot) :
    checkInclusion receipt proofs head = .ok () := by
  rw [checkInclusion, hpath]
  dsimp only
  rw [if_neg (not_not.mpr hindex), if_neg (not_not.mpr hroot)]

/-- An epoch passes when the receipt states it with a span around the window's, and with the
window's digest if the span is the window's. -/
theorem checkEpoch_eq_ok_iff {D : Type} [DecidableEq D] {receipt : ConsolidationReceipt D}
    {lo hi : UInt64} {digest : HeadHash D} :
    checkEpoch receipt (epoch, lo, hi, digest) = .ok () ↔
      ∃ rLo rHi rDigest, receipt.epochCommitments[epoch]? = some (rLo, rHi, rDigest) ∧
        rLo ≤ lo ∧ hi ≤ rHi ∧ ((lo, hi) = (rLo, rHi) → digest = rDigest) := by
  rw [checkEpoch]
  cases hstated : receipt.epochCommitments[epoch]? with
  | none =>
    refine iff_of_false (fun h => ?_) ?_
    · cases h
    · rintro ⟨_, _, _, hnone, -⟩
      cases hnone
  | some stated =>
    obtain ⟨rLo, rHi, rDigest⟩ := stated
    simp only [Option.some.injEq, Prod.mk.injEq]
    -- the same span under another digest, then a narrower span
    split_ifs with hchanged hnarrow
    · refine iff_of_false (fun h => ?_) ?_
      · cases h
      · rintro ⟨_, _, _, ⟨rfl, rfl, rfl⟩, -, -, hsame⟩
        exact hchanged.2 (hsame hchanged.1)
    · refine iff_of_false (fun h => ?_) ?_
      · cases h
      · rintro ⟨_, _, _, ⟨rfl, rfl, rfl⟩, hlo, hhi, -⟩
        rcases hnarrow with hlt | hlt
        · exact absurd hlt (UInt64.not_lt.mpr hlo)
        · exact absurd hlt (UInt64.not_lt.mpr hhi)
    · obtain ⟨hlo, hhi⟩ := not_or.mp hnarrow
      refine iff_of_true rfl ⟨rLo, rHi, rDigest, ⟨rfl, rfl, rfl⟩, UInt64.not_lt.mp hlo,
        UInt64.not_lt.mp hhi, fun hsame => ?_⟩
      by_contra hne
      exact hchanged ⟨hsame, hne⟩

section Accepted

variable [MlDsa87] {adminVks : List Bytes} {windowHeads : List (RefHead D)}
  {proofs : ExtTreeMap UInt64 (MerklePath D) compare}

/-- What an accepted receipt satisfies, check by check. -/
structure WindowAccepts (receipt : ConsolidationReceipt D) (adminVks : List Bytes)
    (windowHeads : List (RefHead D)) (proofs : ExtTreeMap UInt64 (MerklePath D) compare) :
    Prop where
  keys : adminVks ≠ []
  signed : receipt.adminSig ≠ []
  authorized :
    verifyAdminAuthorization (consolidationMessage receipt) adminVks receipt.adminSig = .ok ()
  meets : receipt.inSpan windowHeads ≠ []
  included : ∀ head ∈ receipt.inSpan windowHeads, checkInclusion receipt proofs head = .ok ()
  epochs : ∀ epoch stated, (epochCommitments (receipt.inSpan windowHeads))[epoch]? = some stated →
    checkEpoch receipt (epoch, stated) = .ok ()
  anchor : checkWindowAnchor receipt (receipt.inSpan windowHeads) = .ok ()

theorem verifyConsolidationWindow_eq_ok_iff :
    verifyConsolidationWindow receipt adminVks windowHeads proofs = .ok () ↔
      WindowAccepts receipt adminVks windowHeads proofs := by
  have hepochs : (∀ entry ∈ (epochCommitments (receipt.inSpan windowHeads)).toList,
      checkEpoch receipt entry = .ok ()) ↔ ∀ epoch stated,
        (epochCommitments (receipt.inSpan windowHeads))[epoch]? = some stated →
          checkEpoch receipt (epoch, stated) = .ok () := by
    simp only [Prod.forall, ExtTreeMap.mem_toList_iff_getElem?_eq_some]
  rw [verifyConsolidationWindow]
  split_ifs with hkeys hsigned
  · refine iff_of_false (fun h => ?_) fun h => h.keys hkeys
    cases h
  · refine iff_of_false (fun h => ?_) fun h => h.signed hsigned
    cases h
  · -- the checks after the signature, in the order of the source
    rw [bind_eq_ok_iff]
    change (∃ _, _ ∧ (if receipt.inSpan windowHeads = [] then _ else _) = _) ↔ _
    constructor
    · rintro ⟨_, hauth, h⟩
      split_ifs at h with hnone
      · cases h
      · obtain ⟨_, hincluded, h⟩ := bind_eq_ok_iff.mp h
        obtain ⟨_, hlocal, hanchor⟩ := bind_eq_ok_iff.mp h
        exact ⟨hkeys, hsigned, hauth, hnone, forM_eq_ok_iff.mp hincluded,
          hepochs.mp (forM_eq_ok_iff.mp hlocal), hanchor⟩
    · intro h
      refine ⟨(), h.authorized, ?_⟩
      rw [if_neg h.meets]
      exact bind_eq_ok_iff.mpr ⟨(), forM_eq_ok_iff.mpr h.included, bind_eq_ok_iff.mpr
        ⟨(), forM_eq_ok_iff.mpr (hepochs.mpr h.epochs), h.anchor⟩⟩

/-! ### Epochs that the window holds -/

/-- The first and last sequence that commitments state for an epoch. -/
def epochSpan {D : Type} (commitments : EpochCommitments D) (epoch : UInt64) :
    Option (UInt64 × UInt64) :=
  commitments[epoch]?.map fun stated => (stated.1, stated.2.1)

/-- An accepted receipt states the truth about an epoch of which the window has every head in
the receipt's span exactly when it states that epoch's first and last sequence, or leaves the
epoch out where there are no such heads. -/
theorem epochCommitments_of_window_iff {genuine : List (RefHead D)} (hnodup : genuine.Nodup)
    (hwindow : windowHeads.Sublist genuine)
    (hheld : ∀ head ∈ receipt.inSpan genuine, head.mlsEpoch = epoch → head ∈ windowHeads)
    (haccept : verifyConsolidationWindow receipt adminVks windowHeads proofs = .ok ()) :
    receipt.epochCommitments[epoch]? = (epochCommitments (receipt.inSpan genuine))[epoch]? ↔
      epochSpan receipt.epochCommitments epoch =
        epochSpan (epochCommitments (receipt.inSpan genuine)) epoch := by
  constructor
  · intro h
    rw [epochSpan, epochSpan, h]
  · intro hspan
    rw [epochSpan, epochSpan] at hspan
    have haccepts := (verifyConsolidationWindow_eq_ok_iff.mp haccept).epochs epoch
    rw [epochCommitments_congr (epochHeads_inSpan_eq hnodup hwindow hheld)] at haccepts
    cases hlocal : (epochCommitments (receipt.inSpan genuine))[epoch]? with
    | none =>
      rw [hlocal] at hspan
      exact Option.map_eq_none_iff.mp hspan
    | some stated =>
      -- equal spans are the case in which the digests are compared
      obtain ⟨lo, hi, digest⟩ := stated
      obtain ⟨rLo, rHi, rDigest, hstated, -, -, hdigest⟩ :=
        checkEpoch_eq_ok_iff.mp (haccepts (lo, hi, digest) hlocal)
      rw [hlocal, hstated] at hspan
      obtain ⟨rfl, rfl⟩ := Prod.mk.inj (Option.some.inj hspan)
      rw [hstated, hdigest rfl]

end Accepted

section Sample

attribute [local instance] transparentSha512 transparentMlDsa87

/-- A receipt for the sample head that states a last sequence and a digest for its epoch. -/
def statedReceipt (hi : UInt64) (digest adminSig : Bytes) : ConsolidationReceipt Bytes where
  repoId := Vector.replicate 32 0
  epoch := 0
  fromSeq := 1
  toSeq := 1
  logicalRoot := logicalLeaf sampleAnchor
  epochCommitments := (∅ : EpochCommitments Bytes).insert 0 (1, hi, digest)
  checkpoint := none
  adminSig := adminSig

/-- The receipt, signed by the admin. -/
def signedReceipt (hi : UInt64) (digest : Bytes) : ConsolidationReceipt Bytes :=
  statedReceipt hi digest
    (quorumBytes 1 (flatSigs (consolidationMessage (statedReceipt hi digest [])) [1]))

/-- The proof that the sample head is the only leaf. -/
def sampleProofs : ExtTreeMap UInt64 (MerklePath Bytes) compare :=
  (∅ : ExtTreeMap UInt64 (MerklePath Bytes) compare).insert 1 ⟨0, []⟩

/-- What the holder of the sample head computes for its epoch. -/
def sampleDigest : Bytes := (epochCommitment 0 [sampleAnchor]).2.2

theorem epochCommitments_sampleAnchor (epoch : UInt64) :
    (epochCommitments [sampleAnchor])[epoch]? =
      if epoch = 0 then some (1, 1, sampleDigest) else none := by
  rw [getElem?_epochCommitments]
  by_cases hepoch : epoch = 0
  · subst hepoch
    rfl
  · have hnone : epochHeads epoch [sampleAnchor] = [] := by
      rw [epochHeads, List.filter_eq_nil_iff]
      intro head hhead
      rw [List.mem_singleton.mp hhead, decide_eq_true_eq]
      exact fun h => hepoch h.symm
    rw [if_pos hnone, if_neg hepoch]

theorem one_le_backedCount_flatSigs (msg : Bytes) :
    1 ≤ backedCount (mldsaValid · msg) (flatKeys [1]) (flatSigs msg [1]) := by
  simp [backedCount, flatKeys, flatSigs]

/-- The holder of the sample head accepts any last sequence past its own with any digest. -/
theorem verifyConsolidationWindow_signedReceipt {hi : UInt64} {digest : Bytes} (hhi : 1 ≤ hi)
    (hdigest : hi = 1 → digest = sampleDigest) :
    verifyConsolidationWindow (signedReceipt hi digest) (flatKeys [1]) [sampleAnchor]
      sampleProofs = .ok () := by
  have hspan : (signedReceipt hi digest).inSpan [sampleAnchor] = [sampleAnchor] := rfl
  rw [verifyConsolidationWindow_eq_ok_iff]
  refine ⟨by simp [flatKeys], by simp [signedReceipt, statedReceipt, quorumBytes], ?_,
    by rw [hspan]; simp, ?_, ?_, rfl⟩
  · exact (verifyAdminAuthorization_eq_ok_iff_of_bundle
      (decodeAdminQuorum_flatSigs 1 _ (by decide))).mpr (one_le_backedCount_flatSigs _)
  · rw [hspan]
    intro head hhead
    rw [List.mem_singleton.mp hhead]
    simp [checkInclusion, sampleProofs, sampleAnchor, signedReceipt, statedReceipt,
      merkleRootFromPath]
  · rw [hspan]
    intro epoch stated hstated
    rw [epochCommitments_sampleAnchor] at hstated
    split_ifs at hstated with hepoch
    obtain rfl := Option.some.inj hstated
    subst hepoch
    refine checkEpoch_eq_ok_iff.mpr ⟨1, hi, digest, ?_, UInt64.le_refl 1, hhi, fun hsame => ?_⟩
    · exact ExtTreeMap.getElem?_insert_self
    · exact (hdigest (Prod.mk.inj hsame).2.symm).symm

/-- The head after the sample head, under the next epoch. -/
def nextAnchor : RefHead Bytes :=
  { sampleAnchor with
    seq := 2
    prevHeadHash := sampleAnchor.hash
    mlsEpoch := 1 }

def lastAnchor : RefHead Bytes :=
  { sampleAnchor with
    seq := 3
    prevHeadHash := nextAnchor.hash
    mlsEpoch := 1 }

def threeAnchors : List (RefHead Bytes) := [sampleAnchor, nextAnchor, lastAnchor]

/-- A receipt for the three heads that states their epochs as they are. -/
def threeReceipt (adminSig : Bytes) : ConsolidationReceipt Bytes where
  repoId := Vector.replicate 32 0
  epoch := 1
  fromSeq := 1
  toSeq := 3
  logicalRoot := node (node (logicalLeaf sampleAnchor) (logicalLeaf nextAnchor))
    (node (logicalLeaf lastAnchor) (logicalLeaf lastAnchor))
  epochCommitments := epochCommitments threeAnchors
  checkpoint := none
  adminSig := adminSig

/-- The receipt, signed by the admin. -/
def signedThree : ConsolidationReceipt Bytes :=
  threeReceipt (quorumBytes 1 (flatSigs (consolidationMessage (threeReceipt [])) [1]))

/-- The path of the second head. -/
def secondPath : MerklePath Bytes where
  index := 1
  steps := [⟨logicalLeaf sampleAnchor, false⟩,
    ⟨node (logicalLeaf lastAnchor) (logicalLeaf lastAnchor), true⟩]

/-- The path of the third head, which is doubled. -/
def thirdPath : MerklePath Bytes where
  index := 2
  steps := [⟨logicalLeaf lastAnchor, true⟩,
    ⟨node (logicalLeaf sampleAnchor) (logicalLeaf nextAnchor), false⟩]

def laterProofs : ExtTreeMap UInt64 (MerklePath Bytes) compare :=
  ((∅ : ExtTreeMap UInt64 (MerklePath Bytes) compare).insert 2 secondPath).insert 3 thirdPath

/-- A member that holds the second epoch only accepts the receipt. -/
theorem verifyConsolidationWindow_signedThree :
    verifyConsolidationWindow signedThree (flatKeys [1]) [nextAnchor, lastAnchor]
      laterProofs = .ok () := by
  have hspan : signedThree.inSpan [nextAnchor, lastAnchor] = [nextAnchor, lastAnchor] := rfl
  rw [verifyConsolidationWindow_eq_ok_iff]
  refine ⟨by simp [flatKeys], by simp [signedThree, threeReceipt, quorumBytes], ?_,
    by rw [hspan]; simp, ?_, ?_, rfl⟩
  · exact (verifyAdminAuthorization_eq_ok_iff_of_bundle
      (decodeAdminQuorum_flatSigs 1 _ (by decide))).mpr (one_le_backedCount_flatSigs _)
  · rw [hspan]
    intro head hhead
    rcases List.mem_pair.mp hhead with rfl | rfl
    · have hpath : laterProofs[(2 : UInt64)]? = some secondPath := by
        rw [laterProofs, ExtTreeMap.getElem?_insert, if_neg (by decide),
          ExtTreeMap.getElem?_insert_self]
      exact checkInclusion_eq_ok hpath rfl rfl
    · have hpath : laterProofs[lastAnchor.seq]? = some thirdPath :=
        ExtTreeMap.getElem?_insert_self
      exact checkInclusion_eq_ok hpath rfl rfl
  · rw [hspan]
    rintro epoch ⟨lo, hi, digest⟩ hstated
    by_cases hepoch : epoch = 1
    · -- the member holds all heads of the second epoch
      subst hepoch
      have hsame : (epochCommitments [nextAnchor, lastAnchor])[(1 : UInt64)]? =
          (epochCommitments threeAnchors)[(1 : UInt64)]? :=
        epochCommitments_congr rfl
      exact checkEpoch_eq_ok_iff.mpr ⟨lo, hi, digest, hsame.symm.trans hstated,
        UInt64.le_refl lo, UInt64.le_refl hi, fun _ => rfl⟩
    · have hnone : epochHeads epoch [nextAnchor, lastAnchor] = [] := by
        have hother : ¬ (1 : UInt64) = epoch := fun h => hepoch h.symm
        simp [epochHeads, nextAnchor, lastAnchor, hother]
      rw [getElem?_epochCommitments, if_pos hnone] at hstated
      cases hstated

/-- For that member the receipt has the second epoch's commitment. -/
theorem epochCommitments_of_window_iff_threeAnchors :
    signedThree.epochCommitments[(1 : UInt64)]? = (epochCommitments
        (signedThree.inSpan threeAnchors))[(1 : UInt64)]? := by
  have hnodup : threeAnchors.Nodup :=
    List.Nodup.of_map RefHead.seq (by decide)
  refine (epochCommitments_of_window_iff hnodup (List.sublist_cons_self _ _) ?_
    verifyConsolidationWindow_signedThree).mpr rfl
  intro head hhead hepoch
  rcases List.mem_cons.mp (List.mem_filter.mp hhead).1 with rfl | hlater
  · cases hepoch
  · exact hlater

/-- The sample head's holder, who has all of its epoch, accepts a receipt whose digest for that
epoch is over no heads, because the receipt's span goes one sequence further. -/
theorem verifyConsolidationWindow_hides_removal :
    ¬ ∀ (receipt : ConsolidationReceipt Bytes) (adminVks : List Bytes)
      (genuine windowHeads : List (RefHead Bytes))
      (proofs : ExtTreeMap UInt64 (MerklePath Bytes) compare) (epoch : UInt64),
      genuine.Nodup → windowHeads.Sublist genuine →
      (∀ head ∈ receipt.inSpan genuine, head.mlsEpoch = epoch → head ∈ windowHeads) →
      verifyConsolidationWindow receipt adminVks windowHeads proofs = .ok () →
      receipt.epochCommitments[epoch]? = (epochCommitments (receipt.inSpan genuine))[epoch]? := by
  intro h
  have hclaim := h (signedReceipt 2 (epochCommitment 0 []).2.2) (flatKeys [1]) [sampleAnchor]
    [sampleAnchor] sampleProofs 0 (List.nodup_singleton sampleAnchor)
    (List.Sublist.refl [sampleAnchor]) (fun head hhead _ => (List.mem_filter.mp hhead).1)
    (verifyConsolidationWindow_signedReceipt (by decide) (by decide))
  have hspan := congrArg (Option.map fun stated => stated.2.1) hclaim
  exact absurd hspan (by decide)

end Sample

end SafeHub.Consolidate
