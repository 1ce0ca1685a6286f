import SafeHub.Client.AdminQuorum
import Std.Data.ExtTreeMap.Lemmas

/-!
# Consolidation receipts

Consolidation rewrites storage while the logical log stays unchanged. A receipt
commits to the log's leaves and epochs and is authorized by the admin
credential: one signature, or a quorum bundle over the same transcript. Window
members and readers without history check the authorization first.

## Main definitions

* `merkleRoot`, `merklePath`, `merkleRootFromPath` — the tree over logical leaves
* `ConsolidationReceipt`, `consolidationMessage` — the receipt and its transcript
* `verifyAdminAuthorization` — the admin credential check
* `verifyCheckpointAnchor`, `verifyConsolidationWindow` — the two readers' checks

## Main results

* `verifyAdminAuthorization_exact_iff` — when an accepted authorization is one by
  enough distinct admins
-/

namespace SafeHub.Consolidate

open FixedWidth SignerCount
open Std (ExtTreeMap)

variable {D : Type} [Sha512 D]

/-! ### The Merkle tree over logical leaves -/

/-- Per-head logical leaf: sequence, head identity, payload root and epoch. -/
def logicalLeaf (head : RefHead D) : D :=
  Sha512.digest (labelBytes "consol-leaf" ++ u64LE head.seq ++ Sha512.toBytes head.hash ++
    Sha512.toBytes head.bundleRoot ++ u64LE head.mlsEpoch)

/-- An inner node of the tree. -/
def node (left right : D) : D :=
  Sha512.digest (labelBytes "consol-node" ++ Sha512.toBytes left ++ Sha512.toBytes right)

/-- One step of an inclusion path. -/
structure MerkleStep (D : Type) where
  /-- Sibling digest at this level. -/
  sibling : D
  /-- Whether the sibling sits on the right of the running hash. -/
  siblingRight : Bool
  deriving DecidableEq, Repr

/-- Inclusion proof for one logical leaf. -/
structure MerklePath (D : Type) where
  /-- Leaf index within the consolidated span. -/
  index : ℕ
  /-- Path from leaf to root. -/
  steps : List (MerkleStep D)
  deriving DecidableEq, Repr

/-- The level above: nodes over consecutive pairs, an odd last one doubled. -/
def nextLevel : List D → List D
  | [] => []
  | [last] => [node last last]
  | left :: right :: rest => node left right :: nextLevel rest

theorem two_mul_length_nextLevel_le (level : List D) :
    2 * (nextLevel level).length ≤ level.length + 1 := by
  induction level using nextLevel.induct with
  | case1 => simp [nextLevel]
  | case2 last => simp [nextLevel]
  | case3 left right rest ih =>
    simp only [nextLevel, List.length_cons]
    omega

theorem length_nextLevel_lt {level : List D} (h : 1 < level.length) :
    (nextLevel level).length < level.length := by
  have hhalf := two_mul_length_nextLevel_le level
  omega

/-- Merkle root over `leaves`; an odd level duplicates its last node. -/
def merkleRoot (leaves : List D) : D :=
  match leaves with
  | [] => Sha512.digest (labelBytes "consol-empty")
  | [root] => root
  | first :: second :: rest => merkleRoot (nextLevel (first :: second :: rest))
termination_by leaves.length
decreasing_by exact length_nextLevel_lt (by simp)

/-- The path of the leaf at `index` up from `level`. -/
def merkleSteps (level : List D) (index : ℕ) : List (MerkleStep D) :=
  if 1 < level.length then
    let siblingRight := index % 2 = 0
    let siblingIndex := if siblingRight then index + 1 else index - 1
    -- the index itself is in range, so the digest of last resort is never used
    let sibling := level.getD siblingIndex (level.getD index Sha512.zero)
    ⟨sibling, siblingRight⟩ :: merkleSteps (nextLevel level) (index / 2)
  else
    []
termination_by level.length
decreasing_by exact length_nextLevel_lt ‹_›

/-- Inclusion path for `index` in the tree built from `leaves`. -/
def merklePath (leaves : List D) (index : ℕ) : Option (MerklePath D) :=
  if leaves.length ≤ index then none else some ⟨index, merkleSteps leaves index⟩

/-- Recompute the root implied by `leaf` and `path`. -/
def merkleRootFromPath (leaf : D) (path : MerklePath D) : D :=
  path.steps.foldl
    (fun running step =>
      if step.siblingRight then node running step.sibling else node step.sibling running)
    leaf

/-! ### Receipts -/

/-- What a compaction replaces the replayed prefix with. -/
structure CheckpointBinding (D : Type) where
  /-- Sequence the checkpoint materializes. -/
  atSeq : UInt64
  /-- Hash of the head at `atSeq`. -/
  anchorHead : HeadHash D
  /-- Digest over the ref map sealed in that head. -/
  refsDigest : HeadHash D
  /-- Root of the sealed checkpoint bundle. -/
  bundleRoot : BlobId D
  deriving DecidableEq, Repr

/-- Digest a reader recomputes from the anchor head's own decrypted ref bytes. -/
def refsDigest (repo : RepoId) (atSeq : UInt64) (refsPlaintext : Bytes) : HeadHash D :=
  Sha512.digest (labelBytes "consol-refs" ++ repo.toList ++ u64LE atSeq ++
    leBytes 8 refsPlaintext.length ++ refsPlaintext)

/-- Per epoch: its first sequence, last sequence and digest. -/
abbrev EpochCommitments (D : Type) := ExtTreeMap UInt64 (UInt64 × UInt64 × HeadHash D) compare

/-- Admin-authorized commitment to a consolidated span of the log. -/
structure ConsolidationReceipt (D : Type) where
  repoId : RepoId
  /-- Epoch in which the consolidation was performed. -/
  epoch : UInt64
  /-- First sequence of the span. -/
  fromSeq : UInt64
  /-- Last sequence of the span. -/
  toSeq : UInt64
  /-- Merkle root over the logical leaves of the span. -/
  logicalRoot : BlobId D
  epochCommitments : EpochCommitments D
  /-- The checkpoint, when the consolidation compacted rather than attested. -/
  checkpoint : Option (CheckpointBinding D)
  /-- Admin signature or quorum bundle over the receipt. -/
  adminSig : Bytes

/-- A receipt plus the leaves needed to answer inclusion queries. -/
structure ConsolidationPlan (D : Type) where
  receipt : ConsolidationReceipt D
  /-- Logical leaves in sequence order. -/
  leaves : List D

/-- Inclusion proof for the head at `seq`, if it is inside the span. -/
def ConsolidationPlan.proofFor (plan : ConsolidationPlan D) (seq : UInt64) :
    Option (MerklePath D) :=
  if seq < plan.receipt.fromSeq ∨ plan.receipt.toSeq < seq then none
  else merklePath plan.leaves (seq - plan.receipt.fromSeq).toNat

/-- The heads of each epoch, in the order they are listed. -/
def headsByEpoch (heads : List (RefHead D)) : ExtTreeMap UInt64 (List (RefHead D)) compare :=
  heads.foldl
    (fun perEpoch head =>
      perEpoch.insert head.mlsEpoch (perEpoch.getD head.mlsEpoch [] ++ [head]))
    ∅

/-- Per-epoch commitments over `heads`, matching what a verifier recomputes. -/
def epochCommitments (heads : List (RefHead D)) : EpochCommitments D :=
  (headsByEpoch heads).map fun epoch group =>
    let lo := (group.head?.map RefHead.seq).getD 0
    let hi := (group.getLast?.map RefHead.seq).getD 0
    let digest := Sha512.digest (labelBytes "consol-epoch" ++ u64LE epoch ++
      group.flatMap fun head => u64LE head.seq ++ Sha512.toBytes head.hash)
    (lo, hi, digest)

/-- Transcript signed by the admin; the signature is not part of it. -/
def consolidationMessage (receipt : ConsolidationReceipt D) : Bytes :=
  labelBytes "consolidation" ++ receipt.repoId.toList ++ u64LE receipt.epoch ++
    u64LE receipt.fromSeq ++ u64LE receipt.toSeq ++ Sha512.toBytes receipt.logicalRoot ++
    (receipt.epochCommitments.toList.flatMap fun (epoch, lo, hi, digest) =>
      u64LE epoch ++ u64LE lo ++ u64LE hi ++ Sha512.toBytes digest) ++
    match receipt.checkpoint with
    | none => [0]
    | some cp => 1 :: (u64LE cp.atSeq ++ Sha512.toBytes cp.anchorHead ++
        Sha512.toBytes cp.refsDigest ++ Sha512.toBytes cp.bundleRoot)

/-- The first listed head that does not directly follow the one before it. -/
def firstGap : List (RefHead D) → Option (RefHead D)
  | head :: next :: rest =>
    if next.seq ≠ head.seq + 1 then some next else firstGap (next :: rest)
  | _ => none

/-- Build the binding for consolidating `heads` (ascending, contiguous). -/
def planConsolidation (repo : RepoId) (epoch : UInt64) (heads : List (RefHead D)) :
    Except ClientError (ConsolidationPlan D) :=
  match heads.head?, heads.getLast? with
  | some first, some last =>
    match firstGap heads with
    | some gap => .error (.other s!"consolidation span is not contiguous at seq {gap.seq}")
    | none =>
      let leaves := heads.map logicalLeaf
      .ok {
        receipt := {
          repoId := repo
          epoch := epoch
          fromSeq := first.seq
          toSeq := last.seq
          logicalRoot := merkleRoot leaves
          epochCommitments := epochCommitments heads
          checkpoint := none
          adminSig := [] }
        leaves := leaves }
  | _, _ => .error (.other "consolidation needs at least one head")

/-- Plan a compaction: the attestation plus the checkpoint that lets readers
stop replaying the span. -/
def planCompaction (repo : RepoId) (epoch : UInt64) (heads : List (RefHead D))
    (checkpointRefs : Bytes) (bundleRoot : BlobId D) :
    Except ClientError (ConsolidationPlan D) := do
  let plan ← planConsolidation repo epoch heads
  match heads.getLast? with
  | some anchor =>
    let checkpoint : CheckpointBinding D := {
      atSeq := anchor.seq
      anchorHead := anchor.hash
      refsDigest := refsDigest repo anchor.seq checkpointRefs
      bundleRoot := bundleRoot }
    return { plan with receipt := { plan.receipt with checkpoint := some checkpoint } }
  | none => return plan

section Authorization

variable [MlDsa87]

/-- Authorize a receipt with the repository admin credential. -/
def signConsolidation (receipt : ConsolidationReceipt D) (admin : MlDsa87KeyPair) :
    Except ClientError (ConsolidationReceipt D) := do
  let sig ← orOther (admin.sign (consolidationMessage receipt))
  return { receipt with adminSig := sig }

/-- Authorize a receipt with an m-of-n admin quorum. -/
def signConsolidationQuorum (receipt : ConsolidationReceipt D) (admins : List MlDsa87KeyPair)
    (m : UInt8) : Except ClientError (ConsolidationReceipt D) := do
  let sigs ← admins.mapM fun admin => orOther (admin.sign (consolidationMessage receipt))
  let bundle ← encodeAdminQuorum m sigs
  return { receipt with adminSig := bundle }

/-! ### Verification -/

/-- Count the bundle's signatures that are valid under some admin key. -/
def verifyQuorumOver (msg : Bytes) (adminVks : List Bytes) (sig : Bytes) :
    Except ClientError Unit :=
  match decodeAdminQuorum sig with
  | none => .error (.other "malformed admin quorum")
  | some (m, sigs) =>
    let ok := satCount (fun s => adminVks.any fun vk => mldsaValid vk msg s) sigs
    if ok < m then
      .error (.other s!"consolidation admin quorum failed: {ok}/{m} valid")
    else
      .ok ()

/-- Check one admin signature, or a quorum bundle, over `msg`. -/
def verifyAdminAuthorization (msg : Bytes) (adminVks : List Bytes) (sig : Bytes) :
    Except ClientError Unit :=
  if (decodeAdminQuorum sig).isSome then
    verifyQuorumOver msg adminVks sig
  else if adminVks.any fun vk => mldsaValid vk msg sig then
    .ok ()
  else
    .error (.other "consolidation was not authorized by an admin credential")

/-- The checks of an anchor head against the checkpoint a receipt publishes. -/
def checkAnchor (receipt : ConsolidationReceipt D) (cp : CheckpointBinding D)
    (anchor : RefHead D) [DecidableEq D] (refsPlaintext : Bytes) : Except ClientError Unit :=
  if anchor.repoId ≠ receipt.repoId then
    .error (.other "checkpoint anchor belongs to a different repository")
  else if anchor.seq ≠ cp.atSeq then
    .error (.other
      s!"checkpoint claims seq {cp.atSeq} but the anchor head is seq {anchor.seq}")
  else if anchor.hash ≠ cp.anchorHead then
    .error (.other
      s!"checkpoint at seq {cp.atSeq} is bound to a different head than the one served")
  else if refsDigest receipt.repoId cp.atSeq refsPlaintext ≠ cp.refsDigest then
    .error (.other
      s!"checkpoint tips disagree with the ref map sealed in head {cp.atSeq}")
  else if cp.atSeq < receipt.fromSeq ∨ receipt.toSeq < cp.atSeq then
    .error (.other (s!"checkpoint at seq {cp.atSeq} lies outside the consolidated span " ++
      s!"[{receipt.fromSeq},{receipt.toSeq}]"))
  else
    .ok ()

/-- Verify a checkpoint against its anchor head alone. -/
def verifyCheckpointAnchor [DecidableEq D] (receipt : ConsolidationReceipt D)
    (adminVks : List Bytes) (anchor : RefHead D) (refsPlaintext : Bytes) :
    Except ClientError Unit :=
  if adminVks = [] then
    .error (.other "checkpoint verification requires at least one admin verifying key")
  else if receipt.adminSig = [] then
    .error (.other "consolidation receipt carries no admin authorization")
  else
    match receipt.checkpoint with
    | none => .error (.other ("receipt attests a span but publishes no checkpoint: " ++
        "readers cannot skip the replay it covers"))
    | some cp => do
      verifyAdminAuthorization (consolidationMessage receipt) adminVks receipt.adminSig
      checkAnchor receipt cp anchor refsPlaintext

/-- The inclusion check of one head of the window. -/
def checkInclusion [DecidableEq D] (receipt : ConsolidationReceipt D)
    (proofs : ExtTreeMap UInt64 (MerklePath D) compare) (head : RefHead D) :
    Except ClientError Unit :=
  match proofs[head.seq]? with
  | none => .error (.other ("consolidation receipt has no inclusion proof for seq " ++
      s!"{head.seq} (inside this window)"))
  | some path =>
    let expectIndex := (head.seq - receipt.fromSeq).toNat
    if path.index ≠ expectIndex then
      .error (.other (s!"inclusion proof for seq {head.seq} claims leaf index {path.index} " ++
        s!"(expected {expectIndex})"))
    else if merkleRootFromPath (logicalLeaf head) path ≠ receipt.logicalRoot then
      .error (.other (s!"consolidation dropped or rewrote the head at seq {head.seq}: " ++
        "it does not hash into the committed logical root"))
    else
      .ok ()

/-- The check of one epoch of the window against the receipt's commitment. -/
def checkEpoch [DecidableEq D] (receipt : ConsolidationReceipt D) :
    UInt64 × UInt64 × UInt64 × HeadHash D → Except ClientError Unit
  | (epoch, lo, hi, digest) =>
    match receipt.epochCommitments[epoch]? with
    | none => .error (.other
        s!"consolidation receipt omits epoch {epoch}, which this window holds")
    | some (rLo, rHi, rDigest) =>
      -- a window that holds part of an epoch has no opinion about the rest of it
      if (lo, hi) = (rLo, rHi) ∧ digest ≠ rDigest then
        .error (.other
          s!"consolidation changed the head set of epoch {epoch} inside this window")
      else if lo < rLo ∨ rHi < hi then
        .error (.other (s!"consolidation receipt covers epoch {epoch} only over " ++
          s!"[{rLo},{rHi}] but this window holds [{lo},{hi}]"))
      else
        .ok ()

/-- The check of a window that may hold the checkpoint's anchor. -/
def checkWindowAnchor [DecidableEq D] (receipt : ConsolidationReceipt D)
    (inSpan : List (RefHead D)) : Except ClientError Unit :=
  match receipt.checkpoint with
  | none => .ok ()
  | some cp =>
    if (inSpan.find? fun head => head.seq = cp.atSeq).any fun anchor =>
        anchor.hash ≠ cp.anchorHead then
      .error (.other
        s!"checkpoint at seq {cp.atSeq} is bound to a head this window does not have")
    else if cp.atSeq < receipt.fromSeq ∨ receipt.toSeq < cp.atSeq then
      .error (.other (s!"checkpoint at seq {cp.atSeq} lies outside the consolidated span " ++
        s!"[{receipt.fromSeq},{receipt.toSeq}]"))
    else
      .ok ()

/-- Verify a consolidation receipt from a window-limited view. -/
def verifyConsolidationWindow [DecidableEq D] (receipt : ConsolidationReceipt D)
    (adminVks : List Bytes) (windowHeads : List (RefHead D))
    (proofs : ExtTreeMap UInt64 (MerklePath D) compare) : Except ClientError Unit :=
  if adminVks = [] then
    .error (.other "consolidation verification requires at least one admin verifying key")
  else if receipt.adminSig = [] then
    .error (.other "consolidation receipt carries no admin authorization")
  else do
    verifyAdminAuthorization (consolidationMessage receipt) adminVks receipt.adminSig
    let inSpan := windowHeads.filter fun head =>
      receipt.fromSeq ≤ head.seq ∧ head.seq ≤ receipt.toSeq
    if inSpan = [] then
      throw (.other "verifier window does not intersect the consolidated span")
    inSpan.forM (checkInclusion receipt proofs)
    (epochCommitments inSpan).toList.forM (checkEpoch receipt)
    checkWindowAnchor receipt inSpan

/-! ### What an accepted authorization proves -/

/-- `sig` is one admin's signature on `msg`, or a bundle with a positive
threshold and that many distinct admins' signatures. -/
def AdminAuthorized (adminVks : List Bytes) (msg sig : Bytes) : Prop :=
  (∃ vk ∈ adminVks, mldsaValid vk msg sig) ∨
    ∃ m sigs, decodeAdminQuorum sig = some (m, sigs) ∧ 1 ≤ m.toNat ∧
      m.toNat ≤ (distinctSigners (mldsaValid · msg) adminVks sigs).card

/-- Some admin signed `msg`, with `sig` itself or with a signature packed in it. -/
def SignedByAdmin (adminVks : List Bytes) (msg sig : Bytes) : Prop :=
  ∃ vk ∈ adminVks, mldsaValid vk msg sig ∨
    ∃ m sigs, decodeAdminQuorum sig = some (m, sigs) ∧ ∃ s ∈ sigs, mldsaValid vk msg s

theorem AdminAuthorized.signedByAdmin {adminVks : List Bytes} {msg sig : Bytes}
    (h : AdminAuthorized adminVks msg sig) : SignedByAdmin adminVks msg sig := by
  rcases h with ⟨vk, hvk, hvalid⟩ | ⟨m, sigs, hdecode, hpos, hmany⟩
  · exact ⟨vk, hvk, .inl hvalid⟩
  · obtain ⟨vk, hvk, hsigned⟩ := distinctSigners_nonempty_iff.mp (hpos.trans hmany)
    exact ⟨vk, hvk, .inr ⟨m, sigs, hdecode, hsigned⟩⟩

/-- A bundle of signatures by different admins, each under one listed key, whose bytes are not
also a signature themselves. -/
structure SignedOnceEach (adminVks : List Bytes) (msg sig : Bytes) (m : UInt8)
    (sigs : List Bytes) : Prop where
  positive : m ≠ 0
  bundled : ∀ vk ∈ adminVks, ¬ mldsaValid vk msg sig
  unique : ∀ s ∈ sigs, ∀ vk ∈ adminVks, ∀ vk' ∈ adminVks,
    mldsaValid vk msg s → mldsaValid vk' msg s → vk = vk'
  once : sigs.Pairwise fun s s' => ∀ vk ∈ adminVks, mldsaValid vk msg s → ¬ mldsaValid vk msg s'

/-- The bundles on which counting signatures does no harm. -/
structure BundleAligned (adminVks : List Bytes) (msg sig : Bytes) (m : UInt8)
    (sigs : List Bytes) : Prop where
  /-- The threshold is positive, unless the bytes are a signature themselves. -/
  positive : m = 0 → ∃ vk ∈ adminVks, mldsaValid vk msg sig
  /-- Repeated signatures do not make up for the admins that are missing. -/
  repeated : (∀ vk ∈ adminVks, ¬ mldsaValid vk msg sig) →
    (distinctSigners (mldsaValid · msg) adminVks sigs).card < m.toNat →
    repeatCount (mldsaValid · msg) adminVks sigs <
      m.toNat - (distinctSigners (mldsaValid · msg) adminVks sigs).card +
        sharedCount (mldsaValid · msg) adminVks sigs
  /-- No more admins share a signature with another one than are to spare. -/
  shared : m.toNat ≤ (distinctSigners (mldsaValid · msg) adminVks sigs).card →
    sharedCount (mldsaValid · msg) adminVks sigs ≤
      (distinctSigners (mldsaValid · msg) adminVks sigs).card - m.toNat +
        repeatCount (mldsaValid · msg) adminVks sigs
  /-- A signature whose bytes read as a bundle has enough signatures in it. -/
  mistaken : (∃ vk ∈ adminVks, mldsaValid vk msg sig) →
    m.toNat + sharedCount (mldsaValid · msg) adminVks sigs ≤
      (distinctSigners (mldsaValid · msg) adminVks sigs).card +
        repeatCount (mldsaValid · msg) adminVks sigs

theorem SignedOnceEach.bundleAligned {adminVks : List Bytes} {msg sig : Bytes} {m : UInt8}
    {sigs : List Bytes} (h : SignedOnceEach adminVks msg sig m sigs) :
    BundleAligned adminVks msg sig m sigs where
  positive hm := absurd hm h.positive
  repeated _ hfew := by
    rw [repeatCount_eq_zero h.once]
    omega
  shared _ := by
    rw [sharedCount_eq_zero h.unique]
    exact Nat.zero_le _
  mistaken hsingle := by
    obtain ⟨vk, hvk, hvalid⟩ := hsingle
    exact absurd hvalid (h.bundled vk hvk)

/-- Bytes that do not decode are accepted exactly as one admin's signature. -/
theorem verifyAdminAuthorization_eq_ok_iff_of_single {msg : Bytes} {adminVks : List Bytes}
    {sig : Bytes} (hdecode : decodeAdminQuorum sig = none) :
    verifyAdminAuthorization msg adminVks sig = .ok () ↔
      ∃ vk ∈ adminVks, mldsaValid vk msg sig := by
  rw [verifyAdminAuthorization, hdecode, if_neg (by simp), ← List.any_eq_true]
  split_ifs with hany
  · exact iff_of_true rfl hany
  · exact iff_of_false nofun hany

/-- A bundle is accepted exactly when it has threshold many valid signatures. -/
theorem verifyAdminAuthorization_eq_ok_iff_of_bundle {msg : Bytes} {adminVks : List Bytes}
    {sig : Bytes} {m : UInt8} {sigs : List Bytes}
    (hdecode : decodeAdminQuorum sig = some (m, sigs)) :
    verifyAdminAuthorization msg adminVks sig = .ok () ↔
      m.toNat ≤ backedCount (mldsaValid · msg) adminVks sigs := by
  have hcount := toNat_satCount_of_length_le
    (fun s => adminVks.any fun vk => mldsaValid vk msg s) (length_le_of_decodeAdminQuorum hdecode)
  have hless (count : UInt8) : count < m ↔ count.toNat < m.toNat := UInt8.lt_iff_toNat_lt
  simp only [verifyAdminAuthorization, verifyQuorumOver, hdecode, Option.isSome_some, if_true,
    hless, hcount]
  split_ifs with hfew
  · exact iff_of_false nofun (Nat.not_le.mpr hfew)
  · exact iff_of_true rfl (Nat.not_lt.mp hfew)

/-- The authorization check is exact on a bundle just when the bundle is aligned. -/
theorem authorization_exact_iff_bundleAligned {msg : Bytes} {adminVks : List Bytes} {sig : Bytes}
    {m : UInt8} {sigs : List Bytes} (hdecode : decodeAdminQuorum sig = some (m, sigs)) :
    (verifyAdminAuthorization msg adminVks sig = .ok () ↔ AdminAuthorized adminVks msg sig) ↔
      BundleAligned adminVks msg sig m sigs := by
  -- the bytes read as one bundle only
  have hbundle : (∃ m' sigs', decodeAdminQuorum sig = some (m', sigs') ∧ 1 ≤ m'.toNat ∧
      m'.toNat ≤ (distinctSigners (mldsaValid · msg) adminVks sigs').card) ↔
      1 ≤ m.toNat ∧ m.toNat ≤ (distinctSigners (mldsaValid · msg) adminVks sigs).card := by
    constructor
    · rintro ⟨m', sigs', heq, hcard⟩
      obtain ⟨rfl, rfl⟩ := Prod.mk.inj (Option.some.inj (hdecode.symm.trans heq))
      exact hcard
    · exact fun hcard => ⟨m, sigs, hdecode, hcard⟩
  have hzero : m = 0 ↔ m.toNat = 0 := by rw [← UInt8.toNat_inj, UInt8.toNat_zero]
  have hsingles : (∀ vk ∈ adminVks, ¬ mldsaValid vk msg sig) ↔
      ¬ ∃ vk ∈ adminVks, mldsaValid vk msg sig := by simp
  -- valid signatures are signers, with the repeated ones and without the shared ones
  have hbalance : backedCount (mldsaValid · msg) adminVks sigs +
      sharedCount (mldsaValid · msg) adminVks sigs =
      (distinctSigners (mldsaValid · msg) adminVks sigs).card +
        repeatCount (mldsaValid · msg) adminVks sigs :=
    backedCount_add_sharedCount adminVks sigs
  rw [verifyAdminAuthorization_eq_ok_iff_of_bundle hdecode, AdminAuthorized, hbundle]
  constructor
  · intro hexact
    refine ⟨fun hm => ?_, fun hnone hfew => ?_, fun hmany => ?_, fun hsingle => ?_⟩
    · have hzeros := hzero.mp hm
      exact (hexact.mp (by omega)).resolve_right (by omega)
    · by_contra hrepeated
      exact hsingles.mp hnone ((hexact.mp (by omega)).resolve_right (by omega))
    · by_cases hm : m.toNat = 0
      · omega
      · have hbacked := hexact.mpr (.inr ⟨by omega, hmany⟩)
        omega
    · have hbacked := hexact.mpr (.inl hsingle)
      omega
  · rintro ⟨hpositive, hrepeated, hshared, hmistaken⟩
    constructor
    · intro hbacked
      by_contra hunsigned
      obtain ⟨hnone, hfew⟩ := not_or.mp hunsigned
      -- without a threshold the bytes must be a signature, with one too few have signed
      by_cases hm : m.toNat = 0
      · exact hnone (hpositive (hzero.mpr hm))
      · have hless := hrepeated (hsingles.mpr hnone) (by omega)
        omega
    · rintro (hsingle | ⟨-, hmany⟩)
      · have hfull := hmistaken hsingle
        omega
      · have hspare := hshared hmany
        omega

theorem authorization_exact_of_single {msg : Bytes} {adminVks : List Bytes} {sig : Bytes}
    (hdecode : decodeAdminQuorum sig = none) :
    verifyAdminAuthorization msg adminVks sig = .ok () ↔ AdminAuthorized adminVks msg sig := by
  rw [verifyAdminAuthorization_eq_ok_iff_of_single hdecode, AdminAuthorized, hdecode]
  simp

/-- A receipt is accepted by either reader only with its authorization. -/
theorem verifyAdminAuthorization_of_window [DecidableEq D] {receipt : ConsolidationReceipt D}
    {adminVks : List Bytes} {windowHeads : List (RefHead D)}
    {proofs : ExtTreeMap UInt64 (MerklePath D) compare}
    (h : verifyConsolidationWindow receipt adminVks windowHeads proofs = .ok ()) :
    verifyAdminAuthorization (consolidationMessage receipt) adminVks receipt.adminSig = .ok () := by
  rw [verifyConsolidationWindow] at h
  split_ifs at h
  cases hauth : verifyAdminAuthorization (consolidationMessage receipt) adminVks
    receipt.adminSig with
  | ok => rfl
  | error e =>
    rw [hauth] at h
    cases h

theorem verifyAdminAuthorization_of_anchor [DecidableEq D] {receipt : ConsolidationReceipt D}
    {adminVks : List Bytes} {anchor : RefHead D} {refsPlaintext : Bytes}
    (h : verifyCheckpointAnchor receipt adminVks anchor refsPlaintext = .ok ()) :
    verifyAdminAuthorization (consolidationMessage receipt) adminVks receipt.adminSig = .ok () := by
  rw [verifyCheckpointAnchor] at h
  split_ifs at h
  split at h
  · cases h
  · cases hauth : verifyAdminAuthorization (consolidationMessage receipt) adminVks
      receipt.adminSig with
    | ok => rfl
    | error e =>
      rw [hauth] at h
      cases h

/-- The authorization check is exact when the bytes, if they read as a bundle, are one that admins
signed once each, and in general just when the bundle is aligned; and then every accepted receipt
was signed by an admin. -/
theorem verifyAdminAuthorization_exact_iff [DecidableEq D] (msg : Bytes) (adminVks : List Bytes)
    (sig : Bytes) :
    ((∀ m sigs, decodeAdminQuorum sig = some (m, sigs) →
        SignedOnceEach adminVks msg sig m sigs) →
      (verifyAdminAuthorization msg adminVks sig = .ok () ↔ AdminAuthorized adminVks msg sig)) ∧
    ((verifyAdminAuthorization msg adminVks sig = .ok () ↔ AdminAuthorized adminVks msg sig) ↔
      ∀ m sigs, decodeAdminQuorum sig = some (m, sigs) →
        BundleAligned adminVks msg sig m sigs) ∧
    ∀ receipt : ConsolidationReceipt D, consolidationMessage receipt = msg →
      receipt.adminSig = sig →
      (∀ m sigs, decodeAdminQuorum sig = some (m, sigs) →
        BundleAligned adminVks msg sig m sigs) →
      (∀ windowHeads proofs,
        verifyConsolidationWindow receipt adminVks windowHeads proofs = .ok () →
        SignedByAdmin adminVks msg sig) ∧
      ∀ anchor refsPlaintext,
        verifyCheckpointAnchor receipt adminVks anchor refsPlaintext = .ok () →
        SignedByAdmin adminVks msg sig := by
  have hexact : (verifyAdminAuthorization msg adminVks sig = .ok () ↔
      AdminAuthorized adminVks msg sig) ↔
      ∀ m sigs, decodeAdminQuorum sig = some (m, sigs) →
        BundleAligned adminVks msg sig m sigs := by
    cases hdecode : decodeAdminQuorum sig with
    | none => exact iff_of_true (authorization_exact_of_single hdecode) nofun
    | some bundle =>
      rw [authorization_exact_iff_bundleAligned hdecode]
      constructor
      · rintro haligned m sigs heq
        obtain rfl := Option.some.inj heq
        exact haligned
      · exact fun haligned => haligned _ _ rfl
  refine ⟨fun honce => hexact.mpr fun m sigs heq => (honce m sigs heq).bundleAligned, hexact, ?_⟩
  rintro receipt rfl rfl haligned
  refine ⟨fun heads proofs hok => ?_, fun anchor refs hok => ?_⟩
  · exact ((hexact.mpr haligned).mp (verifyAdminAuthorization_of_window hok)).signedByAdmin
  · exact ((hexact.mpr haligned).mp (verifyAdminAuthorization_of_anchor hok)).signedByAdmin

end Authorization

section Transparent

attribute [local instance] transparentSha512 transparentMlDsa87

/-- The first head of an empty-looking repository. -/
def sampleAnchor : RefHead Bytes where
  repoId := Vector.replicate 32 0
  seq := 1
  encRefs := []
  bundleRoot := []
  dekWrap := []
  prevHeadHash := []
  mlsEpoch := 0
  epochTag := []
  nonFf := false
  pusherSig := []
  adminCosig := none

/-- The checkpoint at the sample head. -/
def sampleBinding : CheckpointBinding Bytes where
  atSeq := 1
  anchorHead := sampleAnchor.hash
  refsDigest := refsDigest (Vector.replicate 32 0) 1 []
  bundleRoot := []

/-- A receipt for the sample head with a checkpoint at it. -/
def sampleReceipt (adminSig : Bytes) : ConsolidationReceipt Bytes where
  repoId := Vector.replicate 32 0
  epoch := 0
  fromSeq := 1
  toSeq := 1
  logicalRoot := []
  epochCommitments := ∅
  checkpoint := some sampleBinding
  adminSig := adminSig

theorem verifyCheckpointAnchor_sampleReceipt {seeds : List UInt8} (hseeds : seeds ≠ [])
    {adminSig : Bytes} (hsig : adminSig ≠ [])
    (hauth : verifyAdminAuthorization (consolidationMessage (sampleReceipt adminSig))
      (flatKeys seeds) adminSig = .ok ()) :
    verifyCheckpointAnchor (sampleReceipt adminSig) (flatKeys seeds) sampleAnchor [] = .ok () := by
  have hkeys : flatKeys seeds ≠ [] := by simpa [flatKeys] using hseeds
  have hcheck : checkAnchor (sampleReceipt adminSig) sampleBinding sampleAnchor [] = .ok () := by
    simp [checkAnchor, sampleReceipt, sampleBinding, sampleAnchor]
  rw [verifyCheckpointAnchor, if_neg hkeys, if_neg (by exact hsig)]
  change (verifyAdminAuthorization _ _ adminSig >>= fun _ =>
    checkAnchor (sampleReceipt adminSig) sampleBinding sampleAnchor []) = .ok ()
  rw [hauth]
  exact hcheck

/-- A bundle with threshold zero and no signature is accepted, and so is a
receipt that carries it, although no admin signed anything. -/
theorem verifyAdminAuthorization_empty_bundle :
    ¬ (verifyAdminAuthorization (consolidationMessage (sampleReceipt (quorumBytes 0 [])))
          (flatKeys [1]) (quorumBytes 0 []) = .ok () ↔
        AdminAuthorized (flatKeys [1])
          (consolidationMessage (sampleReceipt (quorumBytes 0 []))) (quorumBytes 0 [])) ∧
    verifyCheckpointAnchor (sampleReceipt (quorumBytes 0 [])) (flatKeys [1]) sampleAnchor [] =
      .ok () ∧
    ¬ SignedByAdmin (flatKeys [1])
      (consolidationMessage (sampleReceipt (quorumBytes 0 []))) (quorumBytes 0 []) := by
  set msg := consolidationMessage (sampleReceipt (quorumBytes 0 [])) with hmsg
  have hdecode : decodeAdminQuorum (quorumBytes 0 []) = some (0, []) :=
    decodeAdminQuorum_quorumBytes 0 (by decide) (by simp)
  have hok : verifyAdminAuthorization msg (flatKeys [1]) (quorumBytes 0 []) = .ok () :=
    (verifyAdminAuthorization_eq_ok_iff_of_bundle hdecode).mpr (Nat.zero_le _)
  have hsigned : ¬ SignedByAdmin (flatKeys [1]) msg (quorumBytes 0 []) := by
    rintro ⟨vk, hvk, hsingle | ⟨m, sigs, heq, s, hs, -⟩⟩
    · obtain rfl : vk = paddedKey (flatSeed 1) := by simpa [flatKeys] using hvk
      simp [mldsaValid, mldsaVerify, quorumBytes, adminQuorumMagic, mldsa87SigLen,
        Except.isOk, Except.toBool] at hsingle
    · obtain ⟨-, rfl⟩ := Prod.mk.inj (Option.some.inj (hdecode.symm.trans heq))
      cases hs
  exact ⟨fun hexact => hsigned (hexact.mp hok).signedByAdmin,
    verifyCheckpointAnchor_sampleReceipt (by simp) (by simp [quorumBytes]) hok, hsigned⟩

/-- A bundle is too long for a signature of the first two admins. -/
theorem signedOnceEach_flatSigs (msg : Bytes) :
    SignedOnceEach (flatKeys [1, 2]) msg (quorumBytes 2 (flatSigs msg [1, 2])) 2
      (flatSigs msg [1, 2]) where
  positive := by decide
  bundled vk _ hvalid := by
    have hlength : (quorumBytes 2 (flatSigs msg [1, 2])).length =
        6 + (flatSigs msg [1, 2]).length * (4 + mldsa87SigLen) :=
      length_quorumBytes_of_forall fun sig hsig => by
        obtain ⟨b, -, rfl⟩ := List.mem_map.mp hsig
        exact length_clearSig_flatSeed b msg
    rw [length_of_mldsaValid hvalid, flatSigs, List.length_map] at hlength
    exact absurd hlength (by decide)
  unique := by simp [flatKeys, flatSigs]
  once := by simp [flatKeys, flatSigs]

/-- Two admins sign a receipt, and a reader without history accepts it. -/
theorem verifyCheckpointAnchor_two_admins :
    let msg := consolidationMessage (sampleReceipt [])
    let bundle := quorumBytes 2 (flatSigs msg [1, 2])
    verifyCheckpointAnchor (sampleReceipt bundle) (flatKeys [1, 2]) sampleAnchor [] = .ok () ∧
      SignedByAdmin (flatKeys [1, 2]) msg bundle := by
  intro msg bundle
  have hdecode : decodeAdminQuorum bundle = some (2, flatSigs msg [1, 2]) :=
    decodeAdminQuorum_flatSigs 2 msg (by decide)
  have haligned : ∀ m sigs, decodeAdminQuorum bundle = some (m, sigs) →
      BundleAligned (flatKeys [1, 2]) msg bundle m sigs := by
    intro m sigs heq
    obtain ⟨rfl, rfl⟩ := Prod.mk.inj (Option.some.inj (hdecode.symm.trans heq))
    exact (signedOnceEach_flatSigs msg).bundleAligned
  have hok : verifyAdminAuthorization msg (flatKeys [1, 2]) bundle = .ok () :=
    (verifyAdminAuthorization_eq_ok_iff_of_bundle hdecode).mpr
      (by simp [backedCount, flatKeys, flatSigs])
  have hanchor := verifyCheckpointAnchor_sampleReceipt (by simp)
    (by simp [bundle, quorumBytes]) hok
  exact ⟨hanchor, ((verifyAdminAuthorization_exact_iff msg (flatKeys [1, 2]) bundle).2.2
    (sampleReceipt bundle) rfl rfl haligned).2 sampleAnchor [] hanchor⟩

end Transparent

end SafeHub.Consolidate
