import SafeHub.Client.Heads

/-!
# Planning a push

A push draws a data-encryption key, seals the bundle in chunks under it, seals the
key and the refs map under the head's own seal key with the counters 0 and 1, and
signs the head when the device has a durable group. Random bytes are arguments.

## Main definitions

* `bundleChunks` — the encrypted chunks of a bundle
* `signRefHead` — leaf signature and admin co-signature
* `buildPushPlan` — the chunks and the head of a push

## Main results

* `planned_of_buildPushPlan` — what a planned head holds
* `Planned.openRefsMap`, `Planned.unwrapDek` — it opens to what was sealed
-/

namespace SafeHub

open FixedWidth

/-- Chunk size of a bundle. -/
def bundleChunkSize : ℕ := 4 * 1024 * 1024

/-- One encrypted chunk ready for upload. -/
structure EncryptedChunk (D : Type) where
  blobMeta : BlobMeta D
  ciphertext : Bytes

/-- What a push produces before it contacts the host. -/
structure PushPlan (D : Type) where
  pushId : String
  chunks : List (EncryptedChunk D)
  bundleRoot : BlobId D
  dekWrap : Bytes
  encRefs : Bytes
  epoch : UInt64
  epochTag : Bytes

/-- The random bytes of one plan. -/
structure PushRandom where
  dek : Vector UInt8 32
  pushId : Vector UInt8 16
  /-- The nonce of each chunk. -/
  nonce : ℕ → Vector UInt8 12
  epoch : Draws Bytes

/-- The durable MLS group of a device. -/
structure LocalGroup where
  signer : MlDsa87KeyPair
  memberSignatureKeys : List Bytes
  deriving DecidableEq, Repr

/-- The key files of a device for one repository, as they load. -/
structure LocalKeys where
  /-- Whether the key store is there, which is what makes a push sign. -/
  hasDurableGroup : Bool
  group : Except ClientError LocalGroup
  admin : Except ClientError MlDsa87KeyPair

section Planning

variable {D : Type} [Sha512 D] [HashPrimitives] [MlDsa87] [RefsCodec] [HexCodec D]

/-- How many chunks a bundle has. An empty bundle still has one; the count is kept
in 32 bits. -/
def chunkCount (length : ℕ) : ℕ :=
  if length = 0 then 1 else ((length + bundleChunkSize - 1) / bundleChunkSize) % 2 ^ 32

/-- The chunk of a bundle at an index. -/
def chunkSlice (plaintext : Bytes) (index : ℕ) : Bytes :=
  (plaintext.drop (index * bundleChunkSize)).take bundleChunkSize

/-- Split a bundle and seal every chunk under the data-encryption key. -/
def bundleChunks (repo : RepoId) (pushId : String) (plaintext dek : Bytes)
    (nonce : ℕ → Vector UInt8 12) : List (EncryptedChunk D) :=
  let n := chunkCount plaintext.length
  (List.range n).map fun i =>
    let ct := CommittingAead.sealWithNonce dek (chunkAad D repo pushId i n)
      (chunkSlice plaintext i) (nonce i).toList
    ⟨⟨Sha512.digest ct, ct.length, i, n, pushId⟩, ct⟩

/-- Digest over the content ids of the chunks. -/
def bundleRoot (chunks : List (EncryptedChunk D)) : BlobId D :=
  Sha512.digest (chunks.flatMap fun chunk => Sha512.toBytes chunk.blobMeta.id)

/-- Attach the leaf signature, and the admin's when the head is non-fast-forward. -/
def signRefHead (keys : LocalKeys) (head : RefHead D) (refs : EncryptedRefsMap) :
    Except ClientError (RefHead D) := do
  let group ← keys.group
  let pusherSig ← orOther (group.signer.sign (leafSignMessage head))
  if head.nonFf then
    let admin ← keys.admin
    let adminCosig ← adminCosigSign admin head.repoId head.mlsEpoch "push" head.seq
      head.prevHeadHash (refsDigest refs) (rosterDigest group.memberSignatureKeys)
    return { head with pusherSig := pusherSig, adminCosig := some adminCosig }
  else
    return { head with pusherSig := pusherSig, adminCosig := none }

/-- Plan a push as the head after `prev`. -/
def buildPushPlan (repo : RepoId) (bundle : Bytes) (gitRefs : RefMap)
    (headSymref : Option String) (material : EpochMaterial Bytes Bytes) (prev : HeadHash D)
    (nextSeq : UInt64) (nonFf sign : Bool) (keys : LocalKeys) (random : PushRandom) :
    Except ClientError (PushPlan D × RefHead D × EncryptedRefsMap) := do
  let pushId := HexCodec.encode D random.pushId.toList
  let epochKey ← material.epochKey random.epoch
  let sealKey := headSealKey epochKey nextSeq
  let chunks : List (EncryptedChunk D) :=
    bundleChunks repo pushId bundle random.dek.toList random.nonce
  let root := bundleRoot chunks
  let refs : EncryptedRefsMap :=
    { refs := gitRefs
      head := headSymref
      pushId := pushId
      chunkIds := chunks.map fun chunk => HexCodec.encode D (Sha512.toBytes chunk.blobMeta.id) }
  let dekWrap ← orAead
    (CommittingAead.sealDeterministic sealKey (labelBytes "dek-wrap") random.dek.toList 0)
  let encRefs ← orAead
    (CommittingAead.sealDeterministic sealKey (labelBytes "refs") (RefsCodec.encode refs) 1)
  let epoch := UInt64.ofNat material.epoch
  let epochTag := epochTagBytes material.refsMac epoch root nextSeq
  let head : RefHead D :=
    { repoId := repo
      seq := nextSeq
      encRefs := encRefs
      bundleRoot := root
      dekWrap := dekWrap
      prevHeadHash := prev
      mlsEpoch := epoch
      epochTag := epochTag
      nonFf := nonFf
      pusherSig := []
      adminCosig := none }
  let head ← (if sign then signRefHead keys head refs else .ok head)
  return (⟨pushId, chunks, root, dekWrap, encRefs, epoch, epochTag⟩, head, refs)

/-- Plan a push, signed when the device has a durable group. -/
def planPushReader (repo : RepoId) (bundle : Bytes) (gitRefs : RefMap) (headSymref : Option String)
    (material : EpochMaterial Bytes Bytes) (prev : HeadHash D) (nextSeq : UInt64) (nonFf : Bool)
    (keys : LocalKeys) (random : PushRandom) :
    Except ClientError (PushPlan D × RefHead D × EncryptedRefsMap) :=
  buildPushPlan repo bundle gitRefs headSymref material prev nextSeq nonFf keys.hasDurableGroup
    keys random

end Planning

/-! ### What was planned -/

section Planned

variable {D : Type} [Sha512 D] [HashPrimitives] [MlDsa87] [RefsCodec] [HexCodec D]
variable {repo : RepoId} {bundle : Bytes} {gitRefs : RefMap} {headSymref : Option String}
variable {material : EpochMaterial Bytes Bytes} {prev : HeadHash D} {nextSeq : UInt64}
variable {nonFf sign : Bool} {keys : LocalKeys} {random : PushRandom}
variable {plan : PushPlan D} {head signed : RefHead D} {refs : EncryptedRefsMap}
variable {epochKey : Bytes}

/-- What a planned head and its refs map hold, whatever was signed. -/
structure Planned (repo : RepoId) (bundle : Bytes) (gitRefs : RefMap)
    (material : EpochMaterial Bytes Bytes) (prev : HeadHash D) (nextSeq : UInt64) (nonFf : Bool)
    (random : PushRandom) (epochKey : Bytes) (head : RefHead D) (refs : EncryptedRefsMap) :
    Prop where
  key : material.epochKey random.epoch = .ok epochKey
  gitRefs : refs.refs = gitRefs
  pushId : refs.pushId = HexCodec.encode D random.pushId.toList
  chunkIds : refs.chunkIds =
    (bundleChunks (D := D) repo refs.pushId bundle random.dek.toList random.nonce).map
      fun chunk => HexCodec.encode D (Sha512.toBytes chunk.blobMeta.id)
  seq : head.seq = nextSeq
  prevHeadHash : head.prevHeadHash = prev
  mlsEpoch : head.mlsEpoch = UInt64.ofNat material.epoch
  nonFf : head.nonFf = nonFf
  epochTag : verifyEpochTag head material.refsMac = true
  dekWrap : CommittingAead.sealDeterministic (headSealKey epochKey nextSeq)
    (labelBytes "dek-wrap") random.dek.toList 0 = .ok head.dekWrap
  encRefs : CommittingAead.sealDeterministic (headSealKey epochKey nextSeq)
    (labelBytes "refs") (RefsCodec.encode refs) 1 = .ok head.encRefs

omit [HashPrimitives] [HexCodec D] in
/-- Signing changes nothing but the signatures. -/
theorem signRefHead_eq_ok (h : signRefHead keys head refs = .ok signed) :
    ∃ pusherSig adminCosig,
      signed = { head with pusherSig := pusherSig, adminCosig := adminCosig } := by
  obtain ⟨group, -, h⟩ := bind_eq_ok_iff.mp h
  obtain ⟨pusherSig, -, h⟩ := bind_eq_ok_iff.mp h
  split_ifs at h
  · obtain ⟨admin, -, h⟩ := bind_eq_ok_iff.mp h
    obtain ⟨adminCosig, -, h⟩ := bind_eq_ok_iff.mp h
    exact ⟨pusherSig, some adminCosig, (Except.ok.inj h).symm⟩
  · exact ⟨pusherSig, none, (Except.ok.inj h).symm⟩

theorem planned_of_buildPushPlan
    (h : buildPushPlan repo bundle gitRefs headSymref material prev nextSeq nonFf sign keys random =
      .ok (plan, head, refs)) :
    ∃ epochKey,
      Planned repo bundle gitRefs material prev nextSeq nonFf random epochKey head refs := by
  obtain ⟨epochKey, hkey, h⟩ := bind_eq_ok_iff.mp h
  obtain ⟨dekWrap, hdekWrap, h⟩ := bind_eq_ok_iff.mp h
  obtain ⟨encRefs, hencRefs, h⟩ := bind_eq_ok_iff.mp h
  obtain ⟨signed, hsigned, h⟩ := bind_eq_ok_iff.mp h
  obtain ⟨-, hhead, hrefs⟩ : _ ∧ signed = head ∧ _ = refs := by
    simpa only [Prod.mk.injEq] using Except.ok.inj h
  subst hhead hrefs
  rw [orAead_eq_ok_iff] at hdekWrap hencRefs
  obtain ⟨pusherSig, adminCosig, rfl⟩ : ∃ pusherSig adminCosig, signed = _ := by
    split_ifs at hsigned
    · exact signRefHead_eq_ok hsigned
    · exact ⟨_, _, (Except.ok.inj hsigned).symm⟩
  exact ⟨epochKey, hkey, rfl, rfl, rfl, rfl, rfl, rfl, rfl, beq_self_eq_true _, hdekWrap, hencRefs⟩

omit [MlDsa87] in
/-- Whoever derives the epoch key of a planned head derives its seal key. -/
theorem Planned.sealKeyAt
    (h : Planned repo bundle gitRefs material prev nextSeq nonFf random epochKey head refs)
    {reader : EpochMaterial Bytes Bytes} {draws : Draws Bytes}
    (hkey : reader.epochKeyAt draws head.mlsEpoch.toNat = .ok epochKey) :
    sealKeyAt reader draws head = .ok (headSealKey epochKey nextSeq) := by
  rw [SafeHub.sealKeyAt, hkey, h.seq]
  rfl

omit [MlDsa87] in
/-- Whoever derives the epoch key of a planned head opens its refs map. -/
theorem Planned.openRefsMap
    (h : Planned repo bundle gitRefs material prev nextSeq nonFf random epochKey head refs)
    {reader : EpochMaterial Bytes Bytes} {draws : Draws Bytes}
    (hkey : reader.epochKeyAt draws head.mlsEpoch.toNat = .ok epochKey) :
    openRefsMap reader draws head = .ok refs := by
  have hopen := CommittingAead.openSealed_of_sealDeterministic h.encRefs
  have hraw : openRefs reader draws head = .ok (RefsCodec.encode refs) :=
    bind_eq_ok_iff.mpr ⟨_, h.sealKeyAt hkey, orAead_eq_ok_iff.mpr hopen⟩
  refine bind_eq_ok_iff.mpr ⟨_, hraw, ?_⟩
  rw [RefsCodec.decode_encode]

omit [MlDsa87] in
/-- Whoever derives the epoch key of a planned head unwraps its data-encryption key. -/
theorem Planned.unwrapDek
    (h : Planned repo bundle gitRefs material prev nextSeq nonFf random epochKey head refs)
    {reader : EpochMaterial Bytes Bytes} {draws : Draws Bytes}
    (hkey : reader.epochKeyAt draws head.mlsEpoch.toNat = .ok epochKey) :
    unwrapDek reader draws head = .ok random.dek.toList := by
  have hopen := CommittingAead.openSealed_of_sealDeterministic h.dekWrap
  refine bind_eq_ok_iff.mpr ⟨_, h.sealKeyAt hkey, bind_eq_ok_iff.mpr
    ⟨_, orAead_eq_ok_iff.mpr hopen, ?_⟩⟩
  exact if_neg (not_not.mpr Vector.length_toList)

omit [MlDsa87] in
/-- A planned head opens under the epoch key it was sealed with. -/
theorem Planned.epochKeyAt
    (h : Planned repo bundle gitRefs material prev nextSeq nonFf random epochKey head refs)
    (hepoch : material.epoch < 2 ^ 64) :
    material.epochKeyAt random.epoch head.mlsEpoch.toNat = .ok epochKey := by
  rw [h.mlsEpoch, UInt64.toNat_ofNat_of_lt' hepoch]
  exact h.key

omit [HashPrimitives] [HexCodec D] in
/-- A device with its group signs a fast-forward head with its leaf only. -/
theorem signRefHead_of_fastForward {group : LocalGroup} (hforward : head.nonFf = false)
    (hgroup : keys.group = .ok group) (hseed : group.signer.seed.length = mldsa87SeedLen) :
    signRefHead keys head refs = .ok { head with
      pusherSig := MlDsa87.sign group.signer.seed (leafSignMessage head), adminCosig := none } := by
  have hsign : orOther (group.signer.sign (leafSignMessage head)) =
      .ok (MlDsa87.sign group.signer.seed (leafSignMessage head)) := by
    rw [orOther_eq_ok_iff, MlDsa87KeyPair.sign, signWithSeed, if_pos hseed]
  refine bind_eq_ok_iff.mpr ⟨group, hgroup, bind_eq_ok_iff.mpr ⟨_, hsign, ?_⟩⟩
  rw [hforward, if_neg Bool.false_ne_true]
  rfl

omit [HashPrimitives] [HexCodec D] in
/-- A device that has its group and the admin key signs every head. -/
theorem signRefHead_of_admin {group : LocalGroup} {admin : MlDsa87KeyPair}
    (hgroup : keys.group = .ok group) (hseed : group.signer.seed.length = mldsa87SeedLen)
    (hadmin : keys.admin = .ok admin) (hadminSeed : admin.seed.length = mldsa87SeedLen) :
    signRefHead keys head refs = .ok { head with
      pusherSig := MlDsa87.sign group.signer.seed (leafSignMessage head)
      adminCosig := if head.nonFf then
          some (MlDsa87.sign admin.seed (adminCosigMessage head.repoId head.mlsEpoch "push" head.seq
            head.prevHeadHash (refsDigest refs) (rosterDigest group.memberSignatureKeys)
            adminCosigPolicyVersion))
        else none } := by
  have hsign {pair : MlDsa87KeyPair} (hlength : pair.seed.length = mldsa87SeedLen)
      (message : Bytes) : orOther (pair.sign message) = .ok (MlDsa87.sign pair.seed message) := by
    rw [orOther_eq_ok_iff, MlDsa87KeyPair.sign, signWithSeed, if_pos hlength]
  by_cases hforced : head.nonFf = true
  · rw [if_pos hforced]
    refine bind_eq_ok_iff.mpr ⟨group, hgroup, bind_eq_ok_iff.mpr ⟨_, hsign hseed _, ?_⟩⟩
    rw [if_pos hforced]
    exact bind_eq_ok_iff.mpr ⟨admin, hadmin, bind_eq_ok_iff.mpr ⟨_, hsign hadminSeed _, rfl⟩⟩
  · rw [if_neg hforced]
    exact signRefHead_of_fastForward (Bool.eq_false_iff.mpr hforced) hgroup hseed

omit [MlDsa87] [RefsCodec] in
theorem exists_sealDeterministic (key aad plaintext : Bytes) (counter : UInt64)
    (h : counter.toNat < CommittingAead.maxSealsPerKey) :
    ∃ sealed, orAead (CommittingAead.sealDeterministic key aad plaintext counter) = .ok sealed := by
  rw [CommittingAead.sealDeterministic, if_neg (Nat.not_le.mpr h)]
  exact ⟨_, rfl⟩

/-- A device that derives its epoch key and has its group can plan a fast-forward push,
and signs it with its leaf. -/
theorem exists_buildPushPlan {group : LocalGroup} (repo : RepoId) (bundle : Bytes)
    (gitRefs : RefMap) (headSymref : Option String) (prev : HeadHash D) (nextSeq : UInt64)
    (hkey : material.epochKey random.epoch = .ok epochKey) (hgroup : keys.group = .ok group)
    (hseed : group.signer.seed.length = mldsa87SeedLen) :
    ∃ plan head refs,
      buildPushPlan repo bundle gitRefs headSymref material prev nextSeq false true keys random =
        .ok (plan, head, refs) ∧
      refs.head = headSymref ∧ head.adminCosig = none ∧
      head.pusherSig = MlDsa87.sign group.signer.seed (leafSignMessage head) := by
  obtain ⟨dekWrap, hdekWrap⟩ := exists_sealDeterministic (headSealKey epochKey nextSeq)
    (labelBytes "dek-wrap") random.dek.toList 0 (by decide)
  obtain ⟨encRefs, hencRefs⟩ := exists_sealDeterministic (headSealKey epochKey nextSeq)
    (labelBytes "refs") (RefsCodec.encode _) 1 (by decide)
  exact ⟨_, _, _, bind_eq_ok_iff.mpr ⟨epochKey, hkey, bind_eq_ok_iff.mpr ⟨dekWrap, hdekWrap,
    bind_eq_ok_iff.mpr ⟨encRefs, hencRefs, bind_eq_ok_iff.mpr
      ⟨_, signRefHead_of_fastForward rfl hgroup hseed, rfl⟩⟩⟩⟩, rfl, rfl, rfl⟩

/-- With the admin key it can plan every push. -/
theorem exists_buildPushPlan_of_admin {group : LocalGroup} {admin : MlDsa87KeyPair}
    (repo : RepoId) (bundle : Bytes) (gitRefs : RefMap) (headSymref : Option String)
    (prev : HeadHash D) (nextSeq : UInt64) (nonFf : Bool)
    (hkey : material.epochKey random.epoch = .ok epochKey) (hgroup : keys.group = .ok group)
    (hseed : group.signer.seed.length = mldsa87SeedLen) (hadmin : keys.admin = .ok admin)
    (hadminSeed : admin.seed.length = mldsa87SeedLen) :
    ∃ plan head refs,
      buildPushPlan repo bundle gitRefs headSymref material prev nextSeq nonFf true keys random =
        .ok (plan, head, refs) ∧
      refs.head = headSymref ∧
      head.pusherSig = MlDsa87.sign group.signer.seed (leafSignMessage head) ∧
      ∀ sig ∈ head.adminCosig, ∃ message, sig = MlDsa87.sign admin.seed message := by
  obtain ⟨dekWrap, hdekWrap⟩ := exists_sealDeterministic (headSealKey epochKey nextSeq)
    (labelBytes "dek-wrap") random.dek.toList 0 (by decide)
  obtain ⟨encRefs, hencRefs⟩ := exists_sealDeterministic (headSealKey epochKey nextSeq)
    (labelBytes "refs") (RefsCodec.encode _) 1 (by decide)
  refine ⟨_, _, _, bind_eq_ok_iff.mpr ⟨epochKey, hkey, bind_eq_ok_iff.mpr ⟨dekWrap, hdekWrap,
    bind_eq_ok_iff.mpr ⟨encRefs, hencRefs, bind_eq_ok_iff.mpr
      ⟨_, signRefHead_of_admin hgroup hseed hadmin hadminSeed, rfl⟩⟩⟩⟩, rfl, rfl, ?_⟩
  intro sig hmem
  dsimp only at hmem
  split_ifs at hmem
  · obtain rfl := Option.some.inj hmem
    exact ⟨_, rfl⟩
  · cases hmem

end Planned

/-! ### A device to evaluate with -/

/-- The material of a device in the first epoch. -/
def deviceMaterial : EpochMaterial Bytes Bytes where
  epoch := 0
  transport := List.replicate 48 1
  refsMac := []
  historyFrom := 0
  dkrToken := some (List.replicate 48 1)
  priorTransport := ∅
  priorRefsMac := ∅

/-- The key files of a device that is alone in its group and not the admin. -/
def deviceKeys : LocalKeys where
  hasDurableGroup := true
  group := .ok ⟨⟨flatSeed 7, paddedKey (flatSeed 7)⟩, [paddedKey (flatSeed 7)]⟩
  admin := .error (.config "missing admin ML-DSA key")

/-- The key files of the same device as the admin. -/
def adminKeys : LocalKeys := { deviceKeys with admin := .ok ⟨flatSeed 7, paddedKey (flatSeed 7)⟩ }

/-- Random bytes that are all the same. -/
def flatRandom (b : UInt8) : PushRandom where
  dek := Vector.replicate 32 b
  pushId := Vector.replicate 16 b
  nonce _ := Vector.replicate 12 b
  epoch := ⟨[], []⟩

/-- The device derives the same epoch key whatever is drawn. -/
theorem deviceMaterial_epochKeyAt [HashPrimitives] (draws : Draws Bytes) :
    deviceMaterial.epochKeyAt draws 0 =
      .ok (SeedKdf.expand (List.replicate 48 1 : Bytes) (dkrEpochInfo 0)) := by
  have hzero : deviceMaterial.intervalSeed ≠ SeedKdf.zeroSeed := by
    change (List.replicate 48 1 : Bytes) ≠ List.replicate secParamLen 0
    decide
  exact EpochMaterial.epochKeyAt_current (Nat.zero_le 0) (by decide : (0 : ℕ) < dkrSegmentCapacity)
    hzero

end SafeHub
