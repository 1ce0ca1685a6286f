import SafeHub.Client.Checkpoint

/-!
# Enrolling a new device

A new device has no history of its own, so it takes its first tip only with an anchor
that an existing device signed. The anchor signs the repository, the tip binding and the
tip's sequence; the checkpoint it comes with is the host's.

## Main definitions

* `DeviceAnchor`, `signDeviceAnchor` — the signed statement
* `acceptFirstTip` — the new device's decision

## Main results

* `acceptFirstTip_attested_iff` — which accepted checkpoints are the one that was signed
-/

namespace SafeHub

open FixedWidth

/-- A signed statement, from an existing device, of the tip a new device should anchor to. -/
structure DeviceAnchor (D : Type) where
  repoId : RepoId
  /-- Tip binding the existing device attests to. -/
  tipBinding : HeadHash D
  /-- Tip sequence. -/
  tipSeq : UInt64
  /-- Signature of the existing device. -/
  sig : Bytes
  deriving DecidableEq, Repr

variable {D : Type} [Sha512 D]

/-- Transcript of an anchor. -/
def anchorMessage (repo : RepoId) (tipBinding : HeadHash D) (tipSeq : UInt64) : Bytes :=
  labelBytes "device-anchor" ++ repo.toList ++ Sha512.toBytes tipBinding ++ u64LE tipSeq

section Decision

variable [MlDsa87]

/-- Sign a device anchor with an existing device's key. -/
def signDeviceAnchor (repo : RepoId) (checkpoint : RefCheckpoint D)
    (existingDevice : MlDsa87KeyPair) : Except ClientError (DeviceAnchor D) := do
  let tipSeq := checkpoint.tipSeq.getD 0
  let sig ← orOther (existingDevice.sign (anchorMessage repo checkpoint.tipBinding tipSeq))
  return { repoId := repo, tipBinding := checkpoint.tipBinding, tipSeq := tipSeq, sig := sig }

/-- A new device's decision when the server presents a checkpoint for first use. -/
def acceptFirstTip [DecidableEq D] (repo : RepoId) (checkpoint : RefCheckpoint D)
    (anchor : Option (DeviceAnchor D)) (existingDeviceVks : List Bytes) :
    Except ClientError Unit :=
  match anchor with
  | none => .error (.other ("new device refused to accept a server-presented tip without an " ++
      "existing-device anchor (trust-on-first-use is disabled)"))
  | some anchor =>
    if anchor.repoId ≠ repo ∨ anchor.tipBinding ≠ checkpoint.tipBinding then
      .error (.other "device anchor does not bind the presented checkpoint tip")
    else
      let msg := anchorMessage repo anchor.tipBinding anchor.tipSeq
      if existingDeviceVks.any fun vk => mldsaValid vk msg anchor.sig then
        .ok ()
      else
        .error (.other "device anchor is not signed by any known existing-device key")

/-- What acceptance checks. -/
theorem acceptFirstTip_eq_ok_iff [DecidableEq D] {repo : RepoId} {checkpoint : RefCheckpoint D}
    {anchor : Option (DeviceAnchor D)} {vks : List Bytes} :
    acceptFirstTip repo checkpoint anchor vks = .ok () ↔
      ∃ a, anchor = some a ∧ a.repoId = repo ∧ a.tipBinding = checkpoint.tipBinding ∧
        ∃ vk ∈ vks, mldsaValid vk (anchorMessage repo a.tipBinding a.tipSeq) a.sig = true := by
  cases anchor with
  | none => simp [acceptFirstTip]
  | some a =>
    simp only [acceptFirstTip, Option.some.injEq, exists_eq_left', List.any_eq_true]
    split_ifs with hbind hany
    · refine iff_of_false (by simp) fun ⟨hrepo, htip, _⟩ => ?_
      exact hbind.elim (absurd hrepo) (absurd htip)
    · rw [not_or, not_not, not_not] at hbind
      exact iff_of_true rfl ⟨hbind.1, hbind.2, hany⟩
    · exact iff_of_false (by simp) fun ⟨_, _, hvalid⟩ => hany hvalid

end Decision

/-! ### What the anchor attests -/

/-- The anchor states the checkpoint's repository, binding and tip sequence. -/
structure DeviceAnchor.Attests (anchor : DeviceAnchor D) (cp : RefCheckpoint D) : Prop where
  repoId : anchor.repoId = cp.repoId
  tipBinding : anchor.tipBinding = cp.tipBinding
  tipSeq : anchor.tipSeq = cp.tipSeq.getD 0

/-- The anchor's signature is ideal: a known key accepts it only if an existing device signed
that statement for one of the checkpoints. -/
def AnchorUnforged [MlDsa87] (signed : Set (RefCheckpoint D)) (vks : List Bytes) (repo : RepoId)
    (anchor : DeviceAnchor D) : Prop :=
  ∀ vk ∈ vks, mldsaValid vk (anchorMessage repo anchor.tipBinding anchor.tipSeq)
      anchor.sig = true →
    ∃ cp ∈ signed, anchorMessage cp.repoId cp.tipBinding (cp.tipSeq.getD 0) =
      anchorMessage repo anchor.tipBinding anchor.tipSeq

section Attested

variable [DigestBytes D]

theorem anchorMessage_injective {repo repo' : RepoId} {binding binding' : HeadHash D}
    {seq seq' : UInt64} (h : anchorMessage repo binding seq = anchorMessage repo' binding' seq') :
    repo = repo' ∧ binding = binding' ∧ seq = seq' := by
  obtain ⟨hfront, hseq⟩ := List.append_inj h (by simp)
  obtain ⟨hhead, hbinding⟩ := List.append_inj hfront (by simp)
  have hrepo := (List.append_inj hhead rfl).2
  exact ⟨Vector.toList_inj.mp hrepo, toBytes_injective hbinding, u64LE_injective hseq⟩

variable [MlDsa87] [DecidableEq D] {signed : Set (RefCheckpoint D)} {repo : RepoId}
  {checkpoint : RefCheckpoint D} {anchor : DeviceAnchor D} {vks : List Bytes}

/-- An accepted anchor attests some signed checkpoint. -/
theorem exists_attests_of_acceptFirstTip (hsigned : AnchorUnforged signed vks repo anchor)
    (haccept : acceptFirstTip repo checkpoint (some anchor) vks = .ok ()) :
    ∃ cp ∈ signed, anchor.Attests cp := by
  obtain ⟨a, ha, hrepo, _, vk, hvk, hvalid⟩ := acceptFirstTip_eq_ok_iff.mp haccept
  obtain rfl := Option.some_inj.mp ha
  obtain ⟨cp, hcp, hmessage⟩ := hsigned vk hvk (hrepo ▸ hvalid)
  obtain ⟨hrepoId, hbinding, hseq⟩ := anchorMessage_injective hmessage
  exact ⟨cp, hcp, hrepo.trans hrepoId.symm, hbinding.symm, hseq.symm⟩

variable [HashPrimitives]

/-- An accepted checkpoint with its own binding is the signed one with as many entries. -/
theorem sameExport_of_acceptFirstTip {cp : RefCheckpoint D} (hexported : cp.Exported)
    (hinj : checkpointBytes checkpoint = checkpointBytes cp ∨
      bindCheckpoint checkpoint ≠ bindCheckpoint cp)
    (haccept : acceptFirstTip repo checkpoint (some anchor) vks = .ok ())
    (hattests : anchor.Attests cp) (hrepo : checkpoint.repoId = repo)
    (hbinding : checkpoint.tipBinding = bindCheckpoint checkpoint)
    (hstandard : StandardWitnesses checkpoint)
    (hlength : checkpoint.chain.length = cp.chain.length) : SameExport checkpoint cp := by
  obtain ⟨a, ha, hanchorRepo, hanchorTip, _⟩ := acceptFirstTip_eq_ok_iff.mp haccept
  obtain rfl := Option.some_inj.mp ha
  -- the digest goes over the anchor from one checkpoint to the other
  have hdigest : bindCheckpoint checkpoint = bindCheckpoint cp :=
    calc bindCheckpoint checkpoint
      _ = checkpoint.tipBinding := hbinding.symm
      _ = anchor.tipBinding := hanchorTip.symm
      _ = cp.tipBinding := hattests.tipBinding
      _ = bindCheckpoint cp := hexported.tipBinding_eq
  have hbytes := hinj.resolve_right (not_not.mpr hdigest)
  have hrepoId : checkpoint.repoId = cp.repoId :=
    hrepo.trans (hanchorRepo.symm.trans hattests.repoId)
  exact sameExport_of_checkpointBytes_eq hbytes hrepoId hlength hstandard
    hexported.standardWitnesses

/-- With ideal signatures and a collision-free hash, an accepted anchor is an existing
device's; and the checkpoint accepted with it is one that was signed exactly when it is
for this repository, carries the digest of its own fields, and has witnesses of the
standard length and as many chain entries as the signed one. -/
theorem acceptFirstTip_attested_iff (hexported : ∀ cp ∈ signed, cp.Exported)
    (hsigned : AnchorUnforged signed vks repo anchor)
    (hinj : Set.InjOn (Sha512.digest : Bytes → D) (checkpointBytes '' insert checkpoint signed))
    (haccept : acceptFirstTip repo checkpoint (some anchor) vks = .ok ()) :
    (∃ cp ∈ signed, anchor.Attests cp) ∧
      ((∃ cp ∈ signed, anchor.Attests cp ∧ SameExport checkpoint cp) ↔
        checkpoint.repoId = repo ∧ checkpoint.tipBinding = bindCheckpoint checkpoint ∧
          StandardWitnesses checkpoint ∧
          ∃ cp ∈ signed, anchor.Attests cp ∧ checkpoint.chain.length = cp.chain.length) := by
  refine ⟨exists_attests_of_acceptFirstTip hsigned haccept, ?_, ?_⟩
  · intro ⟨cp, hcp, hattests, hsame⟩
    obtain ⟨a, ha, hrepo, hbinding, _⟩ := acceptFirstTip_eq_ok_iff.mp haccept
    obtain rfl := Option.some_inj.mp ha
    refine ⟨?_, ?_, ?_, cp, hcp, hattests, congrArg List.length hsame.chain⟩
    · rw [hsame.repoId, ← hattests.repoId, hrepo]
    · rw [← hbinding, hattests.tipBinding, (hexported cp hcp).tipBinding_eq, bindCheckpoint,
        bindCheckpoint, checkpointBytes_eq_of_sameExport hsame]
    · intro witness hmem
      rw [hsame.epochWitnesses] at hmem
      exact (hexported cp hcp).standardWitnesses witness hmem
  · intro ⟨hrepo, hbinding, hstandard, cp, hcp, hattests, hlength⟩
    refine ⟨cp, hcp, hattests, sameExport_of_acceptFirstTip (hexported cp hcp) ?_ haccept hattests
      hrepo hbinding hstandard hlength⟩
    by_cases hdigest : bindCheckpoint checkpoint = bindCheckpoint cp
    · exact Or.inl (hinj ⟨checkpoint, Set.mem_insert _ _, rfl⟩
        ⟨cp, Set.mem_insert_of_mem _ hcp, rfl⟩ hdigest)
    · exact Or.inr hdigest

end Attested

section Sample

attribute [local instance] leadingSha512 leadingDigestBytes transparentMlDsa87 transparentHash

/-- The repository of the sample. -/
def sampleRepo : RepoId := Vector.replicate 32 5

/-- The existing device's view: one head. -/
def sampleView : RefCheckpoint Digest :=
  .fromHeads sampleRepo [{
    repoId := sampleRepo
    seq := 1
    encRefs := [1]
    bundleRoot := Sha512.zero
    dekWrap := [1]
    prevHeadHash := Sha512.zero
    mlsEpoch := 0
    epochTag := List.replicate 32 3
    nonFf := false
    pusherSig := []
    adminCosig := none }]

/-- The anchor the existing device signs for it. -/
def sampleAnchor : DeviceAnchor Digest where
  repoId := sampleRepo
  tipBinding := sampleView.tipBinding
  tipSeq := 1
  sig := clearSig (flatSeed 7) (anchorMessage sampleRepo sampleView.tipBinding 1)

/-- What the host presents with it: another window, no chain, the binding copied. -/
def sampleForged : RefCheckpoint Digest where
  repoId := Vector.replicate 32 6
  chain := []
  windowFrom := 9
  epochWitnesses := ∅
  tipBinding := sampleView.tipBinding

theorem acceptFirstTip_sample {checkpoint : RefCheckpoint Digest}
    (hbinding : checkpoint.tipBinding = sampleView.tipBinding) :
    acceptFirstTip sampleRepo checkpoint (some sampleAnchor) [paddedKey (flatSeed 7)] = .ok () :=
  acceptFirstTip_eq_ok_iff.mpr ⟨sampleAnchor, rfl, rfl, hbinding.symm, _, List.mem_singleton_self _,
    mldsaValid_flatSeed 7 7 _⟩

/-- The new device takes any checkpoint with the signed binding: here one for another
repository, with another window and without the chain. -/
theorem acceptFirstTip_not_attested :
    signDeviceAnchor sampleRepo sampleView ⟨flatSeed 7, paddedKey (flatSeed 7)⟩ =
        .ok sampleAnchor ∧
      acceptFirstTip sampleRepo sampleForged (some sampleAnchor) [paddedKey (flatSeed 7)] =
        .ok () ∧
      sampleForged.repoId ≠ sampleView.repoId ∧ sampleForged.windowFrom ≠ sampleView.windowFrom ∧
      sampleForged.chain ≠ sampleView.chain ∧ sampleForged.tipSeq ≠ sampleView.tipSeq := by
  refine ⟨?_, acceptFirstTip_sample rfl, ?_, ?_, ?_, ?_⟩
  · have hsign : orOther (MlDsa87KeyPair.sign ⟨flatSeed 7, paddedKey (flatSeed 7)⟩
        (anchorMessage sampleRepo sampleView.tipBinding 1)) = .ok sampleAnchor.sig := by
      rw [MlDsa87KeyPair.sign, signWithSeed, if_pos (length_flatSeed 7)]
      rfl
    change (orOther (MlDsa87KeyPair.sign _ (anchorMessage sampleRepo sampleView.tipBinding 1)) >>=
      _) = _
    rw [hsign]
    rfl
  · decide
  · decide
  · exact (List.cons_ne_nil _ _).symm
  · exact (Option.some_ne_none _).symm

theorem acceptFirstTip_attested_iff_sample :
    (∃ cp ∈ ({sampleView} : Set (RefCheckpoint Digest)), sampleAnchor.Attests cp) ∧
      ((∃ cp ∈ ({sampleView} : Set (RefCheckpoint Digest)),
          sampleAnchor.Attests cp ∧ SameExport sampleView cp) ↔
        sampleView.repoId = sampleRepo ∧ sampleView.tipBinding = bindCheckpoint sampleView ∧
          StandardWitnesses sampleView ∧
          ∃ cp ∈ ({sampleView} : Set (RefCheckpoint Digest)),
            sampleAnchor.Attests cp ∧ sampleView.chain.length = cp.chain.length) := by
  refine acceptFirstTip_attested_iff ?_ ?_ ?_
    (acceptFirstTip_sample rfl)
  · intro cp hcp
    obtain rfl := Set.mem_singleton_iff.mp hcp
    exact .fromHeadsWindowed _ _ _
  · exact fun _ _ _ => ⟨sampleView, Set.mem_singleton _, rfl⟩
  · rw [Set.insert_eq_of_mem (Set.mem_singleton _), Set.image_singleton]
    exact Set.injOn_singleton _ _

end Sample

end SafeHub
