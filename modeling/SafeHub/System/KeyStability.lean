import SafeHub.Client.Heads
import SafeHub.System.Retention

/-!
# Two derivations of one epoch's key

The key of an epoch is rebuilt on every call by advancing a chain from the epoch's seed. Where the
advance crosses the end of the first segment it draws a new seed, and two calls on the same
material no longer agree. Up to there every device's material holds nonzero seeds only, and the
key is a function of the material.

## Main definitions

* `EpochMaterial.Covers`, `EpochMaterial.StableAt` — an epoch in reach, with one key for all calls
* `EpochMaterial.Seeded`, `SeededWorld` — no seed in use stands for an unseeded chain
* `SealedHead.openRefs`, `SealedHead.unwrapDek` — reading a head with a material

## Main results

* `seededWorld_of_runOps` — every device is seeded after every run
* `epochKeyStable_iff` — when a material reached by a run has stable keys
-/

namespace SafeHub

open Std (ExtTreeMap)
open OpenMlsGroup

variable {E S K L : Type} [MlsExporter E S K] [SeedKdf S K] [KeyKdf K]
variable [DecidableEq S] [DecidableEq K] [DecidableEq L]

/-! ### The property -/

/-- The material covers an epoch: it is in the granted window and its seed is held. -/
def EpochMaterial.Covers (material : EpochMaterial S K) (epoch : ℕ) : Prop :=
  material.historyFrom ≤ epoch ∧ ∃ seed, material.seedAt epoch = .ok seed

/-- All calls return one key, whatever each of them draws. -/
def EpochMaterial.StableAt (material : EpochMaterial S K) (epoch : ℕ) : Prop :=
  ∃ key, ∀ draws, material.epochKeyAt draws epoch = .ok key

namespace SealedHead

/-- Open the refs of a head with a material. -/
def openRefs (head : SealedHead K L) (material : EpochMaterial S K) (draws : Draws S) :
    Except ClientError Bytes := do
  let ke ← material.epochKeyAt draws head.mlsEpoch
  orAead (head.encRefs.openWith (headSealKey ke head.seq) (labelBytes "refs"))

/-- Unwrap the data-encryption key of a head with a material. -/
def unwrapDek (head : SealedHead K L) (material : EpochMaterial S K) (draws : Draws S) :
    Except ClientError K := do
  let ke ← material.epochKeyAt draws head.mlsEpoch
  orAead (head.dekWrap.openWith (headSealKey ke head.seq) (labelBytes "dek-wrap"))

end SealedHead

/-- What a device with the material pushes at the material's epoch, every device with the same
material opens, whatever the two draw. -/
def EpochMaterial.SealsOpen (L : Type) (material : EpochMaterial S K) : Prop :=
  ∀ (draws draws' : Draws S) (epochKey dek : K) (seq : UInt64) (refs bundle : Bytes) (nonFf : Bool)
    (pusher : Option L), material.epochKey draws = .ok epochKey →
    (sealHead material epochKey dek seq refs bundle nonFf pusher).openRefs material draws' =
        .ok refs ∧
      (sealHead material epochKey dek seq refs bundle nonFf pusher).unwrapDek material draws' =
        .ok dek

section Material

variable {material : EpochMaterial S K} {epoch : ℕ}

omit [DecidableEq L] in
/-- Where the key of the material's epoch is stable, what is sealed can be opened. -/
theorem EpochMaterial.StableAt.sealsOpen (h : material.StableAt material.epoch) :
    material.SealsOpen L := by
  obtain ⟨key, hkey⟩ := h
  intro draws draws' epochKey dek seq refs bundle nonFf pusher hsealed
  obtain rfl := Except.ok.inj ((hkey draws).symm.trans hsealed)
  have hbox {P : Type} (k : K) (aad : Bytes) (plaintext : P) :
      SealedBox.openWith ⟨k, aad, plaintext⟩ k aad = .ok plaintext := if_pos ⟨rfl, rfl⟩
  constructor
  · exact bind_eq_ok_iff.mpr ⟨key, hkey draws', orAead_eq_ok_iff.mpr (hbox _ _ _)⟩
  · exact bind_eq_ok_iff.mpr ⟨key, hkey draws', orAead_eq_ok_iff.mpr (hbox _ _ _)⟩

omit [KeyKdf K] [DecidableEq K] in
/-- Beyond the first segment every key that a call returns comes from what it draws. -/
theorem epochKeyAt_of_capacity {draws : Draws S} {key : K} (hle : epoch ≤ material.epoch)
    (hcap : dkrSegmentCapacity ≤ material.epoch) (h : material.epochKeyAt draws epoch = .ok key) :
    key = SeedKdf.expand draws.reinit (dkrEpochInfo epoch) := by
  have hwindow := (EpochMaterial.epochKeyAt_eq_ok h).1
  rw [EpochMaterial.epochKeyAt, if_neg (Nat.not_lt.mpr hwindow)] at h
  cases hseed : material.seedAt epoch with
  | error e =>
    rw [hseed] at h
    cases h
  | ok seed =>
    rw [hseed, max_eq_left hle] at h
    simp only [advance_withSeed_of_le seed draws hcap] at h
    -- capped or not, the interval carries the seed that was drawn
    split_ifs at h with hgrant
    · have hkey := EpochMaterial.orCrypto_deriveEpochKey_eq_ok h
      exact hkey
    · have hkey := EpochMaterial.orCrypto_deriveEpochKey_eq_ok h
      exact hkey

omit [KeyKdf K] [DecidableEq K] in
/-- Beyond the first segment no key is stable. -/
theorem not_stableAt_of_capacity (hle : epoch ≤ material.epoch)
    (hcap : dkrSegmentCapacity ≤ material.epoch)
    (hvaries : ∃ s s' : S, SeedKdf.expand s (dkrEpochInfo epoch) ≠
      SeedKdf.expand s' (dkrEpochInfo epoch)) : ¬ material.StableAt epoch := by
  rintro ⟨key, hkey⟩
  obtain ⟨s, s', hne⟩ := hvaries
  -- one key would be expanded from both draws
  have hs := epochKeyAt_of_capacity hle hcap (hkey ⟨s, s⟩)
  have hs' := epochKeyAt_of_capacity hle hcap (hkey ⟨s', s'⟩)
  exact hne (hs.symm.trans hs')

/-- The seeds in use are nonzero, and only superseded epochs have a retained one. -/
structure EpochMaterial.Seeded (material : EpochMaterial S K) : Prop where
  prior : ∀ (e : ℕ) (x : SeedVec S), material.priorTransport[e]? = some x →
    e < material.epoch ∧ x ≠ some SeedKdf.zeroSeed
  transport : material.transport ≠ SeedKdf.zeroSeed
  interval : material.epoch < dkrSegmentCapacity → material.intervalSeed ≠ SeedKdf.zeroSeed

omit [KeyKdf K] [DecidableEq S] [DecidableEq K] in
/-- What a seeded material covers, it holds a nonzero seed for. -/
theorem EpochMaterial.Seeded.exists_seed (h : material.Seeded) (hcovers : material.Covers epoch) :
    epoch ≤ material.epoch ∧ ∃ seed, material.seedAt epoch = .ok seed ∧
      (material.epoch < dkrSegmentCapacity → seed ≠ SeedKdf.zeroSeed) := by
  obtain ⟨-, seed, hseed⟩ := hcovers
  by_cases hcurrent : epoch = material.epoch
  · subst hcurrent
    obtain rfl := Except.ok.inj (EpochMaterial.seedAt_self.symm.trans hseed)
    exact ⟨le_rfl, _, hseed, h.interval⟩
  · obtain ⟨hlt, hne⟩ := h.prior epoch _ ((EpochMaterial.seedAt_of_ne hcurrent).mp hseed)
    exact ⟨hlt.le, seed, hseed, fun _ hzero => hne (congrArg some hzero)⟩

omit [KeyKdf K] [DecidableEq K] in
/-- The covered epochs of a seeded material are stable exactly within the first segment. -/
theorem EpochMaterial.Seeded.stableAt_iff (h : material.Seeded) (hcovers : material.Covers epoch)
    (hvaries : ∃ s s' : S, SeedKdf.expand s (dkrEpochInfo epoch) ≠
      SeedKdf.expand s' (dkrEpochInfo epoch)) :
    material.StableAt epoch ↔ material.epoch < dkrSegmentCapacity := by
  obtain ⟨hle, seed, hseed, hne⟩ := h.exists_seed hcovers
  constructor
  · intro hstable
    by_contra hcap
    exact not_stableAt_of_capacity hle (not_lt.mp hcap) hvaries hstable
  · intro hcap
    refine ⟨_, fun draws => EpochMaterial.epochKeyAt_of_seedAt hcovers.1 ?_ hseed (hne hcap)⟩
    rwa [max_eq_left hle]

end Material

/-! ### Every device is seeded -/

section Worlds

variable {dir : Directory L} {admin : MlDsa87KeyPair} {tape : ℕ → OpDraws E S K}
variable {draws : OpDraws E S K} {world next : World E S K L} {ops : List Op} {op : Op}
variable {group : OpenMlsGroup E L} {material : EpochMaterial S K} {token : S}

/-- A grant from which a joiner makes a seeded material. -/
structure WelcomeGrant.Seeded (dir : Directory L) (grant : WelcomeGrant E S K L) : Prop where
  prior : ∀ leaf state, grant.welcome = .welcome leaf state → ∀ (e : ℕ) (x : SeedVec S),
    grant.priorTransport[e]? = some x → e < state.epoch ∧ x ≠ some SeedKdf.zeroSeed
  transport : ∀ leaf state, grant.welcome = .welcome leaf state →
    MlsExporter.exportTransport state.secret dir.repo ≠ SeedKdf.zeroSeed
  token : ∀ leaf state, grant.welcome = .welcome leaf state → state.epoch < dkrSegmentCapacity →
    grant.dkrToken ≠ some SeedKdf.zeroSeed

/-- All materials and all grants on the queue are seeded. -/
structure SeededWorld (dir : Directory L) (world : World E S K L) : Prop where
  materials : ∀ user material, (world.devices user).material = some material → material.Seeded
  grants : ∀ env ∈ world.queue, ∀ grant, env.payload = .grant grant → grant.Seeded dir

omit [MlsExporter E S K] [KeyKdf K] [DecidableEq K] in
/-- An operation that draws nonzero seeds issues a nonzero token within the first segment. -/
theorem joinInterval_token_ne_zero {transport : S} {epoch : ℕ} {forwardOnly : Bool}
    {interval : DkrInterval S} (hzero : transport ≠ SeedKdf.zeroSeed)
    (hblock : draws.block ≠ SeedKdf.zeroSeed) (hlt : epoch < dkrSegmentCapacity)
    (h : joinInterval draws transport epoch forwardOnly = .ok interval) :
    interval.token ≠ SeedKdf.zeroSeed := by
  cases forwardOnly with
  | true => rwa [joinInterval_forward h]
  | false => rwa [joinInterval_full_of_lt hzero hlt h]

omit [KeyKdf K] [DecidableEq S] [DecidableEq K] [DecidableEq L] in
/-- The owner's next material is seeded when the last one is. -/
theorem EpochMaterial.Seeded.moved (h : material.Seeded) (dir : Directory L)
    (group : OpenMlsGroup E L) (token : S) (hlt : material.epoch < group.epoch)
    (htransport : (group.exportEpochKeys dir.repo).transport ≠ (SeedKdf.zeroSeed : S))
    (htoken : group.epoch < dkrSegmentCapacity → token ≠ SeedKdf.zeroSeed) :
    ((exporterMaterial dir group token).inherit (some material)).Seeded where
  prior := by
    intro e x hx
    have hne : material.epoch ≠ (exporterMaterial dir group token).epoch := hlt.ne
    rw [EpochMaterial.inherit_priorTransport_getElem? hne] at hx
    rw [EpochMaterial.inherit_epoch]
    -- the last epoch's transport seed is retained with those before
    split_ifs at hx with heq
    · obtain rfl := Option.some.inj hx
      exact ⟨heq ▸ hlt, fun hzero => h.transport (Option.some.inj hzero)⟩
    · obtain ⟨hprior, hnonzero⟩ := h.prior e x hx
      exact ⟨hprior.trans hlt, hnonzero⟩
  transport := by
    rw [EpochMaterial.inherit_transport]
    exact htransport
  interval := by
    intro hcap
    rw [EpochMaterial.inherit_epoch] at hcap
    rw [EpochMaterial.intervalSeed, EpochMaterial.inherit_dkrToken]
    exact htoken hcap

omit [KeyKdf K] [DecidableEq S] [DecidableEq K] [DecidableEq L] in
/-- A joiner's material is seeded when its grant is. -/
theorem WelcomeGrant.Seeded.joiner {grant : WelcomeGrant E S K L} {leaf : L}
    (h : grant.Seeded dir) (hwelcome : grant.welcome = .welcome leaf group.state) :
    (joinerMaterial dir group grant).Seeded where
  prior := h.prior leaf group.state hwelcome
  transport := h.transport leaf group.state hwelcome
  interval := by
    intro hcap
    change grant.dkrToken.getD _ ≠ _
    cases htoken : grant.dkrToken with
    | none =>
      -- without a token the interval starts from the transport seed
      exact h.transport leaf group.state hwelcome
    | some token =>
      intro hzero
      refine h.token leaf group.state hwelcome hcap ?_
      rw [htoken]
      exact congrArg some hzero

omit [KeyKdf K] [DecidableEq S] [DecidableEq K] [DecidableEq L] in
/-- An invite grants what the owner's new material holds. -/
theorem seeded_welcomeGrant {keyPackage : L} {secret : E} {forwardOnly : Bool} {blob : Option ℕ}
    {vk : Option Bytes} (h : material.Seeded) (hepoch : material.epoch = group.epoch + 1)
    (htransport : MlsExporter.exportTransport secret dir.repo ≠ (SeedKdf.zeroSeed : S))
    (htoken : group.epoch + 1 < dkrSegmentCapacity → token ≠ SeedKdf.zeroSeed) :
    (welcomeGrant (addedInvitation group keyPackage secret) material token forwardOnly blob
      vk).Seeded dir where
  prior := by
    intro leaf state hwelcome e x hx
    obtain ⟨-, rfl⟩ := MlsMessage.welcome.inj hwelcome
    have hheld : material.priorTransport[e]? = some x := by
      -- a forward-only grant has no retained seeds
      cases forwardOnly with
      | true =>
        change (∅ : ExtTreeMap ℕ (SeedVec S) compare)[e]? = some x at hx
        rw [ExtTreeMap.getElem?_empty] at hx
        cases hx
      | false => exact hx
    obtain ⟨hlt, hne⟩ := h.prior e x hheld
    rw [hepoch] at hlt
    exact ⟨hlt, hne⟩
  transport := by
    intro leaf state hwelcome
    obtain ⟨-, rfl⟩ := MlsMessage.welcome.inj hwelcome
    exact htransport
  token := by
    intro leaf state hwelcome hcap hzero
    obtain ⟨-, rfl⟩ := MlsMessage.welcome.inj hwelcome
    exact htoken hcap (Option.some.inj hzero)

omit [KeyKdf K] [DecidableEq S] [DecidableEq K] [DecidableEq L] in
/-- The owner's device moves, the others and the queue stay. -/
theorem SeededWorld.moved (h : SeededWorld dir world)
    (hdevices : ∀ v, (next.devices v).material =
      if v = dir.owner then some material else (world.devices v).material)
    (hmaterial : material.Seeded)
    (hgrants : ∀ env ∈ next.queue, ∀ grant, env.payload = .grant grant → grant.Seeded dir) :
    SeededWorld dir next := by
  refine ⟨fun user held hheld => ?_, hgrants⟩
  rw [hdevices] at hheld
  split_ifs at hheld with howner
  · obtain rfl := Option.some.inj hheld
    exact hmaterial
  · exact h.materials user held hheld

omit [KeyKdf K] [DecidableEq S] [DecidableEq K] [DecidableEq L] in
theorem SeededWorld.congr (h : SeededWorld dir world)
    (hdevices : ∀ v, (next.devices v).material = (world.devices v).material)
    (hgrants : ∀ env ∈ next.queue, ∀ grant, env.payload = .grant grant → env ∈ world.queue) :
    SeededWorld dir next :=
  ⟨fun user held hheld => h.materials user held (hdevices user ▸ hheld),
    fun env henv grant hgrant => h.grants env (hgrants env henv grant hgrant) grant hgrant⟩

omit [DecidableEq L] in
/-- Every operation that draws nonzero seeds leaves every device seeded. -/
theorem SeededWorld.effect (h : SeededWorld dir world) (howned : Owned dir world group material)
    (htransport : MlsExporter.exportTransport draws.epochSecret dir.repo ≠ (SeedKdf.zeroSeed : S))
    (hblock : draws.block ≠ SeedKdf.zeroSeed) (heffect : Effect dir draws world op next) :
    SeededWorld dir next := by
  have hseeded : material.Seeded := h.materials dir.owner material howned.material_eq
  have hlt : material.epoch < group.epoch + 1 := by
    rw [howned.epoch]
    exact Nat.lt_succ_self _
  -- an invite adds a leaf and draws a token, a rotation takes the seed of the new epoch for one
  have hadded (keyPackage : L) {token : S}
      (htoken : group.epoch + 1 < dkrSegmentCapacity → token ≠ SeedKdf.zeroSeed) :=
    hseeded.moved dir (addedGroup group keyPackage draws.epochSecret) token hlt htransport htoken
  have hrotated := hseeded.moved dir (group.rotate draws.epochSecret).1
    ((group.rotate draws.epochSecret).1.exportEpochKeys dir.repo).transport hlt htransport
    fun _ => htransport
  cases heffect with
  | @invite user forwardOnly graft _ keyPackage interval hgroup hpackage hnew hinterval =>
    obtain rfl := Option.some.inj (howned.group_eq.symm.trans hgroup)
    have htoken (hcap : group.epoch + 1 < dkrSegmentCapacity) :=
      joinInterval_token_ne_zero htransport hblock hcap hinterval
    have hmoved := hadded keyPackage htoken
    refine h.moved (fun v => ?_) hmoved fun env henv grant hgrant => ?_
    · rw [afterInvite_devices, movedMaterial, howned.material_eq]
      split_ifs <;> rfl
    · rcases grant_of_afterInvite henv hgrant with hold | ⟨blob, vk, rfl⟩
      · exact h.grants env hold grant hgrant
      · rw [movedMaterial, howned.material_eq]
        exact seeded_welcomeGrant hmoved EpochMaterial.inherit_epoch htransport htoken
  | @inviteCut user forwardOnly graft uploaded _ keyPackage interval hgroup hpackage hnew
      hinterval =>
    obtain rfl := Option.some.inj (howned.group_eq.symm.trans hgroup)
    have hmoved := hadded keyPackage fun hcap =>
      joinInterval_token_ne_zero htransport hblock hcap hinterval
    refine h.moved (fun v => ?_) hmoved ?_
    · rw [afterInviteCut_devices, movedMaterial, howned.material_eq]
      split_ifs <;> rfl
    · rw [afterInviteCut_queue]
      exact h.grants
  | @accept user identity grant joined hmember hgrant hidentity hwelcome hleaf =>
    obtain ⟨env, henv, hpayload⟩ := mem_queue_of_lastGrant hgrant
    have hjoiner := (h.grants env henv grant hpayload).joiner hwelcome
    refine ⟨fun v held hheld => ?_, h.grants⟩
    rw [afterAccept_devices] at hheld
    split_ifs at hheld with hv
    · obtain rfl := Option.some.inj hheld
      exact hjoiner
    · exact h.materials v held hheld
  | rotate hgroup =>
    obtain rfl := Option.some.inj (howned.group_eq.symm.trans hgroup)
    refine h.moved (fun v => ?_) hrotated h.grants
    rw [afterRotate_devices, movedMaterial, howned.material_eq]
    split_ifs <;> rfl
  | removeMember hgroup =>
    obtain rfl := Option.some.inj (howned.group_eq.symm.trans hgroup)
    refine h.moved (fun v => ?_) hrotated h.grants
    rw [afterRotate_devices, movedMaterial, removeCollaborator_devices, howned.material_eq]
    split_ifs <;> rfl
  | inviteCollab =>
    refine h.congr (fun v => by rw [inviteCollaborator_devices]) fun env henv _ _ => ?_
    rwa [inviteCollaborator_queue] at henv
  | removeCollab => exact h.congr (fun v => rfl) fun env henv _ _ => henv
  | collab hmaterial =>
    refine h.congr (fun v => rfl) fun env henv grant hgrant => ?_
    rcases List.mem_append.mp henv with hold | hlast
    · exact hold
    · obtain rfl := List.mem_singleton.mp hlast
      cases hgrant
  | sync hmember hmaterial => exact h.congr (fun v => afterSync_material) fun env henv _ _ => henv
  | push hmaterial hkey => exact h.congr (fun v => rfl) fun env henv _ _ => henv

omit [KeyKdf K] [DecidableEq S] [DecidableEq K] [DecidableEq L] in
theorem seededWorld_bootstrap
    (htransport : MlsExporter.exportTransport draws.epochSecret dir.repo ≠
      (SeedKdf.zeroSeed : S)) : SeededWorld dir (bootstrapRepoGroup dir admin draws) := by
  refine ⟨fun user held hheld => ?_, List.forall_mem_nil _⟩
  simp only [bootstrapRepoGroup] at hheld
  split_ifs at hheld with howner
  · obtain rfl := Option.some.inj hheld
    refine ⟨fun e x hx => ?_, htransport, fun _ => htransport⟩
    change (∅ : ExtTreeMap ℕ (SeedVec S) compare)[e]? = some x at hx
    rw [ExtTreeMap.getElem?_empty] at hx
    cases hx
  · cases hheld

/-- After every run every device is seeded. -/
theorem seededWorld_of_runOps (hseeds : NonzeroSeeds dir tape)
    (hrun : runOps dir admin tape ops = some world) : SeededWorld dir world := by
  refine Run.run_induction (P := fun _ w => SeededWorld dir w)
    (seededWorld_bootstrap (hseeds.transport_ne_zero 0)) (fun front w op w' hfront ih hstep => ?_)
    hrun
  obtain ⟨group, material, howned, -⟩ := owned_of_runOps hfront
  obtain ⟨after, heffect, rfl⟩ := effect_of_step hstep
  have hafter := ih.effect howned (hseeds.transport_ne_zero w.clock)
    (hseeds.block_ne_zero w.clock) heffect
  exact ⟨hafter.materials, hafter.grants⟩

/-! ### Exactly which materials are stable -/

/-- In every run, the keys that a device's material covers are stable, and what is sealed under
them opens, exactly while the material's epoch is in the first segment. -/
theorem epochKeyStable_iff (hideal : IdealSeeds dir tape)
    (hrun : runOps dir admin tape ops = some world) (user : UserId)
    (material : EpochMaterial S K) (hmaterial : (world.devices user).material = some material)
    (epoch : ℕ) (hcovers : material.Covers epoch) :
    material.StableAt epoch ∧ (epoch = material.epoch → material.SealsOpen L) ↔
      material.epoch < dkrSegmentCapacity := by
  have hseeded := (seededWorld_of_runOps hideal.toNonzeroSeeds hrun).materials user material
    hmaterial
  have hstable := hseeded.stableAt_iff hcovers ⟨_, _, hideal.keys_ne 0 0 epoch⟩
  constructor
  · exact fun h => hstable.mp h.1
  · intro hcap
    refine ⟨hstable.mpr hcap, ?_⟩
    rintro rfl
    exact (hstable.mpr hcap).sealsOpen

/-- The owner can rotate any number of times. -/
theorem exists_run_rotations (dir : Directory L) (admin : MlDsa87KeyPair)
    (tape : ℕ → OpDraws E S K) (n : ℕ) :
    ∃ world group material, runOps dir admin tape (List.replicate n .rotate) = some world ∧
      Owned dir world group material ∧ material.epoch = n ∧
      (world.devices dir.owner).adminKeys = some admin := by
  induction n with
  | zero => exact ⟨_, _, _, rfl, owned_bootstrap admin, rfl, by simp [bootstrapRepoGroup]⟩
  | succ n ih =>
    obtain ⟨world, group, material, hrun, howned, hepoch, hadmin⟩ := ih
    have hperform : perform dir (tape world.clock) world .rotate =
        .ok (world.afterRotate dir (group.rotate (tape world.clock).epochSecret).1) := by
      simp only [perform, rotateRepoGroup, hadmin, howned.group_eq]
    have hstep : step dir tape world .rotate = some
        { world.afterRotate dir (group.rotate (tape world.clock).epochSecret).1 with
          clock := world.clock + 1 } := by
      rw [step, hperform]
      rfl
    obtain ⟨group', material', howned', hmove⟩ := howned.step hstep
    refine ⟨_, group', material', ?_, howned', ?_, ?_⟩
    · rw [List.replicate_succ']
      exact Run.run_concat_eq_some.mpr ⟨world, hrun, hstep⟩
    · rw [hmove.epoch howned.epoch, hepoch]
      rfl
    · change ((world.afterRotate dir _).devices dir.owner).adminKeys = _
      rw [afterRotate_devices, if_pos rfl]
      exact hadmin

omit [SeedKdf S K] [KeyKdf K] [DecidableEq S] [DecidableEq K] [DecidableEq L] in
/-- A material covers its own epoch. -/
theorem Owned.covers (howned : Owned dir world group material) : material.Covers material.epoch :=
  ⟨howned.historyFrom.le.trans (Nat.zero_le _), _, EpochMaterial.seedAt_self⟩

end Worlds

/-! ### On the symbolic tape -/

/-- After one rotation the owner's key is stable. -/
theorem epochKeyStable_rotate :
    ∃ world material, runOps sampleDirectory sampleAdmin freshTape [.rotate] = some world ∧
      (world.devices sampleDirectory.owner).material = some material ∧ material.epoch = 1 ∧
      material.StableAt 1 ∧ (1 = material.epoch → material.SealsOpen Bytes) := by
  obtain ⟨world, group, material, hrun, howned, hepoch, -⟩ :=
    exists_run_rotations sampleDirectory sampleAdmin freshTape 1
  refine ⟨world, material, hrun, howned.material_eq, hepoch, ?_⟩
  refine (epochKeyStable_iff (idealSeeds_freshTape sampleDirectory) hrun sampleDirectory.owner
    material howned.material_eq 1 (hepoch ▸ howned.covers)).mpr ?_
  rw [hepoch]
  decide

/-- After as many rotations as a segment has epochs, two calls on the owner's material return
different keys. -/
theorem not_epochKeyStable_rotations :
    ∃ world material,
      runOps sampleDirectory sampleAdmin freshTape (List.replicate (2 ^ 20) .rotate) =
        some world ∧
      (world.devices sampleDirectory.owner).material = some material ∧
      material.Covers material.epoch ∧ ¬ material.StableAt material.epoch ∧
      ∃ key key', material.epochKeyAt (freshTape 0).advance material.epoch = .ok key ∧
        material.epochKeyAt (freshTape 1).advance material.epoch = .ok key' ∧ key ≠ key' := by
  obtain ⟨world, group, material, hrun, howned, hepoch, -⟩ :=
    exists_run_rotations sampleDirectory sampleAdmin freshTape (2 ^ 20)
  have hcap : dkrSegmentCapacity ≤ material.epoch := hepoch.ge
  have hkey (i : ℕ) : material.epochKeyAt (freshTape i).advance material.epoch = .ok _ :=
    EpochMaterial.epochKeyAt_current_of_capacity howned.covers.1 hcap
  have hne : SeedKdf.expand (freshTape 0).advance.reinit (dkrEpochInfo material.epoch) ≠
      SeedKdf.expand (freshTape 1).advance.reinit (dkrEpochInfo material.epoch) := by
    simp [SeedKdf.expand, freshTape]
  exact ⟨world, material, hrun, howned.material_eq, howned.covers,
    not_stableAt_of_capacity le_rfl hcap ⟨_, _, hne⟩, _, _, hkey 0, hkey 1, hne⟩

end SafeHub
