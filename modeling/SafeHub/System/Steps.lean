import SafeHub.Client.Membership

/-!
# What one operation can do

Every operation of the membership system is inverted once: what it found and the
state it leaves. From that follow the facts that hold after every run, whatever
the operations were: the owner's device keeps the group and the exports of its
epoch, and every Welcome on the queue is for an invited user's leaf.

## Main definitions

* `Effect` — an operation with its guards and its resulting state
* `Owned` — the invariant of the owner's device and the queue

## Main results

* `effect_of_step` — every step is one of the effects
* `owned_of_runOps` — the invariant holds after every run
-/

namespace SafeHub

open OpenMlsGroup
open Std (ExtTreeMap)

variable {E S K L : Type} [MlsExporter E S K] [SeedKdf S K] [KeyKdf K]
variable [DecidableEq S] [DecidableEq K] [DecidableEq L]

/-! ### The operations, inverted -/

/-- The group of an inviting device after the add. -/
def addedGroup (group : OpenMlsGroup E L) (keyPackage : L) (secret : E) : OpenMlsGroup E L :=
  { group with state := group.stateAfterAdd keyPackage secret }

/-- The messages of an add. -/
def addedInvitation (group : OpenMlsGroup E L) (keyPackage : L) (secret : E) :
    MlsInvitation E L :=
  ⟨.welcome keyPackage (group.stateAfterAdd keyPackage secret),
    .commit group.state (group.stateAfterAdd keyPackage secret)⟩

/-- The state after an inbox sync. -/
def World.afterSync (world : World E S K L) (user : UserId) (material : EpochMaterial S K) :
    World E S K L :=
  let device := world.devices user
  let envs := world.mlsFetch device.cursor
  world.setDevice user
    { device with
      cursor := (envs.map (·.seq)).foldl max device.cursor
      inbox := device.inbox ++ envs.filterMap (openCollab material) }

/-- An operation, what it found, and the state it leaves. -/
inductive Effect (dir : Directory L) (draws : OpDraws E S K) (world : World E S K L) :
    Op → World E S K L → Prop
  | invite {user forwardOnly graft group keyPackage interval}
      (hgroup : (world.devices dir.owner).group = some group)
      (hpackage : dir.keyPackage user = some keyPackage)
      (hnew : keyPackage ∉ group.state.members)
      (hinterval : joinInterval draws
        ((addedGroup group keyPackage draws.epochSecret).exportEpochKeys dir.repo).transport
        (group.epoch + 1) forwardOnly = .ok interval) :
      Effect dir draws world (.invite user forwardOnly graft)
        (world.afterInvite dir user (addedGroup group keyPackage draws.epochSecret)
          (addedInvitation group keyPackage draws.epochSecret) interval.token forwardOnly graft)
  | inviteCut {user forwardOnly graft uploaded group keyPackage interval}
      (hgroup : (world.devices dir.owner).group = some group)
      (hpackage : dir.keyPackage user = some keyPackage)
      (hnew : keyPackage ∉ group.state.members)
      (hinterval : joinInterval draws
        ((addedGroup group keyPackage draws.epochSecret).exportEpochKeys dir.repo).transport
        (group.epoch + 1) forwardOnly = .ok interval) :
      Effect dir draws world (.inviteCut user forwardOnly graft uploaded)
        (world.afterInviteCut dir (addedGroup group keyPackage draws.epochSecret)
          interval.token forwardOnly graft uploaded)
  | accept {user identity grant group}
      (hmember : world.isMember dir user)
      (hgrant : lastGrant (world.mlsFetch 0) = some grant)
      (hidentity : dir.published user = some identity)
      (hwelcome : grant.welcome = .welcome identity group.state)
      (hleaf : group.leaf = identity) :
      Effect dir draws world (.accept user) (world.afterAccept dir user group grant)
  | rotate {group} (hgroup : (world.devices dir.owner).group = some group) :
      Effect dir draws world .rotate
        (world.afterRotate dir (group.rotate draws.epochSecret).1)
  | removeMember {user group} (hgroup : (world.devices dir.owner).group = some group) :
      Effect dir draws world (.removeMember user)
        ((world.removeCollaborator user).afterRotate dir (group.rotate draws.epochSecret).1)
  | inviteCollab {user} :
      Effect dir draws world (.inviteCollab user) (world.inviteCollaborator user)
  | removeCollab {user} :
      Effect dir draws world (.removeCollab user) (world.removeCollaborator user)
  | collab {user text material} (hmaterial : (world.devices user).material = some material) :
      Effect dir draws world (.collab user text)
        (world.enqueue (.collab ⟨material.refsMac, collabAad, text⟩) none)
  | sync {user material} (hmember : world.isMember dir user)
      (hmaterial : (world.devices user).material = some material) :
      Effect dir draws world (.sync user) (world.afterSync user material)
  | push {user refs bundle nonFf material epochKey}
      (hmaterial : (world.devices user).material = some material)
      (hkey : material.epochKey draws.advance = .ok epochKey) :
      Effect dir draws world (.push user refs bundle nonFf)
        { world with
          heads := world.heads ++ [sealHead material epochKey draws.dek
            (UInt64.ofNat (world.heads.length + 1)) refs bundle nonFf
            ((world.devices user).group.map (·.leaf))] }

variable {dir : Directory L} {draws : OpDraws E S K} {world next : World E S K L}
variable {user : UserId} {op : Op}

omit [KeyKdf K] [DecidableEq K] in
theorem inviteGroup_eq_ok {forwardOnly : Bool} {group' : OpenMlsGroup E L}
    {invitation : MlsInvitation E L} {token : S}
    (h : inviteGroup dir draws world user forwardOnly = .ok (group', invitation, token)) :
    ∃ group keyPackage interval, (world.devices dir.owner).group = some group ∧
      dir.keyPackage user = some keyPackage ∧ keyPackage ∉ group.state.members ∧
      joinInterval draws
        ((addedGroup group keyPackage draws.epochSecret).exportEpochKeys dir.repo).transport
        (group.epoch + 1) forwardOnly = .ok interval ∧
      group' = addedGroup group keyPackage draws.epochSecret ∧
      invitation = addedInvitation group keyPackage draws.epochSecret ∧ token = interval.token := by
  simp only [inviteGroup] at h
  split at h
  · cases h
  · cases h
  · cases h
  · next admin group keyPackage hadmin hgroup hpackage =>
    obtain ⟨⟨added, message⟩, hadd, h⟩ := bind_eq_ok_iff.mp h
    obtain ⟨interval, hinterval, h⟩ := bind_eq_ok_iff.mp h
    obtain ⟨hnew, rfl, rfl⟩ := addMember_eq_ok_iff.mp (orOther_eq_ok_iff.mp hadd)
    obtain ⟨rfl, rfl, rfl⟩ : group' = _ ∧ invitation = _ ∧ token = _ := by
      simpa [pure, Except.pure, eq_comm] using h
    exact ⟨group, keyPackage, interval, hgroup, hpackage, hnew, orOther_eq_ok_iff.mp hinterval,
      rfl, rfl, rfl⟩

theorem effect_of_inviteMemberMls {forwardOnly : Bool} {graft : Option Bytes}
    (h : inviteMemberMls dir draws world user forwardOnly graft = .ok next) :
    Effect dir draws world (.invite user forwardOnly graft) next := by
  obtain ⟨⟨group', invitation, token⟩, hgroup', h⟩ := bind_eq_ok_iff.mp h
  obtain ⟨group, keyPackage, interval, hgroup, hpackage, hnew, hinterval, rfl, rfl, rfl⟩ :=
    inviteGroup_eq_ok hgroup'
  obtain rfl := Except.ok.inj h
  exact .invite hgroup hpackage hnew hinterval

theorem effect_of_inviteMemberCut {forwardOnly uploaded : Bool} {graft : Option Bytes}
    (h : inviteMemberCut dir draws world user forwardOnly graft uploaded = .ok next) :
    Effect dir draws world (.inviteCut user forwardOnly graft uploaded) next := by
  obtain ⟨⟨group', invitation, token⟩, hgroup', h⟩ := bind_eq_ok_iff.mp h
  obtain ⟨group, keyPackage, interval, hgroup, hpackage, hnew, hinterval, rfl, rfl, rfl⟩ :=
    inviteGroup_eq_ok hgroup'
  obtain rfl := Except.ok.inj h
  exact .inviteCut hgroup hpackage hnew hinterval

theorem effect_of_acceptWelcomeMls (h : acceptWelcomeMls dir world user = .ok next) :
    Effect dir draws world (.accept user) next := by
  rw [acceptWelcomeMls] at h
  split_ifs at h with hmember
  split at h
  · cases h
  · cases h
  · next grant identity hgrant hidentity =>
    obtain ⟨group, hjoin, h⟩ := bind_eq_ok_iff.mp h
    obtain ⟨hwelcome, hleaf⟩ := join_eq_ok_iff.mp (orOther_eq_ok_iff.mp hjoin)
    obtain rfl := Except.ok.inj h
    exact .accept hmember hgrant hidentity hwelcome hleaf

omit [SeedKdf S K] [KeyKdf K] [DecidableEq S] [DecidableEq K] [DecidableEq L] in
theorem rotateRepoGroup_eq_ok (h : rotateRepoGroup dir draws world = .ok next) :
    ∃ group, (world.devices dir.owner).group = some group ∧
      next = world.afterRotate dir (group.rotate draws.epochSecret).1 := by
  simp only [rotateRepoGroup] at h
  split at h
  · cases h
  · cases h
  · next admin group hadmin hgroup => exact ⟨group, hgroup, (Except.ok.inj h).symm⟩

omit [DecidableEq L] in
theorem effect_of_enqueueCollab {text : Bytes}
    (h : enqueueCollab dir world user text = .ok next) :
    Effect dir draws world (.collab user text) next := by
  rw [enqueueCollab] at h
  split at h
  · cases h
  · next material hmaterial =>
    split_ifs at h
    obtain rfl := Except.ok.inj h
    exact .collab hmaterial

omit [DecidableEq L] in
theorem effect_of_syncInbox (h : syncInbox dir world user = .ok next) :
    Effect dir draws world (.sync user) next := by
  simp only [syncInbox] at h
  split at h
  · cases h
  · next material hmaterial =>
    split_ifs at h with hmember
    obtain rfl := Except.ok.inj h
    exact .sync hmember hmaterial

omit [DecidableEq L] in
theorem effect_of_pushBundle {refs bundle : Bytes} {nonFf : Bool}
    (h : pushBundle dir draws world user refs bundle nonFf = .ok next) :
    Effect dir draws world (.push user refs bundle nonFf) next := by
  simp only [pushBundle] at h
  split at h
  · cases h
  · next material hmaterial =>
    split_ifs at h
    obtain ⟨epochKey, hkey, h⟩ := bind_eq_ok_iff.mp h
    obtain rfl := Except.ok.inj h
    exact .push hmaterial hkey

/-- Every successful operation is one of the effects. -/
theorem effect_of_perform (h : perform dir draws world op = .ok next) :
    Effect dir draws world op next := by
  cases op with
  | invite user forwardOnly graft => exact effect_of_inviteMemberMls h
  | inviteCut user forwardOnly graft uploaded => exact effect_of_inviteMemberCut h
  | accept user => exact effect_of_acceptWelcomeMls h
  | rotate =>
    obtain ⟨group, hgroup, rfl⟩ := rotateRepoGroup_eq_ok h
    exact .rotate hgroup
  | removeMember user =>
    obtain ⟨group, hgroup, rfl⟩ := rotateRepoGroup_eq_ok h
    exact .removeMember hgroup
  | inviteCollab user =>
    obtain rfl := Except.ok.inj h
    exact .inviteCollab
  | removeCollab user =>
    obtain rfl := Except.ok.inj h
    exact .removeCollab
  | collab user text => exact effect_of_enqueueCollab h
  | sync user => exact effect_of_syncInbox h
  | push user refs bundle nonFf => exact effect_of_pushBundle h

/-- Every step is an effect, with the clock moved on. -/
theorem effect_of_step {tape : ℕ → OpDraws E S K} (h : step dir tape world op = some next) :
    ∃ after, Effect dir (tape world.clock) world op after ∧
      next = { after with clock := world.clock + 1 } := by
  obtain ⟨after, hafter, rfl⟩ := Option.map_eq_some_iff.mp h
  cases hperform : perform dir (tape world.clock) world op with
  | error e =>
    rw [hperform] at hafter
    cases hafter
  | ok result =>
    rw [hperform] at hafter
    obtain rfl := Option.some.inj hafter
    exact ⟨result, effect_of_perform hperform, rfl⟩

omit [MlsExporter E S K] [KeyKdf K] [DecidableEq K] in
/-- The token of an invite: a block for a forward-only one, otherwise the export,
unless random bytes were drawn in its place. -/
theorem joinInterval_token {transport : S} {epoch : ℕ} {forwardOnly : Bool}
    {interval : DkrInterval S} (hzero : transport ≠ SeedKdf.zeroSeed)
    (h : joinInterval draws transport epoch forwardOnly = .ok interval) :
    if forwardOnly then interval.token = draws.block
    else interval.token = transport ∨ interval.token = draws.advance.seeded ∨
      interval.token = draws.advance.reinit := by
  have hinit : ((IntervalDkr.withSeed transport).init draws.initSeed).1 =
      IntervalDkr.withSeed transport := by
    rw [IntervalDkr.init, ensureSeeded_withSeed, if_neg hzero]
    rfl
  cases forwardOnly with
  | true =>
    obtain rfl := Except.ok.inj h
    rfl
  | false =>
    simp only [joinInterval, hinit, Bool.false_eq_true, if_false] at h ⊢
    cases hadvance : (IntervalDkr.withSeed transport).advance draws.advance epoch with
    | error e =>
      rw [hadvance] at h
      cases h
    | ok out =>
      rw [hadvance] at h
      obtain rfl := Except.ok.inj h
      exact advance_withSeed_token hadvance

/-! ### The states they leave -/

section States

variable {group : OpenMlsGroup E L} {invitation : MlsInvitation E L} {token : S}
variable {forwardOnly : Bool} {graft : Option Bytes} {material : EpochMaterial S K}
variable {grant : WelcomeGrant E S K L} {v : UserId}

omit [KeyKdf K] [DecidableEq S] [DecidableEq L]

/-- The material of the owner's device after a group change. -/
def movedMaterial (dir : Directory L) (group : OpenMlsGroup E L) (token : S)
    (device : Device E S K L) : EpochMaterial S K :=
  (exporterMaterial dir group token).inherit device.material

omit [MlsExporter E S K] [SeedKdf S K] [DecidableEq K] in
@[simp] theorem setDevice_devices {device : Device E S K L} :
    (world.setDevice user device).devices v = if v = user then device else world.devices v := by
  simp only [World.setDevice, Function.update_apply]

omit [DecidableEq K] in
@[simp] theorem afterInviteCut_queue {uploaded : Bool} :
    (world.afterInviteCut dir group token forwardOnly graft uploaded).queue = world.queue := by
  rw [World.afterInviteCut]
  split_ifs <;> rfl

omit [DecidableEq K] in
@[simp] theorem afterInviteCut_heads {uploaded : Bool} :
    (world.afterInviteCut dir group token forwardOnly graft uploaded).heads = world.heads := by
  rw [World.afterInviteCut]
  split_ifs <;> rfl

omit [DecidableEq K] in
theorem afterInvite_devices :
    (world.afterInvite dir user group invitation token forwardOnly graft).devices v =
      if v = dir.owner then
        { world.devices dir.owner with
          group := some group
          material := some (movedMaterial dir group token (world.devices dir.owner)) }
      else
        world.devices v :=
  setDevice_devices

omit [DecidableEq K] in
theorem afterInviteCut_devices {uploaded : Bool} :
    (world.afterInviteCut dir group token forwardOnly graft uploaded).devices v =
      if v = dir.owner then
        { world.devices dir.owner with
          group := some group
          material := some (movedMaterial dir group token (world.devices dir.owner)) }
      else
        world.devices v := by
  rw [World.afterInviteCut, apply_ite World.devices, ite_self]
  exact setDevice_devices

omit [DecidableEq K] in
/-- A grant on the queue after an invite was there before or is the one just sent. -/
theorem grant_of_afterInvite {env : MlsDeliveryEnvelope E S K L}
    (henv : env ∈ (world.afterInvite dir user group invitation token forwardOnly graft).queue)
    (hgrant : env.payload = .grant grant) :
    env ∈ world.queue ∨ ∃ blob vk, grant = welcomeGrant invitation
      (movedMaterial dir group token (world.devices dir.owner)) token forwardOnly blob vk := by
  rcases List.mem_append.mp henv with hold | hlast
  · exact .inl hold
  · obtain rfl := List.mem_singleton.mp hlast
    exact .inr ⟨_, _, (Payload.grant.inj hgrant).symm⟩

omit [DecidableEq K] in
/-- An invite does send its grant. -/
theorem exists_grant_afterInvite (dir : Directory L) (world : World E S K L) (user : UserId)
    (group : OpenMlsGroup E L) (invitation : MlsInvitation E L) (token : S) (forwardOnly : Bool)
    (graft : Option Bytes) :
    ∃ env ∈ (world.afterInvite dir user group invitation token forwardOnly graft).queue,
      ∃ blob vk, env.payload = .grant (welcomeGrant invitation
        (movedMaterial dir group token (world.devices dir.owner)) token forwardOnly blob vk) :=
  ⟨_, List.mem_append_right _ (List.mem_singleton_self _), _, _, rfl⟩

omit [SeedKdf S K] [DecidableEq K] in
theorem afterRotate_devices :
    (world.afterRotate dir group).devices v =
      if v = dir.owner then
        { world.devices dir.owner with
          group := some group
          material := some (movedMaterial dir group (group.exportEpochKeys dir.repo).transport
            (world.devices dir.owner)) }
      else
        world.devices v :=
  setDevice_devices

theorem afterAccept_devices :
    (world.afterAccept dir user group grant).devices v =
      if v = user then
        { world.devices user with
          group := some group
          material := some (joinerMaterial dir group grant)
          adminVk := grant.adminVk.or (world.devices user).adminVk
          graft := (world.importGraft (joinerMaterial dir group grant) grant).or
            (world.devices user).graft }
      else
        world.devices v :=
  setDevice_devices

omit [MlsExporter E S K] [SeedKdf S K] [DecidableEq K] in
@[simp] theorem removeCollaborator_devices :
    (world.removeCollaborator user).devices = world.devices := rfl

omit [MlsExporter E S K] [SeedKdf S K] [DecidableEq K] in
@[simp] theorem inviteCollaborator_devices :
    (world.inviteCollaborator user).devices = world.devices := by
  rw [World.inviteCollaborator]
  split_ifs <;> rfl

omit [MlsExporter E S K] [SeedKdf S K] [DecidableEq K] in
@[simp] theorem inviteCollaborator_queue :
    (world.inviteCollaborator user).queue = world.queue := by
  rw [World.inviteCollaborator]
  split_ifs <;> rfl

omit [MlsExporter E S K] [SeedKdf S K] [DecidableEq K] in
@[simp] theorem inviteCollaborator_heads :
    (world.inviteCollaborator user).heads = world.heads := by
  rw [World.inviteCollaborator]
  split_ifs <;> rfl

omit [MlsExporter E S K] [SeedKdf S K] [DecidableEq K] in
@[simp] theorem inviteCollaborator_blobs :
    (world.inviteCollaborator user).blobs = world.blobs := by
  rw [World.inviteCollaborator]
  split_ifs <;> rfl

omit [MlsExporter E S K] [SeedKdf S K] in
/-- A sync changes neither the group nor the material of any device. -/
theorem afterSync_group : ((world.afterSync user material).devices v).group =
    (world.devices v).group := by
  rw [World.afterSync, setDevice_devices]
  split_ifs with hv
  · rw [hv]
  · rfl

omit [MlsExporter E S K] [SeedKdf S K] in
theorem afterSync_material : ((world.afterSync user material).devices v).material =
    (world.devices v).material := by
  rw [World.afterSync, setDevice_devices]
  split_ifs with hv
  · rw [hv]
  · rfl

end States

/-! ### The owner's device -/

/-- The user an operation adds to the owner's group, and whether for the future only. -/
def Op.adds : Op → Option (UserId × Bool)
  | .invite user forwardOnly _ | .inviteCut user forwardOnly _ _ => some (user, forwardOnly)
  | _ => none

/-- Whether an operation moves the owner's group to another epoch. -/
def Op.movesEpoch : Op → Bool
  | .invite _ _ _ | .inviteCut _ _ _ _ | .rotate | .removeMember _ => true
  | _ => false

/-- Whether an operation queues a Welcome and its grant. -/
def Op.queuesGrant : Op → Bool
  | .invite _ _ _ => true
  | _ => false

theorem Op.eq_invite_of_queuesGrant {op : Op} (h : op.queuesGrant = true) :
    ∃ user forwardOnly graft, op = .invite user forwardOnly graft := by
  cases op with
  | invite user forwardOnly graft => exact ⟨user, forwardOnly, graft, rfl⟩
  | _ => cases h

theorem Op.movesEpoch_of_adds {op : Op} {added : UserId × Bool} (h : op.adds = some added) :
    op.movesEpoch = true := by
  cases op <;> first | rfl | cases h

/-- The grant a Welcome is sent with is for an invited user, never for the owner. -/
def WelcomeGrant.ForInvitee (dir : Directory L) (grant : WelcomeGrant E S K L) : Prop :=
  ∃ user leaf state, user ≠ dir.owner ∧ dir.published user = some leaf ∧
    grant.welcome = .welcome leaf state

/-- The owner's device holds this group and its exports, and every Welcome on
the queue is for somebody else. -/
structure Owned (dir : Directory L) (world : World E S K L) (group : OpenMlsGroup E L)
    (material : EpochMaterial S K) : Prop where
  group_eq : (world.devices dir.owner).group = some group
  material_eq : (world.devices dir.owner).material = some material
  epoch : material.epoch = group.epoch
  transport : material.transport = (group.exportEpochKeys dir.repo).transport
  refsMac : material.refsMac = (group.exportEpochKeys dir.repo).refs
  historyFrom : material.historyFrom = 0
  ownerLeaf : dir.ownerLeaf ∈ group.state.members
  /-- Only superseded epochs have retained seeds. -/
  prior_lt : ∀ e, e ∈ material.priorTransport → e < material.epoch
  priorMac_lt : ∀ e, e ∈ material.priorRefsMac → e < material.epoch
  grants : ∀ env ∈ world.queue, ∀ grant, env.payload = .grant grant → grant.ForInvitee dir

/-- What a step does to the group and the material of the owner's device. -/
inductive OwnerStep (dir : Directory L) (draws : OpDraws E S K) (group : OpenMlsGroup E L)
    (material : EpochMaterial S K) : Op → OpenMlsGroup E L → EpochMaterial S K → Prop
  | invite {op : Op} {user forwardOnly keyPackage interval}
      (hop : op.adds = some (user, forwardOnly))
      (hpackage : dir.keyPackage user = some keyPackage)
      (hnew : keyPackage ∉ group.state.members)
      (hinterval : joinInterval draws
        ((addedGroup group keyPackage draws.epochSecret).exportEpochKeys dir.repo).transport
        (group.epoch + 1) forwardOnly = .ok interval) :
      OwnerStep dir draws group material op
        (addedGroup group keyPackage draws.epochSecret)
        ((exporterMaterial dir (addedGroup group keyPackage draws.epochSecret)
          interval.token).inherit (some material))
  | rotate {op : Op} (hop : op = .rotate ∨ ∃ user, op = .removeMember user) :
      OwnerStep dir draws group material op (group.rotate draws.epochSecret).1
        ((exporterMaterial dir (group.rotate draws.epochSecret).1
          ((group.rotate draws.epochSecret).1.exportEpochKeys dir.repo).transport).inherit
            (some material))
  | stay {op : Op} (hop : op.movesEpoch = false) :
      OwnerStep dir draws group material op group material

omit [KeyKdf K] [DecidableEq K] [DecidableEq L] in
theorem OwnerStep.epoch {draws : OpDraws E S K} {group group' : OpenMlsGroup E L}
    {material material' : EpochMaterial S K}
    (hstep : OwnerStep dir draws group material op group' material')
    (hepoch : material.epoch = group.epoch) :
    material'.epoch = material.epoch + if op.movesEpoch then 1 else 0 := by
  cases hstep with
  | invite hop =>
    rw [EpochMaterial.inherit_epoch, hepoch, Op.movesEpoch_of_adds hop]
    rfl
  | rotate hop =>
    have hmoves : op.movesEpoch = true := by
      rcases hop with rfl | ⟨user, rfl⟩ <;> rfl
    rw [EpochMaterial.inherit_epoch, hepoch, hmoves]
    rfl
  | stay hop => simp [hop]

omit [SeedKdf S K] [KeyKdf K] [DecidableEq S] [DecidableEq K] [DecidableEq L] in
/-- A group change keeps the invariant of the owner's material. -/
theorem Owned.moved {group group' : OpenMlsGroup E L} {material : EpochMaterial S K} {token : S}
    (howned : Owned dir world group material) (hepoch : group'.epoch = group.epoch + 1)
    (hleaf : dir.ownerLeaf ∈ group'.state.members)
    (hdevice : next.devices dir.owner =
      { world.devices dir.owner with
        group := some group'
        material := some (movedMaterial dir group' token (world.devices dir.owner)) })
    (hgrants : ∀ env ∈ next.queue, ∀ grant, env.payload = .grant grant → grant.ForInvitee dir) :
    Owned dir next group' ((exporterMaterial dir group' token).inherit (some material)) := by
  have hmoved : material.epoch ≠ (exporterMaterial dir group' token).epoch := by
    rw [howned.epoch]
    change group.epoch ≠ group'.epoch
    omega
  have hlt : material.epoch < (exporterMaterial dir group' token).epoch := by
    rw [howned.epoch]
    change group.epoch < group'.epoch
    omega
  refine ⟨by rw [hdevice], ?_, by simp [exporterMaterial], by simp [exporterMaterial],
    by simp [exporterMaterial], by simp [exporterMaterial], hleaf, ?_, ?_, hgrants⟩
  · rw [hdevice, movedMaterial, howned.material_eq]
  · -- what is inherited is of the epoch that was left, or of one before it
    intro e he
    rw [EpochMaterial.inherit_epoch]
    rw [EpochMaterial.inherit, if_neg hmoved] at he
    rcases ExtTreeMap.mem_insert.mp he with heq | hmem
    · rw [← compare_eq_iff_eq.mp heq]
      exact hlt
    · exact (howned.prior_lt e hmem).trans hlt
  · intro e he
    rw [EpochMaterial.inherit_epoch]
    rw [EpochMaterial.inherit, if_neg hmoved] at he
    rcases ExtTreeMap.mem_insert.mp he with heq | hmem
    · rw [← compare_eq_iff_eq.mp heq]
      exact hlt
    · exact (howned.priorMac_lt e hmem).trans hlt

omit [SeedKdf S K] [KeyKdf K] [DecidableEq S] [DecidableEq K] [DecidableEq L] in
/-- An operation that leaves the owner's group and material alone keeps the
invariant when the new messages on the queue do. -/
theorem Owned.stayed {group : OpenMlsGroup E L} {material : EpochMaterial S K}
    (howned : Owned dir world group material)
    (hgroup : (next.devices dir.owner).group = (world.devices dir.owner).group)
    (hmaterial : (next.devices dir.owner).material = (world.devices dir.owner).material)
    (hgrants : ∀ env ∈ next.queue, ∀ grant, env.payload = .grant grant → grant.ForInvitee dir) :
    Owned dir next group material :=
  { howned with
    group_eq := hgroup.trans howned.group_eq
    material_eq := hmaterial.trans howned.material_eq
    grants := hgrants }

omit [DecidableEq L] in
theorem keyPackage_ne_ownerLeaf {keyPackage : L} {group : OpenMlsGroup E L}
    (hleaf : dir.ownerLeaf ∈ group.state.members)
    (hpackage : dir.keyPackage user = some keyPackage) (hnew : keyPackage ∉ group.state.members) :
    user ≠ dir.owner ∧ dir.published user = some keyPackage := by
  rw [Directory.keyPackage] at hpackage
  split_ifs at hpackage with howner
  · obtain rfl := Option.some.inj hpackage
    exact absurd hleaf hnew
  · exact ⟨howner, hpackage⟩

omit [MlsExporter E S K] [SeedKdf S K] [KeyKdf K] [DecidableEq S] [DecidableEq K] [DecidableEq L] in
theorem grant?_eq_some_iff {payload : Payload E S K L} {grant : WelcomeGrant E S K L} :
    payload.grant? = some grant ↔ payload = .grant grant := by
  cases payload <;> simp [Payload.grant?]

omit [MlsExporter E S K] [SeedKdf S K] [KeyKdf K] [DecidableEq S] [DecidableEq K] [DecidableEq L] in
theorem lastGrant_concat {messages : List (MlsDeliveryEnvelope E S K L)}
    {env : MlsDeliveryEnvelope E S K L} :
    lastGrant (messages ++ [env]) = env.payload.grant?.or (lastGrant messages) := by
  rw [lastGrant, List.filterMap_append]
  cases hsent : env.payload.grant? with
  | none =>
    have hnothing : [env].filterMap (fun env => env.payload.grant?) = [] :=
      List.filterMap_cons_none hsent
    rw [hnothing, List.append_nil, Option.none_or, lastGrant]
  | some sent =>
    have hlast : [env].filterMap (fun env => env.payload.grant?) = [sent] :=
      List.filterMap_cons_some hsent
    rw [hlast, List.getLast?_concat, Option.some_or]

omit [MlsExporter E S K] [SeedKdf S K] [KeyKdf K] [DecidableEq S] [DecidableEq K] [DecidableEq L] in
/-- The last grant of a page has no other grant after it. -/
theorem lastGrant_eq_some_iff {messages : List (MlsDeliveryEnvelope E S K L)}
    {grant : WelcomeGrant E S K L} :
    lastGrant messages = some grant ↔ ∃ older env later, messages = older ++ env :: later ∧
      env.payload = .grant grant ∧ ∀ e ∈ later, e.payload.grant? = none := by
  induction messages using List.reverseRecOn with
  | nil =>
    constructor
    · intro hlast
      cases hlast
    · intro ⟨older, env, later, hnil, _⟩
      simp at hnil
  | append_singleton messages last ih =>
    rw [lastGrant_concat, Option.or_eq_some_iff, grant?_eq_some_iff, ih]
    constructor
    · rintro (hgrant | ⟨hnone, older, env, later, rfl, hpayload, hlater⟩)
      · exact ⟨messages, last, [], rfl, hgrant, fun e he => absurd he List.not_mem_nil⟩
      · refine ⟨older, env, later ++ [last], by simp, hpayload, ?_⟩
        intro e he
        rcases List.mem_append.mp he with hold | hnew
        · exact hlater e hold
        · rwa [List.mem_singleton.mp hnew]
    · intro ⟨older, env, later, hmessages, hpayload, hlater⟩
      rcases List.eq_nil_or_concat later with rfl | ⟨later, last', rfl⟩
      · have hlast := (List.append_inj' hmessages rfl).2
        exact .inl (by rw [List.singleton_inj.mp hlast, hpayload])
      · rw [List.concat_eq_append] at hmessages hlater
        rw [← List.cons_append, ← List.append_assoc] at hmessages
        obtain ⟨hfront, hlast⟩ := List.append_inj' hmessages rfl
        obtain rfl := List.singleton_inj.mp hlast
        refine .inr ⟨hlater last (by simp), older, env, later, hfront, hpayload, ?_⟩
        intro e he
        exact hlater e (List.mem_append_left _ he)

omit [MlsExporter E S K] [SeedKdf S K] [KeyKdf K] [DecidableEq S] [DecidableEq K] [DecidableEq L] in
/-- The grant that accepting picks is on the queue. -/
theorem mem_queue_of_lastGrant {after : ℕ} {grant : WelcomeGrant E S K L}
    (hgrant : lastGrant (world.mlsFetch after) = some grant) :
    ∃ env ∈ world.queue, env.payload = .grant grant := by
  obtain ⟨older, env, later, hpage, hpayload, -⟩ := lastGrant_eq_some_iff.mp hgrant
  have henv : env ∈ world.mlsFetch after := by
    rw [hpage]
    exact List.mem_append_right _ List.mem_cons_self
  exact ⟨env, (List.mem_filter.mp (List.mem_of_mem_take henv)).1, hpayload⟩

omit [SeedKdf S K] [KeyKdf K] [DecidableEq S] [DecidableEq K] [DecidableEq L] in
/-- The owner's own identity never opens a Welcome on the queue. -/
theorem Owned.accept_ne_owner {group joined : OpenMlsGroup E L} {material : EpochMaterial S K}
    {grant : WelcomeGrant E S K L} {identity : L} (howned : Owned dir world group material)
    (hgrant : lastGrant (world.mlsFetch 0) = some grant)
    (hidentity : dir.published user = some identity)
    (hwelcome : grant.welcome = .welcome identity joined.state) : user ≠ dir.owner := by
  obtain ⟨env, hqueue, hgrantEq⟩ := mem_queue_of_lastGrant hgrant
  obtain ⟨invitee, leaf, state, hne, hpublished, hfor⟩ := howned.grants env hqueue grant hgrantEq
  obtain ⟨rfl, -⟩ := MlsMessage.welcome.inj (hfor.symm.trans hwelcome)
  rwa [dir.published_inj user invitee leaf hidentity hpublished]

omit [DecidableEq L] in
/-- Every effect keeps the invariant and is one of the owner's steps. -/
theorem Owned.effect {group : OpenMlsGroup E L} {material : EpochMaterial S K}
    (howned : Owned dir world group material) (heffect : Effect dir draws world op next) :
    ∃ group' material', Owned dir next group' material' ∧
      OwnerStep dir draws group material op group' material' := by
  cases heffect with
  | invite hgroup hpackage hnew hinterval =>
    obtain rfl := Option.some.inj (howned.group_eq.symm.trans hgroup)
    refine ⟨_, _, howned.moved rfl ?_ (afterInvite_devices.trans (if_pos rfl)) ?_,
      .invite rfl hpackage hnew hinterval⟩
    · exact List.mem_append_left _ howned.ownerLeaf
    · intro env henv grant hgrant
      rcases List.mem_append.mp henv with hold | hlast
      · exact howned.grants env hold grant hgrant
      · obtain rfl := List.mem_singleton.mp hlast
        obtain rfl := Payload.grant.inj hgrant
        -- the new grant is for a leaf that is not in the group yet, so not the owner's
        obtain ⟨hne, hpublished⟩ := keyPackage_ne_ownerLeaf howned.ownerLeaf hpackage hnew
        exact ⟨_, _, _, hne, hpublished, rfl⟩
  | @inviteCut _ _ _ _ _ keyPackage _ hgroup hpackage hnew hinterval =>
    obtain rfl := Option.some.inj (howned.group_eq.symm.trans hgroup)
    refine ⟨addedGroup group keyPackage draws.epochSecret, _, howned.moved rfl
      (List.mem_append_left _ howned.ownerLeaf) (afterInviteCut_devices.trans (if_pos rfl)) ?_,
      .invite rfl hpackage hnew hinterval⟩
    rw [afterInviteCut_queue]
    exact howned.grants
  | accept hmember hgrant hidentity hwelcome hleaf =>
    have hne := howned.accept_ne_owner hgrant hidentity hwelcome
    refine ⟨group, material, howned.stayed ?_ ?_ howned.grants, .stay rfl⟩
    · rw [afterAccept_devices, if_neg hne.symm]
    · rw [afterAccept_devices, if_neg hne.symm]
  | rotate hgroup =>
    obtain rfl := Option.some.inj (howned.group_eq.symm.trans hgroup)
    exact ⟨(group.rotate draws.epochSecret).1, _, howned.moved rfl howned.ownerLeaf
      (afterRotate_devices.trans (if_pos rfl)) howned.grants, .rotate (.inl rfl)⟩
  | removeMember hgroup =>
    obtain rfl := Option.some.inj (howned.group_eq.symm.trans hgroup)
    exact ⟨(group.rotate draws.epochSecret).1, _, howned.moved rfl howned.ownerLeaf
      (afterRotate_devices.trans (if_pos rfl)) howned.grants, .rotate (.inr ⟨_, rfl⟩)⟩
  | inviteCollab =>
    exact ⟨group, material, howned.stayed (by rw [inviteCollaborator_devices])
      (by rw [inviteCollaborator_devices]) (by rw [inviteCollaborator_queue]; exact howned.grants),
      .stay rfl⟩
  | removeCollab => exact ⟨group, material, howned.stayed rfl rfl howned.grants, .stay rfl⟩
  | collab hmaterial =>
    refine ⟨group, material, howned.stayed rfl rfl ?_, .stay rfl⟩
    intro env henv grant hgrant
    rcases List.mem_append.mp henv with hold | hlast
    · exact howned.grants env hold grant hgrant
    · obtain rfl := List.mem_singleton.mp hlast
      cases hgrant
  | sync hmember hmaterial =>
    exact ⟨group, material, howned.stayed afterSync_group afterSync_material howned.grants,
      .stay rfl⟩
  | push hmaterial hkey => exact ⟨group, material, howned.stayed rfl rfl howned.grants, .stay rfl⟩

omit [SeedKdf S K] [KeyKdf K] [DecidableEq S] [DecidableEq K] [DecidableEq L] in
/-- The invariant holds once the repository is bootstrapped. -/
theorem owned_bootstrap (admin : MlDsa87KeyPair) :
    Owned dir (bootstrapRepoGroup dir admin draws)
      (createGroup dir.ownerLeaf draws.epochSecret)
      (exporterMaterial dir (createGroup dir.ownerLeaf draws.epochSecret)
        ((createGroup dir.ownerLeaf draws.epochSecret).exportEpochKeys dir.repo).transport) where
  group_eq := by simp [bootstrapRepoGroup]
  material_eq := by simp [bootstrapRepoGroup]
  epoch := rfl
  transport := rfl
  refsMac := rfl
  historyFrom := rfl
  ownerLeaf := List.mem_singleton_self _
  prior_lt := fun e he => absurd he ExtTreeMap.not_mem_empty
  priorMac_lt := fun e he => absurd he ExtTreeMap.not_mem_empty
  grants := fun _ henv => nomatch henv

theorem Owned.step {tape : ℕ → OpDraws E S K} {group : OpenMlsGroup E L}
    {material : EpochMaterial S K} (howned : Owned dir world group material)
    (hstep : step dir tape world op = some next) :
    ∃ group' material', Owned dir next group' material' ∧
      OwnerStep dir (tape world.clock) group material op group' material' := by
  obtain ⟨after, heffect, rfl⟩ := effect_of_step hstep
  obtain ⟨group', material', hafter, hmove⟩ := howned.effect heffect
  exact ⟨group', material', { hafter with }, hmove⟩

/-- After a run the owner's epoch counts the moves, and the clock counts the operations. -/
theorem owned_of_runOps {tape : ℕ → OpDraws E S K} {admin : MlDsa87KeyPair} {ops : List Op}
    (hrun : runOps dir admin tape ops = some next) :
    ∃ group material, Owned dir next group material ∧
      group.epoch = ops.countP Op.movesEpoch ∧ next.clock = ops.length + 1 := by
  refine Run.run_induction
    (P := fun labels w => ∃ group material, Owned dir w group material ∧
      group.epoch = labels.countP Op.movesEpoch ∧ w.clock = labels.length + 1)
    ⟨_, _, owned_bootstrap admin, rfl, rfl⟩ ?_ hrun
  intro labels w op w' _ hw hstep
  obtain ⟨group, material, howned, hepoch, hclock⟩ := hw
  obtain ⟨group', material', howned', hmove⟩ := howned.step hstep
  obtain ⟨after, -, rfl⟩ := effect_of_step hstep
  refine ⟨group', material', howned', ?_, ?_⟩
  · rw [← howned'.epoch, hmove.epoch howned.epoch, howned.epoch, hepoch, List.countP_append,
      List.countP_singleton]
  · change w.clock + 1 = _
    rw [hclock, List.length_append, List.length_singleton]

end SafeHub
