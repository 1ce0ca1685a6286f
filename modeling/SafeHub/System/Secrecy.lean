import SafeHub.System.Symbolic

/-!
# Which secrets a run reveals

One invariant for all secrecy results. The fresh names are split into hidden and
open ones and the epochs into those inside and outside a window, so that the
seeds of the owner's device are hidden exactly for the epochs of the window. Then
nothing that another device holds or that the host stores depends on a hidden
name, as long as every queued grant stays outside the window.

## Main definitions

* `Split` — the invariant
* `StepSplit` — what an operation has to respect
* `knowledge`, `RunEpochKey` — what a user may know after a run, and the keys at stake

## Main results

* `split_along_run` — the invariant holds when every operation respects the split
* `Split.epochKey_not_open` — then the epoch keys of the window are hidden
-/

namespace SafeHub

open DolevYao OpenMlsGroup
open Std (ExtTreeMap)

variable {hidden : Set Fresh} {window : Set ℕ}
variable {dir : Directory Bytes} {admin : MlDsa87KeyPair} {world next : SymWorld}
variable {ops : List Op} {op : Op} {user : UserId}

/-! ### The invariant -/

/-- The seeds of a material are hidden inside the window and open outside of it. -/
structure MaterialSplit (hidden : Set Fresh) (window : Set ℕ) (material : SymMaterial) : Prop where
  seed_hidden : ∀ e ∈ window, ∀ seed, material.seedAt e = .ok seed → ¬ seed.Open hidden
  transport_hidden : material.epoch ∈ window → ¬ material.transport.Open hidden
  transport_open : material.epoch ∉ window → material.transport.Open hidden
  refsMac_open : material.epoch ∉ window → material.refsMac.Open hidden
  prior_open : ∀ e ∉ window, ∀ t : Msg,
    material.priorTransport[e]? = some (some t) → t.Open hidden
  priorMac_open : ∀ e ∉ window, ∀ t : Msg, material.priorRefsMac[e]? = some t → t.Open hidden

/-- A grant gives no seed of an epoch inside the window. -/
structure GrantOutside (window : Set ℕ) (grant : SymGrant) : Prop where
  welcome : ∀ leaf group, grant.welcome = .welcome leaf group → group.epoch ∉ window
  prior : ∀ e ∈ window, e ∉ grant.priorTransport

/-- Only the owner's device has seeds of the window, and nothing that anybody else
holds depends on a hidden name. -/
structure Split (hidden : Set Fresh) (window : Set ℕ) (dir : Directory Bytes)
    (world : SymWorld) : Prop where
  owner : ∀ material, (world.devices dir.owner).material = some material →
    MaterialSplit hidden window material
  outside : ∀ user, user ≠ dir.owner → ∀ material,
    (world.devices user).material = some material →
      ∀ e ∈ window, ∀ seed, material.seedAt e ≠ .ok seed
  deviceOpen : ∀ user, user ≠ dir.owner → ∀ t ∈ world.deviceView dir user, t.Open hidden
  grantOpen : ∀ env ∈ world.queue, ∀ grant, env.payload = .grant grant → GrantOpen hidden grant
  grantOutside : ∀ env ∈ world.queue, ∀ grant, env.payload = .grant grant →
    GrantOutside window grant
  headOpen : ∀ head ∈ world.heads, head.dekWrap.plaintext.Open hidden

/-- What the operation at index `i` has to respect when the epoch after it would
be `epoch`: its draws are hidden when that epoch is in the window, and a grant is
queued only for seeds outside of it. -/
structure StepSplit (hidden : Set Fresh) (window : Set ℕ) (i epoch : ℕ) (op : Op) : Prop where
  hide : op.movesEpoch = true → epoch ∈ window →
    .epoch i ∈ hidden ∧ .block i ∈ hidden ∧ .seeded i ∈ hidden ∧ .reinit i ∈ hidden
  reveal : op.movesEpoch = true → epoch ∉ window → .epoch i ∉ hidden
  queued : op.queuesGrant = true → epoch ∉ window
  forward : ∀ user graft, op = .invite user true graft → .block i ∉ hidden
  full : ∀ user graft, op = .invite user false graft →
    .seeded i ∉ hidden ∧ .reinit i ∉ hidden ∧ ∀ e < epoch, e ∉ window

/-- Leaf keys and data-encryption keys are not what is to be hidden. -/
structure NoPublic (hidden : Set Fresh) : Prop where
  leaf : ∀ vk, .leaf vk ∉ hidden
  dek : ∀ i, .dek i ∉ hidden

/-! ### One step -/

theorem open_exportTransport {secret : Msg} {repo : RepoId} :
    (MlsExporter.exportTransport secret repo : Msg).Open hidden ↔ secret.Open hidden := Iff.rfl

theorem open_exportRefs {secret : Msg} {repo : RepoId} :
    (MlsExporter.exportRefs secret repo : Msg).Open hidden ↔ secret.Open hidden := Iff.rfl

/-- The seeds of an inherited material: the new token, the transport seed just
superseded, or a seed from before. -/
theorem seedAt_inherit {material new : SymMaterial} {e : ℕ} {seed token : Msg}
    (hepoch : material.epoch < new.epoch) (hprior : ∀ e, e ∈ material.priorTransport →
      e < material.epoch) (htoken : new.dkrToken = some token)
    (h : (new.inherit (some material)).seedAt e = .ok seed) :
    e = new.epoch ∧ seed = token ∨ e = material.epoch ∧ seed = material.transport ∨
      e < material.epoch ∧ material.seedAt e = .ok seed := by
  by_cases hnew : e = new.epoch
  · refine .inl ⟨hnew, ?_⟩
    have hself : (new.inherit (some material)).seedAt e = .ok token := by
      rw [hnew, ← EpochMaterial.inherit_epoch, EpochMaterial.seedAt_self,
        EpochMaterial.intervalSeed, EpochMaterial.inherit_dkrToken, htoken]
      rfl
    exact (Except.ok.inj (hself.symm.trans h)).symm
  · rw [← @EpochMaterial.inherit_epoch _ _ new (some material)] at hnew
    rw [EpochMaterial.seedAt_of_ne hnew,
      EpochMaterial.inherit_priorTransport_getElem? hepoch.ne] at h
    split_ifs at h with heq
    · exact .inr (.inl ⟨heq.symm, (Option.some.inj (Option.some.inj h)).symm⟩)
    · have hlt : e < material.epoch :=
        hprior e (ExtTreeMap.mem_iff_isSome_getElem?.mpr (by simp [h]))
      exact .inr (.inr ⟨hlt, (EpochMaterial.seedAt_of_ne hlt.ne).mpr h⟩)

/-- A move of the owner's group keeps the split of its material. -/
theorem MaterialSplit.moved {group group' : SymGroup} {material : SymMaterial} {token : Msg}
    {i : ℕ} (howned : Owned dir world group material)
    (hsplit : MaterialSplit hidden window material) (hepoch : group'.epoch = group.epoch + 1)
    (hsecret : group'.state.secret = (freshTape i).epochSecret)
    (hhide : group'.epoch ∈ window → .epoch i ∈ hidden ∧ ¬ token.Open hidden)
    (hreveal : group'.epoch ∉ window → .epoch i ∉ hidden) :
    MaterialSplit hidden window ((exporterMaterial dir group' token).inherit (some material)) := by
  have hlt : material.epoch < (exporterMaterial dir group' token : SymMaterial).epoch := by
    rw [howned.epoch]
    change group.epoch < group'.epoch
    omega
  have hopen : (exporterMaterial dir group' token : SymMaterial).transport.Open hidden ↔
      .epoch i ∉ hidden := by
    change (MlsExporter.exportTransport group'.state.secret dir.repo : Msg).Open hidden ↔ _
    rw [hsecret]
    exact open_exportTransport.trans open_name
  have hmac : (exporterMaterial dir group' token : SymMaterial).refsMac.Open hidden ↔
      .epoch i ∉ hidden := by
    change (MlsExporter.exportRefs group'.state.secret dir.repo : Msg).Open hidden ↔ _
    rw [hsecret]
    exact open_exportRefs.trans open_name
  refine ⟨fun e he seed hseed => ?_, ?_, ?_, ?_, fun e he t ht => ?_, fun e he t ht => ?_⟩
  · -- a seed is the new token, the transport seed of the last epoch, or one from before
    rcases seedAt_inherit hlt howned.prior_lt rfl hseed with
      ⟨rfl, rfl⟩ | ⟨rfl, rfl⟩ | ⟨-, hbefore⟩
    · exact (hhide he).2
    · exact hsplit.transport_hidden he
    · exact hsplit.seed_hidden e he seed hbefore
  · rw [EpochMaterial.inherit_epoch, EpochMaterial.inherit_transport, hopen, not_not]
    exact fun he => (hhide he).1
  · rw [EpochMaterial.inherit_epoch, EpochMaterial.inherit_transport, hopen]
    exact hreveal
  · rw [EpochMaterial.inherit_epoch, EpochMaterial.inherit_refsMac, hmac]
    exact hreveal
  · -- a prior key is that of the epoch just left, or one that was prior before
    rw [EpochMaterial.inherit_priorTransport_getElem? hlt.ne] at ht
    split_ifs at ht with heq
    · obtain rfl := Option.some.inj (Option.some.inj ht)
      exact hsplit.transport_open (heq ▸ he)
    · exact hsplit.prior_open e he t ht
  · rw [EpochMaterial.inherit_priorRefsMac_getElem? hlt.ne] at ht
    split_ifs at ht with heq
    · obtain rfl := Option.some.inj ht
      exact hsplit.refsMac_open (heq ▸ he)
    · exact hsplit.priorMac_open e he t ht

/-- The token of an invite into the window is hidden. -/
theorem token_not_open {i epoch : ℕ} {secret : Msg} {forwardOnly : Bool}
    {interval : DkrInterval Msg}
    (hinterval : joinInterval (freshTape i) (MlsExporter.exportTransport secret dir.repo) epoch
      forwardOnly = .ok interval)
    (hsecret : ¬ secret.Open hidden) (hblock : .block i ∈ hidden) (hseeded : .seeded i ∈ hidden)
    (hreinit : .reinit i ∈ hidden) : ¬ interval.token.Open hidden := by
  have htoken := joinInterval_token exportTransport_ne_zeroSeed hinterval
  cases forwardOnly with
  | true =>
    rw [if_pos rfl] at htoken
    rw [htoken]
    exact fun hopen => hopen hblock
  | false =>
    rw [if_neg Bool.false_ne_true] at htoken
    rcases htoken with htransport | hdrawn | hdrawn
    · rw [htransport]
      exact hsecret
    · rw [hdrawn]
      exact fun hopen => hopen hseeded
    · rw [hdrawn]
      exact fun hopen => hopen hreinit

/-- The token of an invite is never the zero seed. -/
theorem token_ne_zeroSeed {i epoch : ℕ} {secret : Msg} {forwardOnly : Bool}
    {interval : DkrInterval Msg}
    (hinterval : joinInterval (freshTape i) (MlsExporter.exportTransport secret dir.repo) epoch
      forwardOnly = .ok interval) : interval.token ≠ SeedKdf.zeroSeed := by
  have htoken := joinInterval_token exportTransport_ne_zeroSeed hinterval
  cases forwardOnly with
  | true =>
    rw [if_pos rfl] at htoken
    rw [htoken]
    exact nofun
  | false =>
    rw [if_neg Bool.false_ne_true] at htoken
    rcases htoken with htransport | hdrawn | hdrawn
    · rw [htransport]
      exact exportTransport_ne_zeroSeed
    · rw [hdrawn]
      exact nofun
    · rw [hdrawn]
      exact nofun

/-- A grant that respects the split is open and outside the window. -/
theorem split_welcomeGrant {group : SymGroup} {material : SymMaterial}
    {interval : DkrInterval Msg} {forwardOnly : Bool} {graft : Option Bytes} {i : ℕ}
    (keyPackage : Bytes) (blob : Option ℕ) (vk : Option Bytes)
    (hstep : StepSplit hidden window i (group.epoch + 1) (.invite user forwardOnly graft))
    (hsplit : MaterialSplit hidden window material) (hepoch : material.epoch = group.epoch + 1)
    (hprior : ∀ e, e ∈ material.priorTransport → e < material.epoch)
    (hmac : ∀ e, e ∈ material.priorRefsMac → e < material.epoch)
    (hinterval : joinInterval (freshTape i)
      (MlsExporter.exportTransport (freshTape i).epochSecret dir.repo) (group.epoch + 1)
      forwardOnly = .ok interval) :
    GrantOpen hidden (welcomeGrant (addedInvitation group keyPackage (freshTape i).epochSecret)
      material interval.token forwardOnly blob vk) ∧
    GrantOutside window (welcomeGrant (addedInvitation group keyPackage (freshTape i).epochSecret)
      material interval.token forwardOnly blob vk) := by
  have houtside : group.epoch + 1 ∉ window := hstep.queued rfl
  have hsecret : (freshTape i).epochSecret.Open hidden := hstep.reveal rfl houtside
  have htoken := joinInterval_token exportTransport_ne_zeroSeed hinterval
  have hwelcome : ∀ leaf state,
      (addedInvitation group keyPackage (freshTape i).epochSecret).welcome = .welcome leaf state →
        state = group.stateAfterAdd keyPackage (freshTape i).epochSecret := by
    intro leaf state hcase
    exact (MlsMessage.welcome.inj hcase).2.symm
  have hcommit : ∀ previous state,
      (addedInvitation group keyPackage (freshTape i).epochSecret).commit =
        .commit previous state → state.secret = (freshTape i).epochSecret := by
    intro previous state hcase
    rw [← (MlsMessage.commit.inj hcase).2]
    rfl
  cases forwardOnly with
  | true =>
    -- a forward-only grant carries no retained seeds at all
    rw [if_pos rfl] at htoken
    refine ⟨⟨fun t ht => ?_, fun leaf state hcase => ?_, nofun, fun previous state hcase => ?_,
      nofun, fun e t ht => ?_, fun e t ht => ?_⟩, ⟨fun leaf state hcase => ?_, fun e _ he => ?_⟩⟩
    · obtain rfl := Option.some.inj ht
      rw [htoken]
      exact hstep.forward user graft rfl
    · rw [hwelcome leaf state hcase]
      exact hsecret
    · rw [hcommit previous state hcase]
      exact hsecret
    · simp [welcomeGrant] at ht
    · simp [welcomeGrant] at ht
    · rw [hwelcome leaf state hcase]
      exact houtside
    · exact ExtTreeMap.not_mem_empty he
  | false =>
    rw [if_neg Bool.false_ne_true] at htoken
    obtain ⟨hseeded, hreinit, hbelow⟩ := hstep.full user graft rfl
    refine ⟨⟨fun t ht => ?_, fun leaf state hcase => ?_, nofun, fun previous state hcase => ?_,
      nofun, fun e t ht => ?_, fun e t ht => ?_⟩, ⟨fun leaf state hcase => ?_, fun e he hmem => ?_⟩⟩
    · obtain rfl := Option.some.inj ht
      rcases htoken with htransport | hdrawn | hdrawn
      · rw [htransport]
        exact hsecret
      · rw [hdrawn]
        exact hseeded
      · rw [hdrawn]
        exact hreinit
    · rw [hwelcome leaf state hcase]
      exact hsecret
    · rw [hcommit previous state hcase]
      exact hsecret
    · have hlt := hprior e (ExtTreeMap.mem_iff_isSome_getElem?.mpr (Option.isSome_of_eq_some ht))
      exact hsplit.prior_open e (hbelow e (hepoch ▸ hlt)) t ht
    · have hlt := hmac e (ExtTreeMap.mem_iff_isSome_getElem?.mpr (Option.isSome_of_eq_some ht))
      exact hsplit.priorMac_open e (hbelow e (hepoch ▸ hlt)) t ht
    · rw [hwelcome leaf state hcase]
      exact houtside
    · exact hbelow e (hepoch ▸ hprior e hmem) he

theorem deviceView_congr (h : next.devices user = world.devices user) :
    next.deviceView dir user = world.deviceView dir user := by
  rw [World.deviceView, World.deviceView, h]

/-- A change of the owner's device keeps the invariant. -/
theorem Split.ownerMoved (hsplit : Split hidden window dir world)
    (howner : ∀ material, (next.devices dir.owner).material = some material →
      MaterialSplit hidden window material)
    (hothers : ∀ v, v ≠ dir.owner → next.devices v = world.devices v)
    (hgrantOpen : ∀ env ∈ next.queue, ∀ grant, env.payload = .grant grant → GrantOpen hidden grant)
    (hgrantOutside : ∀ env ∈ next.queue, ∀ grant, env.payload = .grant grant →
      GrantOutside window grant)
    (hheads : next.heads = world.heads) : Split hidden window dir next where
  owner := howner
  outside := by
    intro v hv material hmaterial
    rw [hothers v hv] at hmaterial
    exact hsplit.outside v hv material hmaterial
  deviceOpen := by
    intro v hv
    rw [deviceView_congr (hothers v hv)]
    exact hsplit.deviceOpen v hv
  grantOpen := hgrantOpen
  grantOutside := hgrantOutside
  headOpen := by
    rw [hheads]
    exact hsplit.headOpen

/-- Nothing that a joiner makes of an open grant depends on a hidden name. -/
theorem open_joinerMaterial {group : SymGroup} {grant : SymGrant}
    (hopen : GrantOpen hidden grant) (hsecret : group.state.secret.Open hidden) :
    ∀ t ∈ (joinerMaterial dir group grant : SymMaterial).msgs, t.Open hidden := by
  rintro t ((((rfl | rfl) | htoken) | ⟨e, he⟩) | ⟨e, he⟩)
  · exact open_exportTransport.mpr hsecret
  · exact open_exportRefs.mpr hsecret
  · obtain rfl := Option.some.inj htoken
    cases hcase : grant.dkrToken with
    | none => exact open_exportTransport.mpr hsecret
    | some token => exact hopen.dkrToken token hcase
  · exact hopen.priorTransport e t he
  · exact hopen.priorRefsMac e t he

/-- A joiner has no seed of the window when its grant is outside of it. -/
theorem joinerMaterial_outside {group : SymGroup} {grant : SymGrant} {identity : Bytes}
    (houtside : GrantOutside window grant)
    (hwelcome : grant.welcome = .welcome identity group.state) {e : ℕ} (he : e ∈ window)
    (seed : Msg) : (joinerMaterial dir group grant : SymMaterial).seedAt e ≠ .ok seed := by
  intro hseed
  have hne : e ≠ (joinerMaterial dir group grant : SymMaterial).epoch := by
    rintro rfl
    exact houtside.welcome identity group.state hwelcome he
  have hprior := (EpochMaterial.seedAt_of_ne hne).mp hseed
  exact houtside.prior e he
    (ExtTreeMap.mem_iff_isSome_getElem?.mpr (Option.isSome_of_eq_some hprior))

/-- The material of the owner's device after a move that respects the split. -/
theorem MaterialSplit.of_step {group group' : SymGroup} {material : SymMaterial} {token : Msg}
    {i : ℕ} (howned : Owned dir world group material)
    (hsplit : MaterialSplit hidden window material)
    (hstep : StepSplit hidden window i (group.epoch + 1) op) (hmoves : op.movesEpoch = true)
    (hepoch : group'.epoch = group.epoch + 1)
    (hsecret : group'.state.secret = (freshTape i).epochSecret)
    (htoken : .epoch i ∈ hidden → .block i ∈ hidden → .seeded i ∈ hidden → .reinit i ∈ hidden →
      ¬ token.Open hidden) :
    MaterialSplit hidden window ((exporterMaterial dir group' token).inherit (some material)) := by
  refine hsplit.moved howned hepoch hsecret (fun he => ?_) (fun he => ?_)
  · rw [hepoch] at he
    obtain ⟨hsecret', hblock, hseeded, hreinit⟩ := hstep.hide hmoves he
    exact ⟨hsecret', htoken hsecret' hblock hseeded hreinit⟩
  · rw [hepoch] at he
    exact hstep.reveal hmoves he

/-- An operation that leaves the owner's device and the queued grants alone, and
gives nobody a new group or material, keeps the invariant. -/
theorem Split.stayed (hsplit : Split hidden window dir world)
    (hgroup : ∀ v, (next.devices v).group = (world.devices v).group)
    (hmaterial : ∀ v, (next.devices v).material = (world.devices v).material)
    (hgrants : ∀ env ∈ next.queue, ∀ grant, env.payload = .grant grant → env ∈ world.queue)
    (hheads : ∀ head ∈ next.heads, head ∈ world.heads ∨ head.dekWrap.plaintext.Open hidden) :
    Split hidden window dir next where
  owner := by
    intro material h
    rw [hmaterial] at h
    exact hsplit.owner material h
  outside := by
    intro v hv material h
    rw [hmaterial] at h
    exact hsplit.outside v hv material h
  deviceOpen := by
    intro v hv t ht
    rw [World.deviceView, hgroup, hmaterial] at ht
    exact hsplit.deviceOpen v hv t ht
  grantOpen := fun env henv grant h => hsplit.grantOpen env (hgrants env henv grant h) grant h
  grantOutside := fun env henv grant h =>
    hsplit.grantOutside env (hgrants env henv grant h) grant h
  headOpen := by
    intro head hhead
    rcases hheads head hhead with hold | hopen
    · exact hsplit.headOpen head hold
    · exact hopen

/-- A rotation that respects the split keeps the invariant. -/
theorem Split.rotated {group : SymGroup} {material : SymMaterial} {i : ℕ}
    (hsplit : Split hidden window dir world) (howned : Owned dir world group material)
    (hstep : StepSplit hidden window i (group.epoch + 1) op) (hmoves : op.movesEpoch = true) :
    Split hidden window dir (world.afterRotate dir (group.rotate (freshTape i).epochSecret).1) := by
  refine hsplit.ownerMoved ?_ (fun v hv => afterRotate_devices.trans (if_neg hv))
    hsplit.grantOpen hsplit.grantOutside rfl
  intro m hm
  rw [afterRotate_devices, if_pos rfl, movedMaterial, howned.material_eq] at hm
  obtain rfl := Option.some.inj hm
  exact (hsplit.owner material howned.material_eq).of_step howned hstep hmoves rfl rfl
    fun hsecret _ _ _ hopen => hopen hsecret

/-- An invite that respects the split keeps the invariant: the grant it queues is open, and
outside the window. -/
theorem Split.invited {group group' : SymGroup} {material material' : SymMaterial}
    {interval : DkrInterval Msg} {forwardOnly : Bool} {graft : Option Bytes} {keyPackage : Bytes}
    {i : ℕ} (hsplit : Split hidden window dir world) (howned : Owned dir world group material)
    (hstep : StepSplit hidden window i (group.epoch + 1) (.invite user forwardOnly graft))
    (hinterval : joinInterval (freshTape i)
      (MlsExporter.exportTransport (freshTape i).epochSecret dir.repo) (group.epoch + 1)
      forwardOnly = .ok interval)
    (hnext : next = world.afterInvite dir user (addedGroup group keyPackage
      (freshTape i).epochSecret) (addedInvitation group keyPackage (freshTape i).epochSecret)
      interval.token forwardOnly graft)
    (howned' : Owned dir next group' material') : Split hidden window dir next := by
  subst hnext
  have hmoved := howned'.material_eq
  rw [afterInvite_devices, if_pos rfl] at hmoved
  replace hmoved := Option.some.inj hmoved
  have hinherit : material' = (exporterMaterial dir
      (addedGroup group keyPackage (freshTape i).epochSecret) interval.token).inherit
        (some material) := by
    rw [← hmoved, movedMaterial, howned.material_eq]
  have hsplit' : MaterialSplit hidden window material' := by
    rw [hinherit]
    exact (hsplit.owner material howned.material_eq).of_step howned hstep rfl rfl rfl
      fun hsecret => token_not_open hinterval (fun hopen => hopen hsecret)
  have hepoch : material'.epoch = group.epoch + 1 := by
    rw [hinherit, EpochMaterial.inherit_epoch]
    rfl
  -- the blob of the graft and the owner's key are in the clear, whatever they are
  have hsent := fun blob vk => split_welcomeGrant keyPackage blob vk hstep hsplit' hepoch
    howned'.prior_lt howned'.priorMac_lt hinterval
  refine hsplit.ownerMoved ?_ (fun v hv => afterInvite_devices.trans (if_neg hv)) ?_ ?_ rfl
  · intro m hm
    obtain rfl := Option.some.inj (howned'.material_eq.symm.trans hm)
    exact hsplit'
  · intro env henv grant hgrant
    rcases grant_of_afterInvite henv hgrant with hold | ⟨blob, vk, rfl⟩
    · exact hsplit.grantOpen env hold grant hgrant
    · rw [hmoved]
      exact (hsent blob vk).1
  · intro env henv grant hgrant
    rcases grant_of_afterInvite henv hgrant with hold | ⟨blob, vk, rfl⟩
    · exact hsplit.grantOutside env hold grant hgrant
    · rw [hmoved]
      exact (hsent blob vk).2

/-- An accept keeps the invariant: the joiner's device holds nothing but what its grant and its
Welcome carry. -/
theorem Split.accepted {group joined : SymGroup} {material : SymMaterial} {grant : SymGrant}
    {identity : Bytes} (hpublic : NoPublic hidden) (hsplit : Split hidden window dir world)
    (howned : Owned dir world group material)
    (hgrant : lastGrant (world.mlsFetch 0) = some grant)
    (hidentity : dir.published user = some identity)
    (hwelcome : grant.welcome = .welcome identity joined.state) :
    Split hidden window dir (world.afterAccept dir user joined grant) := by
  have hne := howned.accept_ne_owner hgrant hidentity hwelcome
  obtain ⟨env, henv, hpayload⟩ := mem_queue_of_lastGrant hgrant
  have hopen := hsplit.grantOpen env henv grant hpayload
  have hsecret := hopen.welcome _ _ hwelcome
  -- only the new member's device has changed
  have hothers : ∀ v, v ≠ user →
      (world.afterAccept dir user joined grant).devices v = world.devices v :=
    fun v hv => afterAccept_devices.trans (if_neg hv)
  refine ⟨?_, ?_, ?_, hsplit.grantOpen, hsplit.grantOutside, hsplit.headOpen⟩
  · rw [hothers _ hne.symm]
    exact hsplit.owner
  · intro v hv m hm e he seed
    by_cases huser : v = user
    · rw [afterAccept_devices, if_pos huser] at hm
      obtain rfl := Option.some.inj hm
      exact joinerMaterial_outside (hsplit.grantOutside env henv grant hpayload) hwelcome he seed
    · rw [hothers v huser] at hm
      exact hsplit.outside v hv m hm e he seed
  · intro v hv t ht
    by_cases huser : v = user
    · -- the view of the new member is its material, its group and its public leaf
      rw [World.deviceView, afterAccept_devices, if_pos huser] at ht
      rcases ht with (⟨m, hm, ht⟩ | ⟨g, hg, rfl⟩) | ⟨leaf, -, rfl⟩
      · obtain rfl := Option.some.inj hm
        exact open_joinerMaterial hopen hsecret t ht
      · obtain rfl := Option.some.inj hg
        exact hsecret
      · exact hpublic.leaf leaf
    · rw [deviceView_congr (hothers v huser)] at ht
      exact hsplit.deviceOpen v hv t ht

/-- An operation that respects the split keeps the invariant. -/
theorem Split.effect {group : SymGroup} {material : SymMaterial} {i : ℕ}
    (hpublic : NoPublic hidden) (howned : Owned dir world group material)
    (hsplit : Split hidden window dir world)
    (hstep : StepSplit hidden window i (group.epoch + 1) op)
    (heffect : Effect dir (freshTape i) world op next) : Split hidden window dir next := by
  have hmove := howned.effect heffect
  cases heffect with
  | invite hgroup hpackage hnew hinterval =>
    obtain rfl := Option.some.inj (howned.group_eq.symm.trans hgroup)
    obtain ⟨group', material', howned', -⟩ := hmove
    exact hsplit.invited howned hstep hinterval rfl howned'
  | inviteCut hgroup hpackage hnew hinterval =>
    -- the owner has moved, and nothing has reached the queue
    obtain rfl := Option.some.inj (howned.group_eq.symm.trans hgroup)
    refine hsplit.ownerMoved ?_ (fun v hv => afterInviteCut_devices.trans (if_neg hv)) ?_ ?_ ?_
    · intro m hm
      rw [afterInviteCut_devices, if_pos rfl, movedMaterial, howned.material_eq] at hm
      obtain rfl := Option.some.inj hm
      exact (hsplit.owner material howned.material_eq).of_step howned hstep rfl rfl rfl
        fun hsecret => token_not_open hinterval (fun hopen => hopen hsecret)
    · rw [afterInviteCut_queue]
      exact hsplit.grantOpen
    · rw [afterInviteCut_queue]
      exact hsplit.grantOutside
    · exact afterInviteCut_heads
  | accept hmember hgrant hidentity hwelcome hleaf =>
    exact hsplit.accepted hpublic howned hgrant hidentity hwelcome
  | rotate hgroup =>
    obtain rfl := Option.some.inj (howned.group_eq.symm.trans hgroup)
    exact hsplit.rotated howned hstep rfl
  | @removeMember user _ hgroup =>
    obtain rfl := Option.some.inj (howned.group_eq.symm.trans hgroup)
    have hremoved : Split hidden window dir (world.removeCollaborator user) :=
      hsplit.stayed (fun _ => rfl) (fun _ => rfl) (fun _ henv _ _ => henv)
        (fun _ hhead => .inl hhead)
    exact hremoved.rotated (howned.stayed rfl rfl howned.grants) hstep rfl
  | inviteCollab =>
    refine hsplit.stayed (fun v => ?_) (fun v => ?_) (fun env henv grant _ => ?_)
      (fun head hhead => .inl ?_)
    · rw [inviteCollaborator_devices]
    · rw [inviteCollaborator_devices]
    · rwa [inviteCollaborator_queue] at henv
    · rwa [inviteCollaborator_heads] at hhead
  | removeCollab =>
    exact hsplit.stayed (fun _ => rfl) (fun _ => rfl) (fun _ henv _ _ => henv)
      (fun _ hhead => .inl hhead)
  | collab hmaterial =>
    refine hsplit.stayed (fun _ => rfl) (fun _ => rfl) (fun env henv grant hgrant => ?_)
      (fun _ hhead => .inl hhead)
    rcases List.mem_append.mp henv with hold | hlast
    · exact hold
    · obtain rfl := List.mem_singleton.mp hlast
      cases hgrant
  | sync hmember hmaterial =>
    exact hsplit.stayed (fun _ => afterSync_group) (fun _ => afterSync_material)
      (fun _ henv _ _ => henv) (fun _ hhead => .inl hhead)
  | push hmaterial hkey =>
    refine hsplit.stayed (fun _ => rfl) (fun _ => rfl) (fun _ henv _ _ => henv)
      (fun head hhead => ?_)
    rcases List.mem_append.mp hhead with hold | hlast
    · exact .inl hold
    · obtain rfl := List.mem_singleton.mp hlast
      exact .inr (hpublic.dek i)

/-! ### Runs -/

theorem split_bootstrap (hpublic : NoPublic hidden) (hzero : 0 ∈ window ↔ .epoch 0 ∈ hidden) :
    Split hidden window dir (bootstrapRepoGroup dir admin (freshTape 0)) where
  owner := by
    intro material hmaterial
    have hsecret : (Term.name (Fresh.epoch 0) : Msg).Open hidden ↔ 0 ∉ window := by
      rw [open_name, hzero]
    simp only [bootstrapRepoGroup, if_pos, Option.some.injEq] at hmaterial
    subst hmaterial
    refine ⟨fun e he seed hseed => ?_, fun he hopen => ?_, ?_, ?_, fun e _ t ht => ?_,
      fun e _ t ht => ?_⟩
    · by_cases hcurrent : e = 0
      · subst hcurrent
        obtain rfl := Except.ok.inj hseed
        exact fun hopen => hsecret.mp hopen he
      · have hprior := (EpochMaterial.seedAt_of_ne hcurrent).mp hseed
        simp [exporterMaterial] at hprior
    · exact hsecret.mp hopen he
    · exact hsecret.mpr
    · exact hsecret.mpr
    · simp [exporterMaterial] at ht
    · simp [exporterMaterial] at ht
  outside := by
    intro v hv material hmaterial
    simp [bootstrapRepoGroup, hv, Device.fresh] at hmaterial
  deviceOpen := by
    intro v hv t ht
    rcases ht with (⟨m, hm, -⟩ | ⟨g, hg, -⟩) | ⟨leaf, -, rfl⟩
    · simp [bootstrapRepoGroup, hv, Device.fresh] at hm
    · simp [bootstrapRepoGroup, hv, Device.fresh] at hg
    · exact hpublic.leaf leaf
  grantOpen := fun _ henv => nomatch henv
  grantOutside := fun _ henv => nomatch henv
  headOpen := fun _ hhead => nomatch hhead

/-- The invariant holds at every point of a run whose operations respect the split. -/
theorem split_along_run {before after : List Op} (hpublic : NoPublic hidden)
    (hzero : 0 ∈ window ↔ .epoch 0 ∈ hidden)
    (hsteps : ∀ pre op post, ops = pre ++ op :: post →
      StepSplit hidden window (pre.length + 1) (pre.countP Op.movesEpoch + 1) op)
    (hops : ops = before ++ after) (hrun : runOps dir admin freshTape before = some world) :
    Split hidden window dir world := by
  -- by induction on the prefixes of the run
  refine Run.run_induction
    (P := fun labels w => (∃ rest, ops = labels ++ rest) → Split hidden window dir w)
    (fun _ => split_bootstrap hpublic hzero) ?_ hrun ⟨after, hops⟩
  intro labels w op w' hlabels hw hstep hprefix
  obtain ⟨rest, hrest⟩ := hprefix
  rw [List.append_assoc] at hrest
  obtain ⟨group, material, howned, hepoch, hclock⟩ := owned_of_runOps hlabels
  obtain ⟨next, heffect, rfl⟩ := effect_of_step hstep
  have hrespects := hsteps labels op rest hrest
  rw [← hepoch, ← hclock] at hrespects
  have hnext := (hw ⟨op :: rest, hrest⟩).effect hpublic howned hrespects heffect
  exact { hnext with }

/-- Everything that is visible in some view at some point of a run. -/
def RunView (view : SymWorld → Set Msg) (dir : Directory Bytes) (admin : MlDsa87KeyPair)
    (ops : List Op) : Set Msg :=
  {t | ∃ before after world, ops = before ++ after ∧
    runOps dir admin freshTape before = some world ∧ t ∈ view world}

/-- A key that some device derives for an epoch at some point of a run. -/
def RunEpochKey (dir : Directory Bytes) (admin : MlDsa87KeyPair) (ops : List Op) (epoch : ℕ)
    (key : Msg) : Prop :=
  ∃ before after world, ops = before ++ after ∧
    runOps dir admin freshTape before = some world ∧ world.EpochKey epoch key

/-- What a user accumulates over a run: everything its device ever holds, and
everything the host ever stores. -/
def knowledge (dir : Directory Bytes) (admin : MlDsa87KeyPair) (ops : List Op) (user : UserId) :
    Set Msg :=
  RunView (fun world => world.deviceView dir user ∪ world.hostView) dir admin ops

theorem Split.open_hostView (hsplit : Split hidden window dir world) :
    ∀ t ∈ world.hostView, t.Open hidden :=
  SafeHub.open_hostView hsplit.grantOpen hsplit.headOpen

/-- A key of the window is hidden when the random bytes at this point are. -/
theorem Split.epochKey_not_open {epoch : ℕ} {key : Msg} (hsplit : Split hidden window dir world)
    (hepoch : epoch ∈ window) (hseeded : .seeded world.clock ∈ hidden)
    (hreinit : .reinit world.clock ∈ hidden) (hkey : world.EpochKey epoch key) :
    ¬ key.Open hidden := by
  obtain ⟨v, material, hmaterial, hkey⟩ := hkey
  have hseeded' : ¬ (freshTape world.clock).advance.seeded.Open hidden := fun hopen => hopen hseeded
  have hreinit' : ¬ (freshTape world.clock).advance.reinit.Open hidden := fun hopen => hopen hreinit
  refine epochKeyAt_not_open hseeded' hreinit' (fun seed hseed => ?_) hkey
  by_cases howner : v = dir.owner
  · subst howner
    exact (hsplit.owner material hmaterial).seed_hidden epoch hepoch seed hseed
  · exact absurd hseed (hsplit.outside v howner material hmaterial epoch hepoch seed)

end SafeHub
