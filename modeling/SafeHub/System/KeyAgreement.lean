import SafeHub.System.Retention

/-!
# Do the members agree with the owner?

A change of the group is published, if at all, as the commit inside the grant of
an invite, and no client operation applies a commit: a device gets its material
from the Welcome of its own invite and from nothing else. So a member agrees with
the owner exactly as long as its own invite is the last change of the epoch.

## Main definitions

* `KeyAgreement` — every current member catches up with the owner
* `InvitedLast` — the last change of the epoch was the user's invite

## Main results

* `Traced.run` — every grant and every joiner's material goes back to an invite
* `keyAgreement_iff` — exactly which runs keep the members in agreement
-/

namespace SafeHub

open OpenMlsGroup
open Std (ExtTreeMap)

variable {E S K L : Type} [MlsExporter E S K] [SeedKdf S K] [KeyKdf K]
variable [DecidableEq S] [DecidableEq K] [DecidableEq L]
variable {dir : Directory L} {admin : MlDsa87KeyPair} {tape : ℕ → OpDraws E S K}
variable {world next : World E S K L} {ops more : List Op} {op : Op} {user : UserId}

/-! ### The property and its condition -/

/-- Try an operation; one that fails leaves the state as it is. -/
def World.attempt (dir : Directory L) (tape : ℕ → OpDraws E S K) (world : World E S K L)
    (op : Op) : World E S K L :=
  (step dir tape world op).getD world

/-- The state once a user has run accept and sync over the queue. -/
def World.caughtUp (dir : Directory L) (tape : ℕ → OpDraws E S K) (world : World E S K L)
    (user : UserId) : World E S K L :=
  (world.attempt dir tape (.accept user)).attempt dir tape (.sync user)

/-- A member of the owner's group, other than the owner, whom the host lets in. -/
def World.CurrentMember (dir : Directory L) (world : World E S K L) (user : UserId) : Prop :=
  user ≠ dir.owner ∧ world.isMember dir user ∧
    ∃ group leaf, (world.devices dir.owner).group = some group ∧
      dir.published user = some leaf ∧ leaf ∈ group.memberSignatureKeys

/-- A user holds the owner's epoch, MAC key and epoch key. -/
def World.Agrees (dir : Directory L) (world : World E S K L) (user : UserId) : Prop :=
  ∃ own material, (world.devices dir.owner).material = some own ∧
    (world.devices user).material = some material ∧
    material.epoch = own.epoch ∧ material.refsMac = own.refsMac ∧
    ∃ key, ∀ draws, own.epochKeyAt draws own.epoch = .ok key ∧
      material.epochKeyAt draws own.epoch = .ok key

/-- At every point of the run, every current member that catches up agrees with
the owner. -/
def KeyAgreement (dir : Directory L) (admin : MlDsa87KeyPair) (tape : ℕ → OpDraws E S K)
    (ops : List Op) : Prop :=
  ∀ before after (world : World E S K L) user, ops = before ++ after →
    runOps dir admin tape before = some world → world.CurrentMember dir user →
      (world.caughtUp dir tape user).Agrees dir user

/-- The run has an invite of the user with `post` after it, and its grant is at this
position of the queue. -/
def InviteAt (dir : Directory L) (admin : MlDsa87KeyPair) (tape : ℕ → OpDraws E S K)
    (ops : List Op) (user : UserId) (position : ℕ) (post : List Op) : Prop :=
  ∃ pre forwardOnly graft before, ops = pre ++ .invite user forwardOnly graft :: post ∧
    runOps dir admin tape pre = some before ∧ before.queue.length = position

/-- The last change of the epoch was the user's invite, and its grant is on the
first page of the queue. -/
def InvitedLast (dir : Directory L) (admin : MlDsa87KeyPair) (tape : ℕ → OpDraws E S K)
    (ops : List Op) (user : UserId) : Prop :=
  ∃ position post, InviteAt dir admin tape ops user position post ∧
    position < mlsFetchLimit ∧ ∀ op ∈ post, op.movesEpoch = false

/-! ### Where grants and materials come from -/

theorem InviteAt.concat {position : ℕ} {post : List Op}
    (h : InviteAt dir admin tape ops user position post) (op : Op) :
    InviteAt dir admin tape (ops ++ [op]) user position (post ++ [op]) := by
  obtain ⟨pre, forwardOnly, graft, before, rfl, hbefore, hposition⟩ := h
  exact ⟨pre, forwardOnly, graft, before, by simp, hbefore, hposition⟩

/-- Every grant on the queue and every joiner's material goes back to an invite, and
its epoch is the one that invite moved to. -/
structure Traced (dir : Directory L) (admin : MlDsa87KeyPair) (tape : ℕ → OpDraws E S K)
    (ops : List Op) (world : World E S K L) : Prop where
  seq_pos : ∀ env ∈ world.queue, 0 < env.seq
  grants : ∀ (k : ℕ) (env : MlsDeliveryEnvelope E S K L) (grant : WelcomeGrant E S K L),
    world.queue[k]? = some env → env.payload = .grant grant →
      ∃ user leaf state post, grant.welcome = .welcome leaf state ∧
        dir.published user = some leaf ∧ InviteAt dir admin tape ops user k post ∧
        state.epoch + post.countP Op.movesEpoch = ops.countP Op.movesEpoch
  devices : ∀ user, user ≠ dir.owner → ∀ material,
    (world.devices user).material = some material →
      ∃ position post, InviteAt dir admin tape ops user position post ∧
        position < mlsFetchLimit ∧
        material.epoch + post.countP Op.movesEpoch = ops.countP Op.movesEpoch

/-- Later operations do not change where a grant or a material came from. -/
theorem Traced.concat (h : Traced dir admin tape ops world) (op : Op) :
    Traced dir admin tape (ops ++ [op]) world where
  seq_pos := h.seq_pos
  grants := by
    intro k env grant henv hgrant
    obtain ⟨user, leaf, state, post, hwelcome, hleaf, hinvite, hepoch⟩ :=
      h.grants k env grant henv hgrant
    refine ⟨user, leaf, state, post ++ [op], hwelcome, hleaf, hinvite.concat op, ?_⟩
    rw [List.countP_append, List.countP_append, ← Nat.add_assoc, hepoch]
  devices := by
    intro user huser material hmaterial
    obtain ⟨position, post, hinvite, hposition, hepoch⟩ := h.devices user huser material hmaterial
    refine ⟨position, post ++ [op], hinvite.concat op, hposition, ?_⟩
    rw [List.countP_append, List.countP_append, ← Nat.add_assoc, hepoch]

omit [MlsExporter E S K] [SeedKdf S K] [KeyKdf K] [DecidableEq S] [DecidableEq K] [DecidableEq L] in
/-- The first page, on a queue numbered from one. -/
theorem mlsFetch_zero (hpos : ∀ env ∈ world.queue, 0 < env.seq) :
    world.mlsFetch 0 = world.queue.take mlsFetchLimit := by
  have hall : world.queue.filter (fun env => decide (0 < env.seq)) = world.queue :=
    List.filter_eq_self.mpr fun env henv => decide_eq_true (hpos env henv)
  rw [World.mlsFetch, hall]

/-- The grant that accepting picks is at a position of the first page. -/
theorem Traced.lastGrant_position {grant : WelcomeGrant E S K L}
    (h : Traced dir admin tape ops world) (hgrant : lastGrant (world.mlsFetch 0) = some grant) :
    ∃ k env, k < mlsFetchLimit ∧ world.queue[k]? = some env ∧ env.payload = .grant grant := by
  obtain ⟨older, env, later, hpage, hpayload, -⟩ := lastGrant_eq_some_iff.mp hgrant
  have hk : (world.queue.take mlsFetchLimit)[older.length]? = some env := by
    rw [← mlsFetch_zero h.seq_pos, hpage, List.getElem?_append_right le_rfl, Nat.sub_self,
      List.getElem?_cons_zero]
  rw [List.getElem?_take] at hk
  split_ifs at hk with hlimit
  exact ⟨older.length, env, hlimit, hk, hpayload⟩

/-- The queue and the other devices are all that the origins depend on. -/
theorem Traced.congr (h : Traced dir admin tape ops world) (hqueue : next.queue = world.queue)
    (hmaterial : ∀ v, v ≠ dir.owner → (next.devices v).material = (world.devices v).material) :
    Traced dir admin tape ops next where
  seq_pos := by
    rw [hqueue]
    exact h.seq_pos
  grants := by
    rw [hqueue]
    exact h.grants
  devices := by
    intro v hv material hm
    rw [hmaterial v hv] at hm
    exact h.devices v hv material hm

/-- A new message at the end of the queue. -/
theorem Traced.enqueued {payload : Payload E S K L} {hint : Option String}
    (h : Traced dir admin tape ops world)
    (hgrant : ∀ grant, payload = .grant grant → ∃ user leaf state post,
      grant.welcome = .welcome leaf state ∧ dir.published user = some leaf ∧
      InviteAt dir admin tape ops user world.queue.length post ∧
      state.epoch + post.countP Op.movesEpoch = ops.countP Op.movesEpoch)
    (hqueue : next.queue = world.queue ++ [⟨world.queue.length + 1, payload, hint⟩])
    (hmaterial : ∀ v, v ≠ dir.owner → (next.devices v).material = (world.devices v).material) :
    Traced dir admin tape ops next where
  seq_pos := by
    intro env henv
    rw [hqueue] at henv
    rcases List.mem_append.mp henv with hold | hlast
    · exact h.seq_pos env hold
    · obtain rfl := List.mem_singleton.mp hlast
      exact Nat.succ_pos _
  grants := by
    intro k env grant henv hpayload
    rw [hqueue] at henv
    -- positions before the end are as they were
    by_cases hk : k < world.queue.length
    · rw [List.getElem?_append_left hk] at henv
      exact h.grants k env grant henv hpayload
    · rw [List.getElem?_append_right (Nat.not_lt.mp hk), List.getElem?_singleton] at henv
      split_ifs at henv with hlast
      obtain rfl := Option.some.inj henv
      obtain rfl : k = world.queue.length := by omega
      exact hgrant grant hpayload
  devices := by
    intro v hv material hm
    rw [hmaterial v hv] at hm
    exact h.devices v hv material hm

/-- An accepted Welcome leaves a material whose origin is the grant's. -/
theorem Traced.accepted {grant : WelcomeGrant E S K L} {group : OpenMlsGroup E L} {identity : L}
    (h : Traced dir admin tape ops world) (hgrant : lastGrant (world.mlsFetch 0) = some grant)
    (hidentity : dir.published user = some identity)
    (hwelcome : grant.welcome = .welcome identity group.state) :
    Traced dir admin tape ops (world.afterAccept dir user group grant) where
  seq_pos := h.seq_pos
  grants := h.grants
  devices := by
    intro v hv material hm
    rw [afterAccept_devices] at hm
    split_ifs at hm with huser
    · obtain rfl := Option.some.inj hm
      obtain ⟨k, env, hk, henv, hpayload⟩ := h.lastGrant_position hgrant
      obtain ⟨invitee, leaf, state, post, hsent, hleaf, hinvite, hepoch⟩ :=
        h.grants k env grant henv hpayload
      obtain ⟨rfl, rfl⟩ := MlsMessage.welcome.inj (hsent.symm.trans hwelcome)
      -- a Welcome opens for one leaf, and a leaf is one user's
      obtain rfl : invitee = user := dir.published_inj invitee user leaf hleaf hidentity
      rw [huser]
      exact ⟨k, post, hinvite, hk, hepoch⟩
    · exact h.devices v hv material hm

/-- An operation that queues no grant keeps the origins as they are. -/
theorem Traced.effect_of_quiet {draws : OpDraws E S K} (h : Traced dir admin tape ops world)
    (hquiet : op.queuesGrant = false) (heffect : Effect dir draws world op next) :
    Traced dir admin tape ops next := by
  cases heffect with
  | invite => cases hquiet
  | inviteCut =>
    refine h.congr afterInviteCut_queue fun v hv => ?_
    rw [afterInviteCut_devices, if_neg hv]
  | accept hmember hgrant hidentity hwelcome hleaf => exact h.accepted hgrant hidentity hwelcome
  | rotate hgroup =>
    refine h.congr rfl fun v hv => ?_
    rw [afterRotate_devices, if_neg hv]
  | removeMember hgroup =>
    refine h.congr rfl fun v hv => ?_
    rw [afterRotate_devices, if_neg hv]
    rfl
  | inviteCollab =>
    refine h.congr inviteCollaborator_queue fun v _ => ?_
    rw [inviteCollaborator_devices]
  | removeCollab => exact h.congr rfl fun _ _ => rfl
  | collab hmaterial =>
    refine h.enqueued (fun grant hgrant => ?_) rfl fun _ _ => rfl
    cases hgrant
  | sync hmember hmaterial => exact h.congr rfl fun _ _ => afterSync_material
  | push hmaterial hkey => exact h.congr rfl fun _ _ => rfl

theorem traced_bootstrap : Traced dir admin tape [] (bootstrapRepoGroup dir admin (tape 0)) where
  seq_pos := fun _ henv => nomatch henv
  grants := fun _ _ _ henv => nomatch henv
  devices := by
    intro v hv material hm
    simp [bootstrapRepoGroup, hv, Device.fresh] at hm

/-- Every grant and every joiner's material goes back to an invite of the run. -/
theorem traced_of_runOps (hrun : runOps dir admin tape ops = some world) :
    Traced dir admin tape ops world := by
  refine Run.run_induction (P := fun labels w => Traced dir admin tape labels w)
    traced_bootstrap ?_ hrun
  intro labels w op w' hlabels hw hstep
  obtain ⟨group, material, howned, hepoch, hclock⟩ := owned_of_runOps hlabels
  obtain ⟨after, heffect, rfl⟩ := effect_of_step hstep
  suffices h : Traced dir admin tape (labels ++ [op]) after from { h with }
  -- only an invite queues a grant, and its origin is the invite itself
  by_cases hquiet : op.queuesGrant = false
  · exact (hw.concat op).effect_of_quiet hquiet heffect
  · rw [Bool.not_eq_false] at hquiet
    obtain ⟨user, forwardOnly, graft, rfl⟩ := Op.eq_invite_of_queuesGrant hquiet
    cases heffect with
    | invite hgroup hpackage hnew hinterval =>
      obtain rfl := Option.some.inj (howned.group_eq.symm.trans hgroup)
      refine (hw.concat _).enqueued ?_ rfl fun v hv => ?_
      · intro grant hgrant
        obtain rfl := Payload.grant.inj hgrant
        obtain ⟨-, hpublished⟩ := keyPackage_ne_ownerLeaf howned.ownerLeaf hpackage hnew
        refine ⟨user, _, _, [], rfl, hpublished, ⟨labels, forwardOnly, graft, w, rfl, hlabels, rfl⟩,
          ?_⟩
        rw [List.countP_nil, List.countP_append, List.countP_singleton, ← hepoch]
        rfl
      · rw [afterInvite_devices, if_neg hv]

/-! ### Who agrees -/

omit [KeyKdf K] [DecidableEq K] [DecidableEq L] in
theorem OwnerStep.eq_of_not_movesEpoch {draws : OpDraws E S K} {group group' : OpenMlsGroup E L}
    {material material' : EpochMaterial S K}
    (hstep : OwnerStep dir draws group material op group' material')
    (hop : op.movesEpoch = false) : group' = group ∧ material' = material := by
  cases hstep with
  | invite hadds =>
    rw [Op.movesEpoch_of_adds hadds] at hop
    cases hop
  | rotate hrotate =>
    rcases hrotate with rfl | ⟨removed, rfl⟩
    · cases hop
    · cases hop
  | stay => exact ⟨rfl, rfl⟩

/-- Operations that do not move the epoch leave the owner's device as it is. -/
theorem Owned.step_of_not_movesEpoch {group : OpenMlsGroup E L} {material : EpochMaterial S K}
    (howned : Owned dir world group material) (hop : op.movesEpoch = false)
    (hstep : SafeHub.step dir tape world op = some next) : Owned dir next group material := by
  obtain ⟨group', material', hnext, hmove⟩ := howned.step hstep
  obtain ⟨rfl, rfl⟩ := hmove.eq_of_not_movesEpoch hop
  exact hnext

theorem attempt_cases (dir : Directory L) (tape : ℕ → OpDraws E S K) (world : World E S K L)
    (op : Op) : world.attempt dir tape op = world ∨
      SafeHub.step dir tape world op = some (world.attempt dir tape op) := by
  rw [World.attempt]
  cases SafeHub.step dir tape world op with
  | none => exact .inl rfl
  | some next => exact .inr rfl

theorem Owned.attempt {group : OpenMlsGroup E L} {material : EpochMaterial S K}
    (howned : Owned dir world group material) (hop : op.movesEpoch = false) :
    Owned dir (world.attempt dir tape op) group material := by
  rcases attempt_cases dir tape world op with hsame | hstep
  · rwa [hsame]
  · exact howned.step_of_not_movesEpoch hop hstep

theorem Traced.attempt (h : Traced dir admin tape ops world) (hquiet : op.queuesGrant = false) :
    Traced dir admin tape ops (world.attempt dir tape op) := by
  rcases attempt_cases dir tape world op with hsame | hstep
  · rwa [hsame]
  · obtain ⟨after, heffect, hnext⟩ := effect_of_step hstep
    have hafter := h.effect_of_quiet hquiet heffect
    rw [hnext]
    exact { hafter with }

/-- A member that agrees was invited last. -/
theorem invitedLast_of_agrees (hrun : runOps dir admin tape ops = some world)
    (huser : user ≠ dir.owner) (hagrees : (world.caughtUp dir tape user).Agrees dir user) :
    InvitedLast dir admin tape ops user := by
  obtain ⟨group, owned, howned, hepoch, -⟩ := owned_of_runOps hrun
  have htraced : Traced dir admin tape ops (world.caughtUp dir tape user) :=
    ((traced_of_runOps hrun).attempt rfl).attempt rfl
  have howned' : Owned dir (world.caughtUp dir tape user) group owned :=
    (howned.attempt rfl).attempt rfl
  obtain ⟨own, material, hown, hmaterial, hsame, -⟩ := hagrees
  obtain rfl := Option.some.inj (howned'.material_eq.symm.trans hown)
  obtain ⟨position, post, hinvite, hposition, hcount⟩ :=
    htraced.devices user huser material hmaterial
  refine ⟨position, post, hinvite, hposition, fun op hop => ?_⟩
  -- its epoch is the owner's, so nothing after the invite moved the epoch
  have hnone : post.countP Op.movesEpoch = 0 := by
    rw [hsame, howned.epoch, hepoch] at hcount
    omega
  exact Bool.eq_false_iff.mpr (List.countP_eq_zero.mp hnone op hop)

/-- Beyond the capacity nobody agrees with anybody: the key depends on what is drawn. -/
theorem capacity_of_agrees (hideal : IdealSeeds dir tape)
    (hrun : runOps dir admin tape ops = some world)
    (hagrees : (world.caughtUp dir tape user).Agrees dir user) :
    ops.countP Op.movesEpoch < dkrSegmentCapacity := by
  obtain ⟨group, owned, howned, hepoch, -⟩ := owned_of_runOps hrun
  have howned' : Owned dir (world.caughtUp dir tape user) group owned :=
    (howned.attempt rfl).attempt rfl
  obtain ⟨own, material, hown, -, -, -, key, hkey⟩ := hagrees
  obtain rfl := Option.some.inj (howned'.material_eq.symm.trans hown)
  by_contra hcap
  rw [← hepoch, ← howned.epoch, Nat.not_lt] at hcap
  have hdrawn : ∀ seed : S, key = SeedKdf.expand seed (dkrEpochInfo owned.epoch) := by
    intro seed
    have hcurrent : owned.epochKeyAt ⟨seed, seed⟩ owned.epoch = _ :=
      EpochMaterial.epochKeyAt_current_of_capacity
        (howned.historyFrom.le.trans (Nat.zero_le owned.epoch)) hcap
    exact Except.ok.inj ((hkey ⟨seed, seed⟩).1.symm.trans hcurrent)
  exact hideal.keys_ne 0 0 owned.epoch ((hdrawn _).symm.trans (hdrawn _))

/-- The queue holds a grant at this position, and no other grant after it. -/
def World.LastGrantAt (world : World E S K L) (position : ℕ) (grant : WelcomeGrant E S K L) :
    Prop :=
  ∃ older env later, world.queue = older ++ env :: later ∧ older.length = position ∧
    env.payload = .grant grant ∧ ∀ e ∈ later, e.payload.grant? = none

omit [MlsExporter E S K] [SeedKdf S K] [KeyKdf K] [DecidableEq S] [DecidableEq K] [DecidableEq L] in
theorem World.LastGrantAt.lastGrant {position : ℕ} {grant : WelcomeGrant E S K L}
    (h : world.LastGrantAt position grant) (hpos : ∀ env ∈ world.queue, 0 < env.seq)
    (hposition : position < mlsFetchLimit) : lastGrant (world.mlsFetch 0) = some grant := by
  obtain ⟨older, env, later, hqueue, rfl, hpayload, hlater⟩ := h
  have hpage : world.mlsFetch 0 =
      older ++ env :: later.take (mlsFetchLimit - older.length - 1) := by
    obtain ⟨room, hroom⟩ : ∃ room, mlsFetchLimit - older.length = room + 1 :=
      ⟨mlsFetchLimit - older.length - 1, by omega⟩
    rw [mlsFetch_zero hpos, hqueue, List.take_append, List.take_of_length_le hposition.le, hroom,
      List.take_succ_cons, Nat.add_sub_cancel]
  exact lastGrant_eq_some_iff.mpr ⟨older, env, _, hpage, hpayload,
    fun e he => hlater e (List.mem_of_mem_take he)⟩

omit [DecidableEq L] in
/-- Only an invite puts another grant on the queue. -/
theorem World.LastGrantAt.effect {draws : OpDraws E S K} {position : ℕ}
    {grant : WelcomeGrant E S K L} (h : world.LastGrantAt position grant)
    (hquiet : op.queuesGrant = false) (heffect : Effect dir draws world op next) :
    next.LastGrantAt position grant := by
  obtain ⟨older, env, later, hqueue, hlength, hpayload, hlater⟩ := h
  cases heffect with
  | invite => cases hquiet
  | inviteCut =>
    exact ⟨older, env, later, afterInviteCut_queue.trans hqueue, hlength, hpayload, hlater⟩
  | inviteCollab =>
    exact ⟨older, env, later, inviteCollaborator_queue.trans hqueue, hlength, hpayload, hlater⟩
  | @collab user text material hmaterial =>
    let message : Payload E S K L := .collab ⟨material.refsMac, collabAad, text⟩
    refine ⟨older, env, later ++ [⟨world.queue.length + 1, message, none⟩], ?_, hlength, hpayload,
      fun e he => ?_⟩
    · change world.queue ++ _ = _
      rw [hqueue]
      simp [message]
    · rcases List.mem_append.mp he with hold | hlast
      · exact hlater e hold
      · rw [List.mem_singleton.mp hlast]
        rfl
  | _ => exact ⟨older, env, later, hqueue, hlength, hpayload, hlater⟩

/-- What the state is like after the user's invite, as long as nothing moves the epoch. -/
structure Invited (dir : Directory L) (world : World E S K L) (position : ℕ) (leaf : L)
    (group : OpenMlsGroup E L) (material : EpochMaterial S K) (grant : WelcomeGrant E S K L) :
    Prop where
  owned : Owned dir world group material
  last : world.LastGrantAt position grant
  welcome : grant.welcome = .welcome leaf group.state
  token : grant.dkrToken = material.dkrToken
  dkrToken : material.dkrToken.isSome
  window : grant.historyFrom ≤ material.epoch

theorem Invited.step {position : ℕ} {leaf : L} {group : OpenMlsGroup E L}
    {material : EpochMaterial S K} {grant : WelcomeGrant E S K L}
    (h : Invited dir world position leaf group material grant) (hop : op.movesEpoch = false)
    (hstep : SafeHub.step dir tape world op = some next) :
    Invited dir next position leaf group material grant := by
  have hquiet : op.queuesGrant = false := by
    cases op with
    | invite => cases hop
    | _ => rfl
  obtain ⟨after, heffect, hnext⟩ := effect_of_step hstep
  have hlast := h.last.effect hquiet heffect
  refine { h with owned := h.owned.step_of_not_movesEpoch hop hstep, last := ?_ }
  rw [hnext]
  exact hlast

/-- The state right after the user's invite. -/
theorem invited_of_invite {forwardOnly : Bool} {graft : Option Bytes} {group : OpenMlsGroup E L}
    {material : EpochMaterial S K} (howned : Owned dir world group material)
    (hstep : SafeHub.step dir tape world (.invite user forwardOnly graft) = some next) :
    ∃ leaf group' material' grant, dir.published user = some leaf ∧
      Invited dir next world.queue.length leaf group' material' grant := by
  obtain ⟨after, heffect, rfl⟩ := effect_of_step hstep
  obtain ⟨group', material', howned', -⟩ := howned.effect heffect
  cases heffect with
  | @invite _ _ _ _ keyPackage interval hgroup hpackage hnew hinterval =>
    obtain rfl := Option.some.inj (howned.group_eq.symm.trans hgroup)
    obtain ⟨-, hpublished⟩ := keyPackage_ne_ownerLeaf howned.ownerLeaf hpackage hnew
    have hgroup' := howned'.group_eq
    have hmaterial' := howned'.material_eq
    rw [afterInvite_devices, if_pos rfl] at hgroup' hmaterial'
    obtain rfl := Option.some.inj hgroup'
    obtain rfl := Option.some.inj hmaterial'
    have htoken : (movedMaterial dir (addedGroup group keyPackage (tape world.clock).epochSecret)
        interval.token (world.devices dir.owner)).dkrToken = some interval.token := by
      rw [movedMaterial, EpochMaterial.inherit_dkrToken]
      rfl
    refine ⟨keyPackage, _, _, _, hpublished, { howned' with },
      ⟨world.queue, _, [], rfl, rfl, rfl, fun _ henv => absurd henv List.not_mem_nil⟩, rfl,
      htoken.symm, ?_, ?_⟩
    · rw [htoken]
      rfl
    · change (if forwardOnly then _ else 0) ≤ _
      split_ifs
      · exact le_rfl
      · exact Nat.zero_le _

/-- A member whose invite came last opens the owner's epoch. -/
theorem Invited.agrees {position : ℕ} {leaf : L} {group : OpenMlsGroup E L}
    {material : EpochMaterial S K} {grant : WelcomeGrant E S K L}
    (h : Invited dir world position leaf group material grant)
    (hpos : ∀ env ∈ world.queue, 0 < env.seq) (hposition : position < mlsFetchLimit)
    (hmember : world.isMember dir user)
    (hleaf : dir.published user = some leaf) (hcap : material.epoch < dkrSegmentCapacity)
    (hzero : material.intervalSeed ≠ SeedKdf.zeroSeed) :
    (world.caughtUp dir tape user).Agrees dir user := by
  have hgrant := h.last.lastGrant hpos hposition
  -- accepting succeeds: the last grant of the page is for this user's leaf
  have hjoin : join leaf ⟨grant.welcome, grant.commit⟩ = .ok ⟨group.state, leaf⟩ :=
    join_eq_ok_iff.mpr ⟨h.welcome, rfl⟩
  have haccept : SafeHub.step dir tape world (.accept user) = some
      { world.afterAccept dir user ⟨group.state, leaf⟩ grant with clock := world.clock + 1 } := by
    simp only [SafeHub.step, perform, acceptWelcomeMls, hmember, if_true, hgrant, hleaf, hjoin]
    rfl
  have hattempt : world.attempt dir tape (.accept user) =
      { world.afterAccept dir user ⟨group.state, leaf⟩ grant with clock := world.clock + 1 } := by
    rw [World.attempt, haccept]
    rfl
  -- neither the accept nor the sync moves the owner's device
  have howned : Owned dir (world.caughtUp dir tape user) group material :=
    (h.owned.attempt rfl).attempt rfl
  -- the sync afterwards leaves the joiner's material alone
  have hjoiner : ((world.caughtUp dir tape user).devices user).material =
      some (joinerMaterial dir ⟨group.state, leaf⟩ grant) := by
    have hafter : ((world.attempt dir tape (.accept user)).devices user).material =
        some (joinerMaterial dir ⟨group.state, leaf⟩ grant) := by
      rw [hattempt]
      simp only [afterAccept_devices, if_true]
    rcases attempt_cases dir tape (world.attempt dir tape (.accept user)) (.sync user) with
      hsame | hstep
    · rw [World.caughtUp, hsame, hafter]
    · obtain ⟨after, heffect, hnext⟩ := effect_of_step hstep
      rw [World.caughtUp, hnext]
      cases heffect with
      | sync hmember' hmaterial' => exact afterSync_material.trans hafter
  refine ⟨material, _, howned.material_eq, hjoiner, ?_, ?_, ?_⟩
  · exact howned.epoch.symm
  · exact howned.refsMac.symm
  · obtain ⟨token, htoken⟩ := Option.isSome_iff_exists.mp h.dkrToken
    -- both sides read the token of the invite as their seed
    have hown : material.intervalSeed = token := by
      rw [EpochMaterial.intervalSeed, htoken]
      rfl
    have hjoinerSeed : (joinerMaterial dir ⟨group.state, leaf⟩ grant :
        EpochMaterial S K).intervalSeed = token := by
      change (some (grant.dkrToken.getD _) : SeedVec S).getD _ = token
      rw [h.token, htoken]
      rfl
    refine ⟨SeedKdf.expand token (dkrEpochInfo material.epoch), fun draws => ⟨?_, ?_⟩⟩
    · rw [← hown]
      exact EpochMaterial.epochKeyAt_current
        (howned.historyFrom.le.trans (Nat.zero_le _)) hcap hzero
    · rw [← hjoinerSeed, howned.epoch]
      rw [hown, ← hjoinerSeed] at hzero
      refine EpochMaterial.epochKeyAt_current ?_ ?_ hzero
      · exact h.window.trans howned.epoch.le
      · exact lt_of_eq_of_lt howned.epoch.symm hcap

/-- A member that was invited last agrees, within one segment. -/
theorem agrees_of_invitedLast (hseeds : NonzeroSeeds dir tape)
    (hrun : runOps dir admin tape ops = some world) (hmember : world.CurrentMember dir user)
    (hcap : ops.countP Op.movesEpoch < dkrSegmentCapacity)
    (hlast : InvitedLast dir admin tape ops user) :
    (world.caughtUp dir tape user).Agrees dir user := by
  obtain ⟨position, post, ⟨pre, forwardOnly, graft, before, rfl, hbefore, rfl⟩, hposition, hpost⟩ :=
    hlast
  obtain ⟨-, hallowed, -⟩ := hmember
  obtain ⟨start, hstart, hrest⟩ := Run.run_append_eq_some.mp hrun
  obtain rfl := Option.some.inj (hbefore.symm.trans hstart)
  obtain ⟨invited, hinvite, hafter⟩ := Run.run_cons_eq_some.mp hrest
  obtain ⟨group₀, material₀, howned₀, -⟩ := owned_of_runOps hbefore
  obtain ⟨leaf, group, material, grant, hleaf, hinvited⟩ := invited_of_invite howned₀ hinvite
  -- nothing that follows moves the epoch
  have hnow : Invited dir world before.queue.length leaf group material grant := by
    refine Run.run_induction (P := fun labels w => (∀ op ∈ labels, op.movesEpoch = false) →
      Invited dir w before.queue.length leaf group material grant)
      (fun _ => hinvited) ?_ hafter hpost
    intro labels w op w' _ hw hstep hlabels
    refine (hw fun op' hop' => ?_).step ?_ hstep
    · exact hlabels op' (List.mem_append_left [op] hop')
    · exact hlabels op (List.mem_append_right labels (List.mem_singleton_self op))
  obtain ⟨group', material', howned, hdrawn⟩ := seedsDrawn_of_runOps hseeds hrun
  obtain rfl := Option.some.inj (howned.material_eq.symm.trans hnow.owned.material_eq)
  have hepoch : material'.epoch < dkrSegmentCapacity := by
    rw [hdrawn.epoch]
    exact hcap
  exact hnow.agrees (traced_of_runOps hrun).seq_pos hposition hallowed hleaf hepoch
    (hdrawn.intervalSeed_ne_zero hseeds howned hepoch)

/-- At every point of the run that has a current member, that member was invited last
and the epoch is within the first segment. -/
def MembersInvitedLast (dir : Directory L) (admin : MlDsa87KeyPair) (tape : ℕ → OpDraws E S K)
    (ops : List Op) : Prop :=
  ∀ before after (world : World E S K L) user, ops = before ++ after →
    runOps dir admin tape before = some world → world.CurrentMember dir user →
      InvitedLast dir admin tape before user ∧
        before.countP Op.movesEpoch < dkrSegmentCapacity

/-- The members agree with the owner throughout a run exactly when each of them was
invited last, within one segment. -/
theorem keyAgreement_iff (hideal : IdealSeeds dir tape) :
    KeyAgreement dir admin tape ops ↔ MembersInvitedLast dir admin tape ops := by
  constructor
  · intro hagree before after w user hops hbefore hmember
    have hagrees := hagree before after w user hops hbefore hmember
    exact ⟨invitedLast_of_agrees hbefore hmember.1 hagrees,
      capacity_of_agrees hideal hbefore hagrees⟩
  · intro hlast before after w user hops hbefore hmember
    obtain ⟨hinvited, hcap⟩ := hlast before after w user hops hbefore hmember
    exact agrees_of_invitedLast hideal.toNonzeroSeeds hbefore hmember hcap hinvited

/-! ### On the symbolic tape -/

/-- Bob, invited last, agrees with Alice at every point. -/
theorem keyAgreement_invite :
    KeyAgreement sampleDirectory sampleAdmin freshTape
      [.inviteCollab "bob", .invite "bob" false none] := by
  apply (keyAgreement_iff (idealSeeds_freshTape sampleDirectory)).mpr
  intro before after world user hops hbefore hmember
  obtain ⟨hne, hallowed, group, leaf, hgroup, hleaf, hmem⟩ := hmember
  have hroster : ∀ members, ((runOps sampleDirectory sampleAdmin freshTape before).bind fun w =>
      (w.devices sampleDirectory.owner).group.map (·.memberSignatureKeys)) = some members →
        leaf ∈ members := by
    intro members hmembers
    rw [hbefore, Option.bind_some, hgroup, Option.map_some] at hmembers
    rwa [← Option.some.inj hmembers]
  -- before the invite nobody but Alice is in the group
  have halone : leaf ≠ [0] := by
    intro hsame
    rw [hsame] at hleaf
    exact sampleDirectory.ownerLeaf_fresh user hleaf
  rcases List.prefix_cons_iff.mp ⟨after, hops.symm⟩ with rfl | ⟨rest, rfl, hrest⟩
  · exact absurd (List.mem_singleton.mp (hroster [[0]] rfl)) halone
  rcases List.prefix_cons_iff.mp hrest with rfl | ⟨tail, rfl, hnone⟩
  · exact absurd (List.mem_singleton.mp (hroster [[0]] rfl)) halone
  obtain rfl := List.prefix_nil.mp hnone
  obtain rfl : user = "bob" := by
    rcases List.mem_cons.mp (hroster [[0], [1]] rfl) with hfirst | hlast
    · exact absurd hfirst halone
    · obtain rfl := List.mem_singleton.mp hlast
      exact sampleDirectory.published_inj user "bob" [1] hleaf rfl
  exact ⟨⟨0, [], ⟨[.inviteCollab "bob"], false, none, _, rfl, rfl, rfl⟩, by decide, nofun⟩,
    by decide⟩

/-- After a rotation Bob still has the material of his invite. -/
theorem not_keyAgreement_rotate :
    (∃ world, runOps sampleDirectory sampleAdmin freshTape
      [.inviteCollab "bob", .invite "bob" false none, .rotate] = some world) ∧
    ¬ KeyAgreement sampleDirectory sampleAdmin freshTape
      [.inviteCollab "bob", .invite "bob" false none, .rotate] := by
  have hrun : (runOps sampleDirectory sampleAdmin freshTape
      [.inviteCollab "bob", .invite "bob" false none, .rotate]).isSome := by decide
  refine ⟨Option.isSome_iff_exists.mp hrun, fun hagree => ?_⟩
  let world := (runOps sampleDirectory sampleAdmin freshTape
    [.inviteCollab "bob", .invite "bob" false none, .rotate]).get hrun
  obtain ⟨own, material, hown, hmaterial, hepoch, -⟩ :=
    hagree _ [] world "bob" (List.append_nil _).symm (Option.some_get hrun).symm
      ⟨by decide, rfl, _, [1], rfl, rfl, by decide⟩
  have hself : ((world.caughtUp sampleDirectory freshTape "bob").devices
      sampleDirectory.owner).material.map (·.epoch) = some 2 := rfl
  have hother : ((world.caughtUp sampleDirectory freshTape "bob").devices
      "bob").material.map (·.epoch) = some 1 := rfl
  rw [hown, Option.map_some] at hself
  rw [hmaterial, Option.map_some, hepoch, hself] at hother
  cases hother

end SafeHub
