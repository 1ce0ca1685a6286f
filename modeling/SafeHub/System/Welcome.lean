import SafeHub.System.KeyAgreement

/-!
# Whose Welcome does a device accept?

Grants for every user share one queue with the collaboration messages. Accepting reads
the first page of the queue and takes its last grant, whoever that is for. So an invited
member gets its own latest grant exactly as long as that grant is the last one of the page.

## Main definitions

* `WelcomeDelivered` — accepting installs the latest grant addressed to the user
* `World.GrantServed` — that grant is the last one of the first page

## Main results

* `welcomeDelivered_iff` — exactly when an invited member gets its grant
-/

namespace SafeHub

open OpenMlsGroup

variable {E S K L : Type} [MlsExporter E S K] [SeedKdf S K] [KeyKdf K]
variable [DecidableEq S] [DecidableEq K] [DecidableEq L]
variable {dir : Directory L} {admin : MlDsa87KeyPair} {tape : ℕ → OpDraws E S K}
variable {world next : World E S K L} {ops : List Op} {user : UserId} {leaf : L}
variable {grant : WelcomeGrant E S K L}

/-! ### The property and its condition -/

/-- The message carries a grant whose Welcome is for this leaf. -/
def MlsDeliveryEnvelope.AddressedTo (env : MlsDeliveryEnvelope E S K L) (leaf : L) : Prop :=
  ∃ grant state, env.payload = .grant grant ∧ grant.welcome = .welcome leaf state

/-- The latest grant on the queue that is addressed to a leaf. -/
def World.LatestGrant (world : World E S K L) (leaf : L) (grant : WelcomeGrant E S K L) : Prop :=
  ∃ older env later, world.queue = older ++ env :: later ∧ env.payload = .grant grant ∧
    env.AddressedTo leaf ∧ ∀ e ∈ later, ¬ e.AddressedTo leaf

/-- A device has joined the group of a grant's Welcome and holds the epoch, the keys and the
history window of that grant. -/
structure Device.Installed (dir : Directory L) (device : Device E S K L) (leaf : L)
    (grant : WelcomeGrant E S K L) (group : OpenMlsGroup E L) (material : EpochMaterial S K) :
    Prop where
  group_eq : device.group = some group
  welcome : grant.welcome = .welcome leaf group.state
  material_eq : device.material = some material
  epoch : material.epoch = group.epoch
  transport : material.transport = (group.exportEpochKeys dir.repo).transport
  refsMac : material.refsMac = (group.exportEpochKeys dir.repo).refs
  historyFrom : material.historyFrom = grant.historyFrom
  dkrToken : material.dkrToken =
    some (grant.dkrToken.getD (group.exportEpochKeys dir.repo).transport)
  priorTransport : material.priorTransport = grant.priorTransport
  priorRefsMac : material.priorRefsMac = grant.priorRefsMac

/-- Accepting succeeds and installs the latest grant addressed to the user. -/
def WelcomeDelivered (dir : Directory L) (world : World E S K L) (user : UserId) (leaf : L) :
    Prop :=
  ∃ grant next group material, world.LatestGrant leaf grant ∧
    acceptWelcomeMls dir world user = .ok next ∧
    (next.devices user).Installed dir leaf grant group material

/-- The last grant of the queue's first page is addressed to the leaf, and no later one is. -/
def World.GrantServed (world : World E S K L) (leaf : L) : Prop :=
  ∃ older env later, world.queue.take mlsFetchLimit = older ++ env :: later ∧
    env.AddressedTo leaf ∧ (∀ e ∈ later, e.payload.grant? = none) ∧
    ∀ e ∈ world.queue.drop mlsFetchLimit, ¬ e.AddressedTo leaf

/-! ### The grant that is taken -/

omit [MlsExporter E S K] [SeedKdf S K] [KeyKdf K] [DecidableEq S] [DecidableEq K] [DecidableEq L] in
theorem MlsDeliveryEnvelope.AddressedTo.grant?_ne_none {env : MlsDeliveryEnvelope E S K L}
    (h : env.AddressedTo leaf) : env.payload.grant? ≠ none := by
  obtain ⟨sent, state, hpayload, -⟩ := h
  rw [hpayload]
  exact Option.some_ne_none sent

/-! ### One grant for each Welcome -/

/-- Two invites of a run after which the epoch moved equally often are one. -/
theorem InviteAt.position_eq {user' : UserId} {position position' : ℕ} {post post' : List Op}
    (h : InviteAt dir admin tape ops user position post)
    (h' : InviteAt dir admin tape ops user' position' post')
    (hcount : post.countP Op.movesEpoch = post'.countP Op.movesEpoch) : position = position' := by
  obtain ⟨pre, forwardOnly, graft, before, hops, hbefore, hposition⟩ := h
  obtain ⟨pre', forwardOnly', graft', before', hops', hbefore', hposition'⟩ := h'
  have hmoves : ∀ who fwd bundle, (Op.invite who fwd bundle).movesEpoch = true :=
    fun _ _ _ => rfl
  have hpre : pre.countP Op.movesEpoch = pre'.countP Op.movesEpoch := by
    have htotal := congrArg (List.countP Op.movesEpoch) (hops.symm.trans hops')
    rw [List.countP_append, List.countP_append, List.countP_cons_of_pos (hmoves _ _ _),
      List.countP_cons_of_pos (hmoves _ _ _)] at htotal
    omega
  -- one of the invites before the other would have moved the epoch once more
  rcases Run.label_cases (hops.symm.trans hops') with ⟨mid, hmid⟩ | ⟨hsame, -, -⟩ | ⟨mid, hmid, -⟩
  · rw [hmid, List.countP_append, List.countP_cons_of_pos (hmoves _ _ _)] at hpre
    omega
  · rw [hsame, hbefore, Option.some_inj] at hbefore'
    rw [← hposition, ← hposition', hbefore']
  · rw [hmid, List.countP_append, List.countP_cons_of_pos (hmoves _ _ _)] at hpre
    omega

/-- Two grants on the queue with the same Welcome are one message. -/
theorem Traced.position_eq {k k' : ℕ} {env env' : MlsDeliveryEnvelope E S K L}
    {grant' : WelcomeGrant E S K L} (h : Traced dir admin tape ops world)
    (henv : world.queue[k]? = some env) (hgrant : env.payload = .grant grant)
    (henv' : world.queue[k']? = some env') (hgrant' : env'.payload = .grant grant')
    (hwelcome : grant.welcome = grant'.welcome) : k = k' := by
  obtain ⟨invitee, sent, state, post, hsent, -, hinvite, hepoch⟩ := h.grants k env grant henv hgrant
  obtain ⟨invitee', sent', state', post', hsent', -, hinvite', hepoch'⟩ :=
    h.grants k' env' grant' henv' hgrant'
  -- the Welcome has the epoch of its invite
  obtain ⟨-, rfl⟩ := MlsMessage.welcome.inj (hsent.symm.trans (hwelcome.trans hsent'))
  exact hinvite.position_eq hinvite' (by omega)

/-! ### Who gets the right grant -/

omit [KeyKdf K] [DecidableEq S] in
/-- The last grant of the page is what accepting installs, when it is for the user. -/
theorem acceptWelcomeMls_eq_ok {state : GroupState E L} (hmember : world.isMember dir user)
    (hleaf : dir.published user = some leaf)
    (hgrant : lastGrant (world.mlsFetch 0) = some grant)
    (hwelcome : grant.welcome = .welcome leaf state) :
    acceptWelcomeMls dir world user = .ok (world.afterAccept dir user ⟨state, leaf⟩ grant) := by
  have hjoin : join leaf ⟨grant.welcome, grant.commit⟩ = .ok ⟨state, leaf⟩ :=
    join_eq_ok_iff.mpr ⟨hwelcome, rfl⟩
  simp only [acceptWelcomeMls, hmember, if_true, hgrant, hleaf, hjoin]
  rfl

omit [KeyKdf K] [DecidableEq S] [DecidableEq L] in
theorem installed_afterAccept {group : OpenMlsGroup E L}
    (hwelcome : grant.welcome = .welcome leaf group.state) :
    ((world.afterAccept dir user group grant).devices user).Installed dir leaf grant group
      (joinerMaterial dir group grant) := by
  rw [afterAccept_devices, if_pos rfl]
  exact ⟨rfl, hwelcome, rfl, rfl, rfl, rfl, rfl, rfl, rfl, rfl⟩

theorem World.GrantServed.welcomeDelivered (h : world.GrantServed leaf)
    (htraced : Traced dir admin tape ops world) (hmember : world.isMember dir user)
    (hleaf : dir.published user = some leaf) : WelcomeDelivered dir world user leaf := by
  obtain ⟨older, env, later, hpage, haddressed, hlater, hrest⟩ := h
  obtain ⟨sent, state, hpayload, hwelcome⟩ := id haddressed
  have hlast : lastGrant (world.mlsFetch 0) = some sent := by
    rw [mlsFetch_zero htraced.seq_pos]
    exact lastGrant_eq_some_iff.mpr ⟨older, env, later, hpage, hpayload, hlater⟩
  have hlatest : world.LatestGrant leaf sent := by
    refine ⟨older, env, later ++ world.queue.drop mlsFetchLimit, ?_, hpayload, haddressed, ?_⟩
    · rw [← List.cons_append, ← List.append_assoc, ← hpage, List.take_append_drop]
    · intro e he
      rcases List.mem_append.mp he with hin | hout
      · exact fun hfor => hfor.grant?_ne_none (hlater e hin)
      · exact hrest e hout
  exact ⟨sent, _, ⟨state, leaf⟩, _, hlatest, acceptWelcomeMls_eq_ok hmember hleaf hlast hwelcome,
    installed_afterAccept hwelcome⟩

theorem WelcomeDelivered.grantServed (h : WelcomeDelivered dir world user leaf)
    (htraced : Traced dir admin tape ops world) (hleaf : dir.published user = some leaf) :
    world.GrantServed leaf := by
  obtain ⟨sent, next, group, material, hlatest, haccept, hinstalled⟩ := h
  obtain ⟨older, env, later, hqueue, hpayload, haddressed, hlater⟩ := hlatest
  have heffect : Effect dir (tape 0) world (.accept user) next :=
    effect_of_acceptWelcomeMls haccept
  cases heffect with
  | @accept _ identity taken joined _ htaken hidentity hwelcome _ =>
    rw [mlsFetch_zero htraced.seq_pos] at htaken
    obtain ⟨older', env', later', hpage, hpayload', hlater'⟩ := lastGrant_eq_some_iff.mp htaken
    -- the grant taken has the Welcome of the latest grant, so it is the same message
    have hgroup := hinstalled.group_eq
    rw [afterAccept_devices, if_pos rfl] at hgroup
    obtain rfl := Option.some_inj.mp hgroup
    obtain rfl := Option.some_inj.mp (hidentity.symm.trans hleaf)
    have henv : world.queue[older.length]? = some env := by
      rw [hqueue, List.getElem?_append_right le_rfl, Nat.sub_self, List.getElem?_cons_zero]
    have hcut : (world.queue.take mlsFetchLimit)[older'.length]? = some env' := by
      rw [hpage, List.getElem?_append_right le_rfl, Nat.sub_self, List.getElem?_cons_zero]
    rw [List.getElem?_take] at hcut
    split_ifs at hcut with hfirst
    have hsame := htraced.position_eq henv hpayload hcut hpayload'
      (hinstalled.welcome.trans hwelcome.symm)
    rw [← hsame, henv, Option.some_inj] at hcut
    refine ⟨older', env', later', hpage, hcut ▸ haddressed, hlater', ?_⟩
    intro e he
    rw [hqueue, List.append_cons, List.drop_append, List.drop_eq_nil_of_le] at he
    · exact hlater e (List.mem_of_mem_drop he)
    · rw [List.length_append, List.length_singleton]
      omega

/-- In every reachable state, an invited member that accepts gets the latest grant addressed
to it exactly when the queue's first page ends with that grant. -/
theorem welcomeDelivered_iff (hrun : runOps dir admin tape ops = some world)
    (hmember : world.isMember dir user) (hleaf : dir.published user = some leaf) :
    WelcomeDelivered dir world user leaf ↔ world.GrantServed leaf :=
  ⟨fun h => h.grantServed (traced_of_runOps hrun) hleaf,
    fun h => h.welcomeDelivered (traced_of_runOps hrun) hmember hleaf⟩

/-! ### On the symbolic tape -/

/-- Bob is invited, and then Carol. -/
def invitesOfTwo : List Op :=
  [.inviteCollab "bob", .invite "bob" false none, .inviteCollab "carol", .invite "carol" false none]

/-- Bob runs into Carol's grant and fails. -/
theorem not_welcomeDelivered_invitesOfTwo :
    ∃ world, runOps sampleDirectory sampleAdmin freshTape invitesOfTwo = some world ∧
      world.isMember sampleDirectory "bob" ∧ (∃ env ∈ world.queue, env.AddressedTo [1]) ∧
      ¬ WelcomeDelivered sampleDirectory world "bob" [1] := by
  have hrun : (runOps sampleDirectory sampleAdmin freshTape invitesOfTwo).isSome := by decide
  refine ⟨_, (Option.some_get hrun).symm, rfl, ?_, ?_⟩
  · exact ⟨_, List.mem_cons_self, _, _, rfl, rfl⟩
  · intro ⟨_, next, _, _, _, haccept, _⟩
    have hfails : (acceptWelcomeMls sampleDirectory
        ((runOps sampleDirectory sampleAdmin freshTape invitesOfTwo).get hrun) "bob").toOption =
        none := rfl
    rw [haccept] at hfails
    cases hfails

/-- Bob, who is the last to be invited, gets his grant. -/
theorem welcomeDelivered_invite :
    ∃ world, runOps sampleDirectory sampleAdmin freshTape (invitesOfTwo.take 2) = some world ∧
      WelcomeDelivered sampleDirectory world "bob" [1] := by
  have hrun : (runOps sampleDirectory sampleAdmin freshTape (invitesOfTwo.take 2)).isSome := by
    decide
  refine ⟨_, (Option.some_get hrun).symm, ?_⟩
  refine (welcomeDelivered_iff (Option.some_get hrun).symm rfl rfl).mpr ?_
  exact ⟨[], _, [], rfl, ⟨_, _, rfl, rfl⟩, fun _ henv => absurd henv List.not_mem_nil,
    fun _ henv => absurd henv List.not_mem_nil⟩

end SafeHub
