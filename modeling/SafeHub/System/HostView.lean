import SafeHub.System.Secrecy

/-!
# What the host learns

A Welcome is encrypted to the invited leaf, but the grant queued with it carries
the token of the window in the clear. The host therefore learns no secret of the
repository exactly as long as no grant is queued.

## Main results

* `hostConfidential_iff` — exactly which runs keep the host ignorant
-/

namespace SafeHub

open DolevYao OpenMlsGroup

variable {dir : Directory Bytes} {admin : MlDsa87KeyPair} {world : SymWorld}
variable {ops : List Op} {op : Op}

/-- The secrets of a repository: transport exports, interval tokens and epoch keys. -/
def World.Secret (world : SymWorld) (t : Msg) : Prop :=
  (∃ user material, (world.devices user).material = some material ∧
    (t = material.transport ∨ material.dkrToken = some t)) ∨
  ∃ epoch, world.EpochKey epoch t

/-- Whatever the host has been handed by the end of the run, it derives none of the
secrets that the repository ever had. -/
def HostConfidential (dir : Directory Bytes) (admin : MlDsa87KeyPair) (ops : List Op) : Prop :=
  ∀ before after world secret, ops = before ++ after →
    runOps dir admin freshTape before = some world → world.Secret secret →
      ¬ Derives (RunView World.hostView dir admin ops) secret

/-- Neither a leaf key nor a data-encryption key. -/
def Fresh.IsSecret : Fresh → Prop
  | .epoch _ | .init _ | .seeded _ | .reinit _ | .block _ => True
  | .dek _ | .leaf _ => False

/-- The names to hide from the host. -/
def secretNames : Set Fresh := {f | f.IsSecret}

theorem noPublic_secretNames : NoPublic secretNames where
  leaf := fun _ h => h
  dek := fun _ h => h

/-- An operation that queues no grant respects a split that hides everything. -/
theorem stepSplit_univ {i epoch : ℕ} (h : op.queuesGrant = false) :
    StepSplit secretNames Set.univ i epoch op where
  hide := fun _ _ => ⟨trivial, trivial, trivial, trivial⟩
  reveal := fun _ hout => absurd (Set.mem_univ epoch) hout
  queued := fun hqueued => by rw [h] at hqueued; cases hqueued
  forward := by
    rintro user graft rfl
    cases h
  full := by
    rintro user graft rfl
    cases h

theorem split_univ_along_run {before after : List Op}
    (hquiet : ∀ op ∈ ops, op.queuesGrant = false) (hops : ops = before ++ after)
    (hrun : runOps dir admin freshTape before = some world) :
    Split secretNames Set.univ dir world := by
  refine split_along_run noPublic_secretNames ?_ (fun pre op post hlabel => ?_) hops hrun
  · exact iff_of_true (Set.mem_univ 0) trivial
  · apply stepSplit_univ
    apply hquiet
    rw [hlabel]
    exact List.mem_append_right pre List.mem_cons_self

/-- A run without grants leaves every secret hidden. -/
theorem Split.secret_not_open {secret : Msg} (hsplit : Split secretNames Set.univ dir world)
    (hsecret : world.Secret secret) : ¬ secret.Open secretNames := by
  rcases hsecret with ⟨v, material, hmaterial, hcase⟩ | ⟨epoch, hkey⟩
  · by_cases howner : v = dir.owner
    · subst howner
      have hmat := hsplit.owner material hmaterial
      rcases hcase with rfl | htoken
      · exact hmat.transport_hidden (Set.mem_univ _)
      · apply hmat.seed_hidden material.epoch (Set.mem_univ _)
        rw [EpochMaterial.seedAt_self, EpochMaterial.intervalSeed, htoken]
        rfl
    · exact absurd EpochMaterial.seedAt_self
        (hsplit.outside v howner material hmaterial material.epoch (Set.mem_univ _) _)
  · exact hsplit.epochKey_not_open (Set.mem_univ epoch) trivial trivial hkey

theorem hostConfidential_of_quiet (hquiet : ∀ op ∈ ops, op.queuesGrant = false) :
    HostConfidential dir admin ops := by
  intro before after world secret hops hbefore hsecret
  have hsplit := split_univ_along_run hquiet hops hbefore
  apply not_derives_of_not_open (hsplit.secret_not_open hsecret)
  rintro t ⟨pre, post, w, hpre, hw, ht⟩
  exact (split_univ_along_run hquiet hpre hw).open_hostView t ht

/-- An invite hands the host every part of a grant made of the owner's material. -/
theorem exists_queued_grant {before : SymWorld} {user : UserId} {forwardOnly : Bool}
    {graft : Option Bytes}
    (hstep : step dir freshTape before (.invite user forwardOnly graft) = some world) :
    ∃ material token invitation blob vk, (world.devices dir.owner).material = some material ∧
      material.dkrToken = some token ∧ token ≠ SeedKdf.zeroSeed ∧
      (welcomeGrant invitation material token forwardOnly blob vk).msgs ⊆ world.hostView := by
  obtain ⟨after, heffect, rfl⟩ := effect_of_step hstep
  cases heffect with
  | @invite _ _ _ group keyPackage interval hgroup hpackage hnew hinterval =>
    let added := addedGroup group keyPackage (freshTape before.clock).epochSecret
    let invitation := addedInvitation group keyPackage (freshTape before.clock).epochSecret
    obtain ⟨env, henv, blob, vk, hpayload⟩ := exists_grant_afterInvite dir before user added
      invitation interval.token forwardOnly graft
    refine ⟨movedMaterial dir added interval.token (before.devices dir.owner), interval.token,
      invitation, blob, vk, ?_, ?_, token_ne_zeroSeed hinterval, fun t ht => ?_⟩
    · simp only [afterInvite_devices, if_true]
      rfl
    · rw [movedMaterial, EpochMaterial.inherit_dkrToken]
      rfl
    · refine .inl (.inl ⟨env, henv, ?_⟩)
      rw [hpayload]
      exact ht

/-- The token of an invite gives the key of the epoch it opens, within the segment
capacity. -/
theorem exists_epochKey_of_invite {pre : List Op} {user : UserId} {forwardOnly : Bool}
    {graft : Option Bytes}
    (hrun : runOps dir admin freshTape (pre ++ [.invite user forwardOnly graft]) = some world)
    (hcap : pre.countP Op.movesEpoch + 1 < dkrSegmentCapacity) :
    ∃ key, world.EpochKey (pre.countP Op.movesEpoch + 1) key ∧ Derives world.hostView key := by
  obtain ⟨before, -, hinvite⟩ := Run.run_concat_eq_some.mp hrun
  obtain ⟨group, material, howned, hepoch, -⟩ := owned_of_runOps hrun
  obtain ⟨sent, token, invitation, blob, vk, hsent, htoken, hzero, hmsgs⟩ :=
    exists_queued_grant hinvite
  obtain rfl := Option.some.inj (howned.material_eq.symm.trans hsent)
  have hepoch' : material.epoch = pre.countP Op.movesEpoch + 1 := by
    rw [howned.epoch, hepoch, List.countP_append, List.countP_singleton]
    rfl
  have hseed : material.intervalSeed = token := by
    rw [EpochMaterial.intervalSeed, htoken]
    rfl
  rw [← hseed] at hzero
  refine ⟨SeedKdf.expand material.intervalSeed (dkrEpochInfo material.epoch),
    ⟨dir.owner, material, howned.material_eq, ?_⟩, .kdf _ (.known ?_)⟩
  · rw [← hepoch'] at hcap ⊢
    exact EpochMaterial.epochKeyAt_current (howned.historyFrom.le.trans (Nat.zero_le _)) hcap hzero
  · rw [hseed]
    exact hmsgs (.inl (.inl (.inl (.inl rfl))))

theorem quiet_of_hostConfidential (hrun : runOps dir admin freshTape ops = some world)
    (hconfidential : HostConfidential dir admin ops) : ∀ op ∈ ops, op.queuesGrant = false := by
  intro op hop
  by_contra hqueues
  rw [Bool.not_eq_false] at hqueues
  obtain ⟨user, forwardOnly, graft, rfl⟩ := Op.eq_invite_of_queuesGrant hqueues
  obtain ⟨pre, post, rfl⟩ := List.append_of_mem hop
  obtain ⟨before, hbefore, hrest⟩ := Run.run_append_eq_some.mp hrun
  obtain ⟨invited, hinvite, -⟩ := Run.run_cons_eq_some.mp hrest
  have hinvited : runOps dir admin freshTape (pre ++ [.invite user forwardOnly graft]) =
      some invited := Run.run_concat_eq_some.mpr ⟨before, hbefore, hinvite⟩
  obtain ⟨material, token, invitation, blob, vk, hmaterial, htoken, -, hmsgs⟩ :=
    exists_queued_grant hinvite
  apply hconfidential _ post invited token (by simp) hinvited
    (.inl ⟨dir.owner, material, hmaterial, .inr htoken⟩)
  exact .known ⟨_, post, invited, by simp, hinvited, hmsgs (.inl (.inl (.inl (.inl rfl))))⟩

/-- The host derives no secret of the repository exactly as long as no invite
queues its grant. -/
theorem hostConfidential_iff (hrun : runOps dir admin freshTape ops = some world) :
    HostConfidential dir admin ops ↔ ∀ op ∈ ops, op.queuesGrant = false :=
  ⟨quiet_of_hostConfidential hrun, hostConfidential_of_quiet⟩

/-- A push, a collaboration message and a rotation tell the host nothing. -/
theorem hostConfidential_push_rotate :
    HostConfidential sampleDirectory sampleAdmin
      [.push "alice" [1] [2] false, .collab "alice" [3], .rotate, .push "alice" [4] [5] false] := by
  obtain ⟨world, hrun⟩ : ∃ world, runOps sampleDirectory sampleAdmin freshTape
      [.push "alice" [1] [2] false, .collab "alice" [3], .rotate,
        .push "alice" [4] [5] false] = some world :=
    Option.isSome_iff_exists.mp (by decide)
  exact (hostConfidential_iff hrun).mpr (by decide)

/-- One invite hands the host the token of the new epoch. -/
theorem not_hostConfidential_invite :
    (∃ world, runOps sampleDirectory sampleAdmin freshTape
      [.invite "bob" false none] = some world) ∧
    ¬ HostConfidential sampleDirectory sampleAdmin [.invite "bob" false none] := by
  obtain ⟨world, hrun⟩ : ∃ world, runOps sampleDirectory sampleAdmin freshTape
      [.invite "bob" false none] = some world :=
    Option.isSome_iff_exists.mp (by decide)
  refine ⟨⟨world, hrun⟩, fun hconfidential => ?_⟩
  exact absurd (quiet_of_hostConfidential hrun hconfidential _ (List.mem_singleton_self _))
    (by decide)

end SafeHub
