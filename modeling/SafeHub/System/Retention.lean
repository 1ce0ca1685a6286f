import SafeHub.System.Symbolic

/-!
# Past heads stay decryptable

A head is sealed under the key of its epoch, so the owner's device has to derive
that key from all its later materials. Inheriting retains the transport seed of a
superseded epoch, while the epoch was sealed under the token of its window. The
two agree unless a forward-only invite reseeded the token; and beyond the segment
capacity no earlier key is derived at all.

## Main results

* `Retains.of_run` — what a later material retains of an earlier one
* `pastKeysKept_iff` — exactly which runs keep every key derivable
-/

namespace SafeHub

open OpenMlsGroup
open Std (ExtTreeMap)

variable {E S K L : Type} [MlsExporter E S K] [SeedKdf S K] [KeyKdf K]
variable [DecidableEq S] [DecidableEq K] [DecidableEq L]
variable {dir : Directory L} {admin : MlDsa87KeyPair} {tape : ℕ → OpDraws E S K}
variable {world next : World E S K L} {ops more : List Op} {op : Op}

/-! ### The property and its condition -/

/-- Every key that the owner's device can derive at some point of the run, it
derives from every later material as well. -/
def PastKeysKept (dir : Directory L) (admin : MlDsa87KeyPair) (tape : ℕ → OpDraws E S K)
    (ops : List Op) : Prop :=
  ∀ before after (earlier later : World E S K L) material material',
    ops = before ++ after →
    runOps dir admin tape before = some earlier →
    Run.run (step dir tape) earlier after = some later →
    (earlier.devices dir.owner).material = some material →
    (later.devices dir.owner).material = some material' →
    ∀ draws draws' epoch key, material.epochKeyAt draws epoch = .ok key →
      material'.epochKeyAt draws' epoch = .ok key

/-- No forward-only invite is followed by another change of the epoch, and the
epochs stay within one segment. -/
structure RetentionSafe (ops : List Op) : Prop where
  forwardOnlyLast : ∀ pre invite user post, ops = pre ++ invite :: post →
    invite.adds = some (user, true) → ∀ op ∈ post, op.movesEpoch = false
  capacity : ops.countP Op.movesEpoch < dkrSegmentCapacity

/-- Exports and block seeds are nonzero. -/
structure NonzeroSeeds (dir : Directory L) (tape : ℕ → OpDraws E S K) : Prop where
  transport_ne_zero : ∀ i,
    MlsExporter.exportTransport (tape i).epochSecret dir.repo ≠ SeedKdf.zeroSeed
  block_ne_zero : ∀ i, (tape i).block ≠ SeedKdf.zeroSeed

/-- Fresh values are as good as random: moreover, an epoch key expanded from a block
seed is not one expanded from an export. -/
structure IdealSeeds (dir : Directory L) (tape : ℕ → OpDraws E S K) : Prop extends
    NonzeroSeeds dir tape where
  keys_ne : ∀ i j epoch, SeedKdf.expand (tape i).block (dkrEpochInfo epoch) ≠
    SeedKdf.expand (MlsExporter.exportTransport (tape j).epochSecret dir.repo)
      (dkrEpochInfo epoch)

/-! ### What is retained -/

/-- The last change of the epoch is a forward-only invite. -/
def EndsForwardOnly (ops : List Op) : Prop :=
  ∃ pre invite user post, ops = pre ++ invite :: post ∧ invite.adds = some (user, true) ∧
    ∀ op ∈ post, op.movesEpoch = false

/-- A later material still has the seeds of an earlier one: it is the same
material, or a later epoch's whose retained seeds extend it. -/
def Retains (material later : EpochMaterial S K) : Prop :=
  later = material ∨
    material.epoch < later.epoch ∧
    later.priorTransport[material.epoch]? = some (some material.transport) ∧
    ∀ e < material.epoch, later.priorTransport[e]? = material.priorTransport[e]?

/-- Where the seeds of the owner's material come from. -/
structure SeedsDrawn (dir : Directory L) (tape : ℕ → OpDraws E S K) (ops : List Op)
    (group : OpenMlsGroup E L) (material : EpochMaterial S K) : Prop where
  epoch : material.epoch = ops.countP Op.movesEpoch
  secret : ∃ i, group.state.secret = (tape i).epochSecret
  prior : ∀ (e : ℕ) (x : SeedVec S), material.priorTransport[e]? = some x →
    ∃ i, x = some (MlsExporter.exportTransport (tape i).epochSecret dir.repo)
  token : material.intervalSeed = material.transport ∨
    (EndsForwardOnly ops ∧ ∃ i, material.intervalSeed = (tape i).block) ∨
    dkrSegmentCapacity ≤ material.epoch

theorem EndsForwardOnly.concat (h : EndsForwardOnly ops) (hop : op.movesEpoch = false) :
    EndsForwardOnly (ops ++ [op]) := by
  obtain ⟨pre, invite, user, post, rfl, hadds, hpost⟩ := h
  refine ⟨pre, invite, user, post ++ [op], by simp, hadds, fun op' hmem => ?_⟩
  rcases List.mem_append.mp hmem with hold | hlast
  · exact hpost op' hold
  · rw [List.mem_singleton.mp hlast, hop]

omit [SeedKdf S K] [KeyKdf K] [DecidableEq S] [DecidableEq K] in
/-- Inheriting from the material of the epoch before retains its transport seed. -/
theorem retains_inherit {material new : EpochMaterial S K}
    (hepoch : new.epoch = material.epoch + 1) : Retains material (new.inherit (some material)) := by
  have hne : material.epoch ≠ new.epoch := by omega
  refine .inr ⟨by rw [EpochMaterial.inherit_epoch]; omega, ?_, fun e he => ?_⟩
  · rw [EpochMaterial.inherit_priorTransport_getElem? hne, if_pos rfl]
  · rw [EpochMaterial.inherit_priorTransport_getElem? hne, if_neg he.ne']

omit [SeedKdf S K] [KeyKdf K] [DecidableEq S] [DecidableEq K] in
theorem Retains.trans {material middle later : EpochMaterial S K} (h : Retains material middle)
    (h' : Retains middle later) : Retains material later := by
  rcases h with rfl | ⟨hlt, htransport, hprior⟩
  · exact h'
  · rcases h' with rfl | ⟨hlt', -, hprior'⟩
    · exact .inr ⟨hlt, htransport, hprior⟩
    · refine .inr ⟨hlt.trans hlt', (hprior' _ hlt).trans htransport, fun e he => ?_⟩
      rw [hprior' e (he.trans hlt), hprior e he]

omit [DecidableEq L] [KeyKdf K] [DecidableEq K] in
theorem OwnerStep.retains {draws : OpDraws E S K} {group group' : OpenMlsGroup E L}
    {material material' : EpochMaterial S K}
    (hstep : OwnerStep dir draws group material op group' material')
    (hepoch : material.epoch = group.epoch) : Retains material material' := by
  cases hstep with
  | invite hop => exact retains_inherit (congrArg (· + 1) hepoch.symm)
  | rotate hop => exact retains_inherit (congrArg (· + 1) hepoch.symm)
  | stay hop => exact .inl rfl

/-- What a later material retains of an earlier one, and how far it moved. -/
theorem Retains.of_run {group : OpenMlsGroup E L} {material : EpochMaterial S K}
    (howned : Owned dir world group material)
    (hrun : Run.run (step dir tape) world more = some next) :
    ∃ group' material', Owned dir next group' material' ∧ Retains material material' ∧
      material'.epoch = material.epoch + more.countP Op.movesEpoch := by
  refine Run.run_induction
    (P := fun labels w => ∃ group' material', Owned dir w group' material' ∧
      Retains material material' ∧
      material'.epoch = material.epoch + labels.countP Op.movesEpoch)
    ⟨group, material, howned, .inl rfl, rfl⟩ ?_ hrun
  rintro labels w op w' - ⟨group', material', howned', hretains, hepoch⟩ hstep
  obtain ⟨group'', material'', howned'', hmove⟩ := howned'.step hstep
  refine ⟨group'', material'', howned'', hretains.trans (hmove.retains howned'.epoch), ?_⟩
  rw [hmove.epoch howned'.epoch, hepoch, List.countP_append, List.countP_singleton, Nat.add_assoc]

omit [MlsExporter E S K] [KeyKdf K] [DecidableEq K] in
/-- Whatever a full-history invite or a rotation seals under within the first
segment is the transport seed itself. -/
theorem joinInterval_full_of_lt {draws : OpDraws E S K} {transport : S} {epoch : ℕ}
    {interval : DkrInterval S} (hzero : transport ≠ SeedKdf.zeroSeed)
    (hlt : epoch < dkrSegmentCapacity)
    (h : joinInterval draws transport epoch false = .ok interval) : interval.token = transport := by
  have hinit : ((IntervalDkr.withSeed transport).init draws.initSeed).1 =
      IntervalDkr.withSeed transport := by
    rw [IntervalDkr.init, ensureSeeded_withSeed, if_neg hzero]
    rfl
  simp only [joinInterval, hinit, advance_withSeed_of_lt hzero draws.advance hlt] at h
  obtain rfl := Except.ok.inj h
  rfl

omit [MlsExporter E S K] [KeyKdf K] [DecidableEq K] in
theorem joinInterval_forward {draws : OpDraws E S K} {transport : S} {epoch : ℕ}
    {interval : DkrInterval S} (h : joinInterval draws transport epoch true = .ok interval) :
    interval.token = draws.block := by
  obtain rfl := Except.ok.inj h
  rfl

omit [KeyKdf K] [DecidableEq K] [DecidableEq L] in
theorem SeedsDrawn.concat {group group' : OpenMlsGroup E L} {material material' : EpochMaterial S K}
    {i : ℕ} (hseeds : NonzeroSeeds dir tape) (howned : Owned dir world group material)
    (hdrawn : SeedsDrawn dir tape ops group material)
    (hstep : OwnerStep dir (tape i) group material op group' material') :
    SeedsDrawn dir tape (ops ++ [op]) group' material' := by
  have hepoch : material'.epoch = (ops ++ [op]).countP Op.movesEpoch := by
    rw [hstep.epoch howned.epoch, hdrawn.epoch, List.countP_append, List.countP_singleton]
  -- after a move, a retained seed is the previous export or was retained before
  have hprior : ∀ token (g : OpenMlsGroup E L), g.epoch = group.epoch + 1 → ∀ (e : ℕ)
      (x : SeedVec S),
      ((exporterMaterial dir g token).inherit (some material)).priorTransport[e]? = some x →
      ∃ i, x = some (MlsExporter.exportTransport (tape i).epochSecret dir.repo) := by
    intro token g hg e x hx
    have hne : material.epoch ≠ (exporterMaterial dir g token).epoch := by
      rw [howned.epoch]
      change group.epoch ≠ g.epoch
      omega
    rw [EpochMaterial.inherit_priorTransport_getElem? hne] at hx
    split_ifs at hx with heq
    · obtain ⟨j, hj⟩ := hdrawn.secret
      refine ⟨j, ?_⟩
      rw [← Option.some.inj hx, howned.transport, exportEpochKeys, hj]
    · exact hdrawn.prior e x hx
  cases hstep with
  | @invite user forwardOnly _ _ hop _ _ hinterval =>
    refine ⟨hepoch, ⟨i, rfl⟩, hprior _ _ rfl, ?_⟩
    cases forwardOnly with
    -- the token of a forward-only invite is a fresh block
    | true =>
      refine .inr (.inl ⟨⟨ops, op, user, [], rfl, hop, by simp⟩, i, ?_⟩)
      simp [EpochMaterial.intervalSeed, exporterMaterial, joinInterval_forward hinterval]
    | false =>
      -- within the first segment a full interval carries the export as its token
      rcases Nat.lt_or_ge (group.epoch + 1) dkrSegmentCapacity with hlt | hge
      · refine .inl ?_
        rw [EpochMaterial.intervalSeed, EpochMaterial.inherit_dkrToken,
          EpochMaterial.inherit_transport]
        exact joinInterval_full_of_lt (hseeds.transport_ne_zero i) hlt hinterval
      · exact .inr (.inr (by rw [EpochMaterial.inherit_epoch]; exact hge))
  | rotate hop =>
    refine ⟨hepoch, ⟨i, rfl⟩, hprior _ _ rfl, .inl ?_⟩
    simp [EpochMaterial.intervalSeed, exporterMaterial]
  | stay hop =>
    refine ⟨hepoch, hdrawn.secret, hdrawn.prior, ?_⟩
    rcases hdrawn.token with htoken | ⟨hends, hblock⟩ | hcap
    · exact .inl htoken
    · exact .inr (.inl ⟨hends.concat hop, hblock⟩)
    · exact .inr (.inr hcap)

theorem seedsDrawn_of_runOps (hseeds : NonzeroSeeds dir tape)
    (hrun : runOps dir admin tape ops = some world) :
    ∃ group material, Owned dir world group material ∧
      SeedsDrawn dir tape ops group material := by
  refine Run.run_induction
    (P := fun labels w => ∃ group material, Owned dir w group material ∧
      SeedsDrawn dir tape labels group material) ?_ ?_ hrun
  · refine ⟨_, _, owned_bootstrap admin, rfl, ⟨0, rfl⟩, fun e x hx => ?_, .inl rfl⟩
    simp [exporterMaterial] at hx
  · rintro labels w op w' - ⟨group, material, howned, hdrawn⟩ hstep
    obtain ⟨group', material', howned', hmove⟩ := howned.step hstep
    exact ⟨group', material', howned', hdrawn.concat hseeds howned hmove⟩

/-! ### Keys of the owner's device -/

section Keys

variable {group : OpenMlsGroup E L} {material : EpochMaterial S K} {epoch : ℕ} {key : K}
variable {draws : Draws S}

omit [DecidableEq K] [DecidableEq L] [KeyKdf K]

omit [DecidableEq S] in
/-- Within the first segment the seed of the current epoch is not the zero seed. -/
theorem SeedsDrawn.intervalSeed_ne_zero (hseeds : NonzeroSeeds dir tape)
    (howned : Owned dir world group material) (hdrawn : SeedsDrawn dir tape ops group material)
    (hcap : material.epoch < dkrSegmentCapacity) : material.intervalSeed ≠ SeedKdf.zeroSeed := by
  rcases hdrawn.token with htransport | ⟨-, i, hblock⟩ | hge
  · obtain ⟨i, hi⟩ := hdrawn.secret
    rw [htransport, howned.transport, exportEpochKeys, hi]
    exact hseeds.transport_ne_zero i
  · rw [hblock]
    exact hseeds.block_ne_zero i
  · omega

/-- What the owner's device derives is expanded from the seed of a current or
retained epoch. -/
theorem SeedsDrawn.seed_of_key (hseeds : NonzeroSeeds dir tape)
    (howned : Owned dir world group material) (hdrawn : SeedsDrawn dir tape ops group material)
    (hcap : material.epoch < dkrSegmentCapacity)
    (hkey : material.epochKeyAt draws epoch = .ok key) :
    ∃ seed, key = SeedKdf.expand seed (dkrEpochInfo epoch) ∧ seed ≠ SeedKdf.zeroSeed ∧
      (epoch = material.epoch ∧ seed = material.intervalSeed ∨
        epoch < material.epoch ∧ material.priorTransport[epoch]? = some (some seed)) := by
  obtain ⟨hwindow, seed, -, hseed, -⟩ := EpochMaterial.epochKeyAt_eq_ok hkey
  -- the current epoch has the seed of the interval, an earlier one its retained seed
  by_cases heq : epoch = material.epoch
  · subst heq
    rw [EpochMaterial.seedAt_self] at hseed
    have hzero := hdrawn.intervalSeed_ne_zero hseeds howned hcap
    rw [EpochMaterial.epochKeyAt_current hwindow hcap hzero] at hkey
    exact ⟨_, (Except.ok.inj hkey).symm, hzero, .inl ⟨rfl, rfl⟩⟩
  · have hprior := (EpochMaterial.seedAt_of_ne heq).mp hseed
    obtain ⟨i, hi⟩ := hdrawn.prior epoch _ hprior
    have hzero : seed ≠ SeedKdf.zeroSeed := by
      rw [Option.some.inj hi]
      exact hseeds.transport_ne_zero i
    have hlt : epoch < material.epoch :=
      howned.prior_lt epoch (ExtTreeMap.mem_iff_isSome_getElem?.mpr (by simp [hprior]))
    rw [EpochMaterial.epochKeyAt_prior hwindow hlt hcap hprior hzero] at hkey
    exact ⟨seed, (Except.ok.inj hkey).symm, hzero, .inr ⟨hlt, hprior⟩⟩

/-- A key is derived from a later material as well, unless the seed of its epoch was
a block that the later material has lost. -/
theorem SeedsDrawn.key_of_retains {material' : EpochMaterial S K} {draws' : Draws S}
    (hseeds : NonzeroSeeds dir tape) (howned : Owned dir world group material)
    (hdrawn : SeedsDrawn dir tape ops group material) (hretains : Retains material material')
    (hfull : material'.historyFrom = 0) (hcap : material'.epoch < dkrSegmentCapacity)
    (htoken : material'.epoch = material.epoch ∨ material.intervalSeed = material.transport)
    (hkey : material.epochKeyAt draws epoch = .ok key) :
    material'.epochKeyAt draws' epoch = .ok key := by
  have hle : material.epoch ≤ material'.epoch := by
    rcases hretains with rfl | ⟨hlt, -⟩
    · exact le_rfl
    · exact hlt.le
  have hwindow : material'.historyFrom ≤ epoch := hfull.le.trans (Nat.zero_le epoch)
  obtain ⟨seed, rfl, hzero, hseed⟩ :=
    hdrawn.seed_of_key hseeds howned (hle.trans_lt hcap) hkey
  -- either the material is still the same, or it has moved and retains the seeds
  rcases hretains with rfl | ⟨hlt, htransport, hprior⟩
  · rcases hseed with ⟨rfl, rfl⟩ | ⟨hepoch, hseed⟩
    · exact EpochMaterial.epochKeyAt_current hwindow hcap hzero
    · exact EpochMaterial.epochKeyAt_prior hwindow hepoch hcap hseed hzero
  · rcases hseed with ⟨rfl, rfl⟩ | ⟨hepoch, hseed⟩
    · -- the current seed, retained as the export of its epoch
      have hsame : material.intervalSeed = material.transport := htoken.resolve_left hlt.ne'
      rw [hsame] at hzero ⊢
      exact EpochMaterial.epochKeyAt_prior hwindow hlt hcap htransport hzero
    · refine EpochMaterial.epochKeyAt_prior hwindow (hepoch.trans hlt) hcap ?_ hzero
      rw [hprior epoch hepoch, hseed]

end Keys

/-! ### Exactly which runs keep every key -/

/-- Later materials derive every earlier key on a safe run. -/
theorem pastKeysKept_of_retentionSafe (hseeds : NonzeroSeeds dir tape) (hsafe : RetentionSafe ops) :
    PastKeysKept dir admin tape ops := by
  intro before after earlier later material material' hops hbefore hafter hmaterial hmaterial'
    draws draws' epoch key hkey
  subst hops
  obtain ⟨group, drawn, howned, hdrawn⟩ := seedsDrawn_of_runOps hseeds hbefore
  obtain rfl := Option.some.inj (howned.material_eq.symm.trans hmaterial)
  obtain ⟨group', moved, howned', hretains, hepoch⟩ := Retains.of_run howned hafter
  obtain rfl := Option.some.inj (howned'.material_eq.symm.trans hmaterial')
  have hcap : moved.epoch < dkrSegmentCapacity := by
    rw [hepoch, hdrawn.epoch, ← List.countP_append]
    exact hsafe.capacity
  refine hdrawn.key_of_retains hseeds howned hretains howned'.historyFrom hcap ?_ hkey
  rcases hdrawn.token with htransport | ⟨⟨pre, invite, user, post, rfl, hadds, -⟩, -⟩ | hge
  · exact .inr htransport
  · -- after a forward-only invite nothing moves the epoch any more
    have hstays : after.countP Op.movesEpoch = 0 := by
      rw [List.countP_eq_zero]
      intro op hop
      have hmem : op ∈ post ++ after := List.mem_append_right post hop
      rw [hsafe.forwardOnlyLast pre invite user (post ++ after) (by simp) hadds op hmem]
      exact Bool.false_ne_true
    exact .inl (by rw [hepoch, hstays, Nat.add_zero])
  · omega

/-- From the capacity on, the key of the first epoch is out of reach. -/
theorem capacity_of_pastKeysKept (hideal : IdealSeeds dir tape)
    (hrun : runOps dir admin tape ops = some world) (hkept : PastKeysKept dir admin tape ops) :
    ops.countP Op.movesEpoch < dkrSegmentCapacity := by
  have howned₀ : Owned dir (bootstrapRepoGroup dir admin (tape 0)) _ _ := owned_bootstrap admin
  obtain ⟨group, material, howned, -, hepoch⟩ := Retains.of_run howned₀ hrun
  by_contra hcap
  have hzero := hideal.transport_ne_zero 0
  have hfirst : EpochMaterial.epochKeyAt _ (tape 0).advance _ = .ok _ :=
    EpochMaterial.epochKeyAt_current howned₀.historyFrom.le
      (by decide : (0 : ℕ) < dkrSegmentCapacity) hzero
  have hlast := hkept [] ops _ world _ material rfl rfl hrun howned₀.material_eq
    howned.material_eq _ (tape 0).advance _ _ hfirst
  rw [show (exporterMaterial dir (createGroup dir.ownerLeaf (tape 0).epochSecret) _).epoch = 0
    from rfl, Nat.zero_add] at hepoch
  refine EpochMaterial.epochKeyAt_error_of_capacity howned.historyFrom ?_ ?_ _ hlast
  · rw [hepoch]
    exact (by decide : 0 < dkrSegmentCapacity).trans_le (Nat.not_lt.mp hcap)
  · rw [hepoch]
    exact Nat.not_lt.mp hcap

omit [DecidableEq L] [KeyKdf K] [DecidableEq K] in
/-- A forward-only invite seals its epoch under a block that is not the export. -/
theorem OwnerStep.block {draws : OpDraws E S K} {group group' : OpenMlsGroup E L}
    {material material' : EpochMaterial S K} {user : UserId}
    (hstep : OwnerStep dir draws group material op group' material')
    (hadds : op.adds = some (user, true)) :
    material'.intervalSeed = draws.block ∧
      material'.transport = MlsExporter.exportTransport draws.epochSecret dir.repo := by
  cases hstep with
  | invite hop hpackage hnew hinterval =>
    obtain ⟨-, rfl⟩ := Prod.mk.inj (Option.some.inj (hop.symm.trans hadds))
    rw [EpochMaterial.intervalSeed, EpochMaterial.inherit_dkrToken,
      EpochMaterial.inherit_transport]
    exact ⟨joinInterval_forward hinterval, rfl⟩
  | rotate hop =>
    rcases hop with rfl | ⟨removed, rfl⟩
    · cases hadds
    · cases hadds
  | stay hop =>
    rw [Op.movesEpoch_of_adds hadds] at hop
    cases hop

/-- After a forward-only invite the next move loses the key of the invite's epoch. -/
theorem forwardOnlyLast_of_pastKeysKept (hideal : IdealSeeds dir tape)
    (hrun : runOps dir admin tape ops = some world) (hkept : PastKeysKept dir admin tape ops)
    (hcap : ops.countP Op.movesEpoch < dkrSegmentCapacity) :
    ∀ pre invite user post, ops = pre ++ invite :: post → invite.adds = some (user, true) →
      ∀ op ∈ post, op.movesEpoch = false := by
  intro pre invite user post hops hadds op hop
  by_contra hmoves
  rw [Bool.not_eq_false] at hmoves
  subst hops
  obtain ⟨before, hbefore, hrest⟩ := Run.run_append_eq_some.mp hrun
  obtain ⟨invited, hinvite, hpost⟩ := Run.run_cons_eq_some.mp hrest
  obtain ⟨group, material, howned, hdrawn⟩ := seedsDrawn_of_runOps hideal.toNonzeroSeeds hbefore
  obtain ⟨group₁, material₁, howned₁, hstep⟩ := howned.step hinvite
  obtain ⟨group₂, material₂, howned₂, hretains, hepoch₂⟩ := Retains.of_run howned₁ hpost
  obtain ⟨hblock, htransport⟩ := hstep.block hadds
  have hepoch₁ : material₁.epoch = (pre ++ [invite]).countP Op.movesEpoch :=
    (hdrawn.concat hideal.toNonzeroSeeds howned hstep).epoch
  have hlt : material₁.epoch < material₂.epoch := by
    have hpos : 0 < post.countP Op.movesEpoch := List.countP_pos_iff.mpr ⟨op, hop, hmoves⟩
    omega
  have hcap₂ : material₂.epoch < dkrSegmentCapacity := by
    rw [hepoch₂, hepoch₁, ← List.countP_append]
    simpa using hcap
  -- before the move the key comes from the block
  have hsealed : material₁.epochKeyAt (tape 0).advance material₁.epoch =
      .ok (SeedKdf.expand (tape before.clock).block (dkrEpochInfo material₁.epoch)) := by
    rw [← hblock]
    refine EpochMaterial.epochKeyAt_current ?_ (hlt.trans hcap₂) ?_
    · exact howned₁.historyFrom.le.trans (Nat.zero_le _)
    · rw [hblock]
      exact hideal.block_ne_zero before.clock
  -- after it from the retained export
  have hlater : material₂.epochKeyAt (tape 0).advance material₁.epoch =
      .ok (SeedKdf.expand material₁.transport (dkrEpochInfo material₁.epoch)) := by
    obtain hsame | ⟨-, hprior, -⟩ := hretains
    · exact absurd (congrArg EpochMaterial.epoch hsame) hlt.ne'
    · refine EpochMaterial.epochKeyAt_prior ?_ hlt hcap₂ hprior ?_
      · exact howned₂.historyFrom.le.trans (Nat.zero_le _)
      · rw [htransport]
        exact hideal.transport_ne_zero before.clock
  have hinvited : runOps dir admin tape (pre ++ [invite]) = some invited :=
    Run.run_concat_eq_some.mpr ⟨before, hbefore, hinvite⟩
  -- the two keys would have to be one
  have hkeep := hkept (pre ++ [invite]) post invited world material₁ material₂ (by simp) hinvited
    hpost howned₁.material_eq howned₂.material_eq _ (tape 0).advance _ _ hsealed
  rw [htransport] at hlater
  exact hideal.keys_ne before.clock before.clock material₁.epoch
    (Except.ok.inj (hkeep.symm.trans hlater))

/-- Every later material derives every earlier key exactly when forward-only invites
come last and the epochs stay within one segment. -/
theorem pastKeysKept_iff (hideal : IdealSeeds dir tape)
    (hrun : runOps dir admin tape ops = some world) :
    PastKeysKept dir admin tape ops ↔ RetentionSafe ops := by
  refine ⟨fun hkept => ?_, pastKeysKept_of_retentionSafe hideal.toNonzeroSeeds⟩
  have hcap := capacity_of_pastKeysKept hideal hrun hkept
  exact ⟨forwardOnlyLast_of_pastKeysKept hideal hrun hkept hcap, hcap⟩

/-! ### On the symbolic tape -/

theorem idealSeeds_freshTape (dir : Directory Bytes) : IdealSeeds dir freshTape where
  transport_ne_zero := fun _ => exportTransport_ne_zeroSeed
  block_ne_zero := fun _ => nofun
  keys_ne := fun _ _ _ => nofun

/-- Inviting with full history and rotating keeps every key. -/
theorem pastKeysKept_invite_rotate :
    PastKeysKept sampleDirectory sampleAdmin freshTape [.invite "bob" false none, .rotate] := by
  obtain ⟨world, hrun⟩ : ∃ world, runOps sampleDirectory sampleAdmin freshTape
      [.invite "bob" false none, .rotate] = some world :=
    Option.isSome_iff_exists.mp (by decide)
  apply (pastKeysKept_iff (idealSeeds_freshTape sampleDirectory) hrun).mpr
  refine ⟨fun pre invite user post hops hadds => ?_, by decide⟩
  -- neither operation is a forward-only invite
  have hmem : invite ∈ [Op.invite "bob" false none, Op.rotate] := by
    rw [hops]
    exact List.mem_append_right pre List.mem_cons_self
  rcases List.mem_cons.mp hmem with rfl | hlast
  · cases hadds
  · obtain rfl := List.mem_singleton.mp hlast
    cases hadds

/-- A forward-only invite followed by a rotation loses the key that the invite's
epoch was sealed under. -/
theorem not_pastKeysKept_forwardOnly_rotate :
    (∃ world, runOps sampleDirectory sampleAdmin freshTape
      [.invite "bob" true none, .rotate] = some world) ∧
    ¬ PastKeysKept sampleDirectory sampleAdmin freshTape [.invite "bob" true none, .rotate] := by
  obtain ⟨world, hrun⟩ : ∃ world, runOps sampleDirectory sampleAdmin freshTape
      [.invite "bob" true none, .rotate] = some world :=
    Option.isSome_iff_exists.mp (by decide)
  refine ⟨⟨world, hrun⟩, fun hkept => ?_⟩
  have hlast := forwardOnlyLast_of_pastKeysKept (idealSeeds_freshTape sampleDirectory) hrun hkept
    (by decide)
  exact absurd (hlast [] _ _ [.rotate] rfl rfl .rotate (List.mem_singleton_self _)) (by decide)

end SafeHub
