import SafeHub.System.Retention

/-!
# Do sealed objects survive epoch changes?

Release assets, large files and gists are sealed under a key of the transport export that the
device holds when it stores them, and opened under a key of the export it holds when it reads
them. The retained exports of earlier epochs are never tried. So an object is lost with the
first change of the group after it was stored.

## Main definitions

* `ObjectStore`, `ObjectOp` — the repository with its sealed objects
* `putSealedObject`, `getSealedObject` — storing and reading an object
* `ObjectsSurvive` — devices read back what they stored
* `NoMoveAfterPut` — nothing moves the epoch after the owner has stored an object

## Main results

* `export_of_run` — the export of the owner's device after operations
* `objectsSurvive_iff` — exactly which runs lose no object
-/

namespace SafeHub

open OpenMlsGroup Run

variable {E S K L : Type} [MlsExporter E S K] [SeedKdf S K] [KeyKdf K]
variable [DecidableEq S] [DecidableEq K] [DecidableEq L]

/-! ### Objects -/

/-- The repository and the sealed objects on the host. An object is sealed under a random nonce,
so its content address is its own; it stands for the position in the list. -/
structure ObjectStore (E S K L : Type) where
  world : World E S K L
  objects : List (SealedBox K Bytes)

/-- Seal bytes and upload them; returns the content address. -/
def putSealedObject (dir : Directory L) (store : ObjectStore E S K L) (user : UserId)
    (plaintext : Bytes) : Except ClientError (ℕ × ObjectStore E S K L) :=
  match (store.world.devices user).material with
  | none => .error (.config "missing MLS epoch material")
  | some material =>
    if store.world.isMember dir user then
      let box := ⟨casSealKey material.transport, casAad, plaintext⟩
      .ok (store.objects.length, { store with objects := store.objects ++ [box] })
    else
      .error forbidden

/-- Download an object and open it. -/
def getSealedObject (dir : Directory L) (store : ObjectStore E S K L) (user : UserId) (id : ℕ) :
    Except ClientError Bytes :=
  match (store.world.devices user).material with
  | none => .error (.config "missing MLS epoch material")
  | some material =>
    if store.world.isMember dir user then
      match store.objects[id]? with
      | none => .error (.api 404 "")
      | some box =>
        match box.openWith (casSealKey material.transport) casAad with
        | .ok plaintext => .ok plaintext
        | .error e => .error (.aead e)
    else
      .error forbidden

/-- An operation on the repository, or the storing of an object. -/
inductive ObjectOp
  | repo (op : Op)
  | put (user : UserId) (plaintext : Bytes)
  deriving DecidableEq, Repr

/-- Whether it moves the owner's group to another epoch. -/
def ObjectOp.movesEpoch : ObjectOp → Bool
  | .repo op => op.movesEpoch
  | .put _ _ => false

/-- One successful operation. -/
def objectStep (dir : Directory L) (tape : ℕ → OpDraws E S K) (store : ObjectStore E S K L) :
    ObjectOp → Option (ObjectStore E S K L)
  | .repo op => (step dir tape store.world op).map fun next => { store with world := next }
  | .put user plaintext => ((putSealedObject dir store user plaintext).map Prod.snd).toOption

/-- The operations after bootstrap, one after the other. -/
def runObjects (dir : Directory L) (admin : MlDsa87KeyPair) (tape : ℕ → OpDraws E S K)
    (ops : List ObjectOp) : Option (ObjectStore E S K L) :=
  run (objectStep dir tape) ⟨bootstrapRepoGroup dir admin (tape 0), []⟩ ops

/-! ### The property and its condition -/

/-- A device that stored an object reads it back, as long as the host lets it in and it has not
joined again. -/
def ObjectsSurvive (dir : Directory L) (admin : MlDsa87KeyPair) (tape : ℕ → OpDraws E S K)
    (ops : List ObjectOp) (store : ObjectStore E S K L) : Prop :=
  ∀ front user plaintext back (before : ObjectStore E S K L) id stored,
    ops = front ++ .put user plaintext :: back → runObjects dir admin tape front = some before →
    putSealedObject dir before user plaintext = .ok (id, stored) →
    .repo (.accept user) ∉ back → store.world.isMember dir user →
    getSealedObject dir store user id = .ok plaintext

/-- Nothing moves the epoch once the owner, whose device makes the invites and rotations, has
stored an object. -/
def NoMoveAfterPut (dir : Directory L) (ops : List ObjectOp) : Prop :=
  ∀ front plaintext back, ops = front ++ .put dir.owner plaintext :: back →
    ∀ op ∈ back, op.movesEpoch = false

/-- Fresh exports are as good as random: they have different object keys. -/
def IdealExports (dir : Directory L) (tape : ℕ → OpDraws E S K) : Prop :=
  ∀ i j, casSealKey (K := K) (MlsExporter.exportTransport (tape i).epochSecret dir.repo) =
    casSealKey (MlsExporter.exportTransport (tape j).epochSecret dir.repo) → i = j

variable {dir : Directory L} {admin : MlDsa87KeyPair} {tape : ℕ → OpDraws E S K}
variable {world next : World E S K L} {store stored later : ObjectStore E S K L}
variable {ops : List Op} {op : Op} {user : UserId} {material : EpochMaterial S K}

/-! ### Reading an object -/

omit [MlsExporter E S K] [KeyKdf K] [DecidableEq S] [DecidableEq K] [DecidableEq L] in
theorem putSealedObject_eq_ok_iff {plaintext : Bytes} {id : ℕ} :
    putSealedObject dir store user plaintext = .ok (id, stored) ↔
      ∃ material, (store.world.devices user).material = some material ∧
        store.world.isMember dir user ∧ id = store.objects.length ∧
        stored = { store with
          objects := store.objects ++ [⟨casSealKey material.transport, casAad, plaintext⟩] } := by
  rw [putSealedObject]
  cases (store.world.devices user).material with
  | none => simp
  | some material =>
    by_cases hmember : store.world.isMember dir user
    · simp [hmember, eq_comm]
    · simp [hmember]

omit [MlsExporter E S K] [KeyKdf K] [DecidableEq S] [DecidableEq L] in
/-- An object opens under the key it was sealed under and under no other. -/
theorem getSealedObject_eq_ok_iff {plaintext : Bytes} {id : ℕ} {key : K}
    (hmaterial : (store.world.devices user).material = some material)
    (hmember : store.world.isMember dir user)
    (hbox : store.objects[id]? = some ⟨key, casAad, plaintext⟩) :
    getSealedObject dir store user id = .ok plaintext ↔ key = casSealKey material.transport := by
  simp only [getSealedObject, hmaterial, hmember, if_true, hbox, SealedBox.openWith, and_true]
  split_ifs with hkey
  · simp [hkey]
  · simp [hkey]

/-! ### The exports of a device -/

/-- A step of the owner's device keeps its group and material or draws a new export. -/
theorem Owned.export_step {group : OpenMlsGroup E L} (howned : Owned dir world group material)
    (hstep : SafeHub.step dir tape world op = some next) :
    ∃ group' material', Owned dir next group' material' ∧ next.clock = world.clock + 1 ∧
      (op.movesEpoch = false ∧ group' = group ∧ material' = material ∨
        op.movesEpoch = true ∧ group'.state.secret = (tape world.clock).epochSecret) := by
  obtain ⟨group', material', hnext, hmove⟩ := howned.step hstep
  obtain ⟨after, -, rfl⟩ := effect_of_step hstep
  refine ⟨group', material', hnext, rfl, ?_⟩
  cases hmove with
  | invite hop => exact .inr ⟨Op.movesEpoch_of_adds hop, rfl⟩
  | rotate hop =>
    have hmoves : op.movesEpoch = true := by
      rcases hop with rfl | ⟨removed, rfl⟩ <;> rfl
    exact .inr ⟨hmoves, rfl⟩
  | stay hop => exact .inl ⟨hop, rfl, rfl⟩

/-- The export of the owner's device was drawn by an earlier operation. -/
theorem export_of_runOps (hrun : runOps dir admin tape ops = some world) :
    ∃ group material i, Owned dir world group material ∧ i < world.clock ∧
      group.state.secret = (tape i).epochSecret := by
  refine run_invariant (P := fun w => ∃ group material i, Owned dir w group material ∧
    i < w.clock ∧ group.state.secret = (tape i).epochSecret) ?_ ?_ hrun
  · intro w op w' hw hstep
    obtain ⟨group, material, i, howned, hdrawn, hsecret⟩ := hw
    obtain ⟨group', material', howned', hclock, hmove⟩ := howned.export_step hstep
    rcases hmove with ⟨-, rfl, rfl⟩ | ⟨-, hnew⟩
    · exact ⟨group', material', i, howned', by omega, hsecret⟩
    · exact ⟨group', material', w.clock, howned', by omega, hnew⟩
  · exact ⟨_, _, 0, owned_bootstrap admin, Nat.zero_lt_one, rfl⟩

/-- After operations the owner's device has the same material, or an export that one of them
drew. -/
theorem export_of_run {group : OpenMlsGroup E L} (howned : Owned dir world group material)
    (hrun : run (step dir tape) world ops = some next) :
    ∃ group' material', Owned dir next group' material' ∧ world.clock ≤ next.clock ∧
      ((∀ op ∈ ops, op.movesEpoch = false) ∧ material' = material ∨
        (∃ op ∈ ops, op.movesEpoch = true) ∧
          ∃ i, world.clock ≤ i ∧ group'.state.secret = (tape i).epochSecret) := by
  refine run_induction (P := fun labels w => ∃ group' material', Owned dir w group' material' ∧
    world.clock ≤ w.clock ∧ ((∀ op ∈ labels, op.movesEpoch = false) ∧ material' = material ∨
      (∃ op ∈ labels, op.movesEpoch = true) ∧
        ∃ i, world.clock ≤ i ∧ group'.state.secret = (tape i).epochSecret)) ?_ ?_ hrun
  · exact ⟨group, material, howned, le_rfl, .inl ⟨fun op hop => absurd hop List.not_mem_nil, rfl⟩⟩
  · intro labels w op w' _ hw hstep
    obtain ⟨group', material', howned', hle, hsofar⟩ := hw
    obtain ⟨group'', material'', howned'', hclock, hmove⟩ := howned'.export_step hstep
    refine ⟨group'', material'', howned'', by omega, ?_⟩
    -- as long as nothing has moved the material is the same; a move draws at the clock
    rcases hmove with ⟨hstays, rfl, rfl⟩ | ⟨hmoves, hnew⟩
    · rcases hsofar with ⟨hall, hsame⟩ | ⟨⟨moved, hmem, hmoved⟩, hsecret⟩
      · refine .inl ⟨fun op' hop' => ?_, hsame⟩
        rcases List.mem_append.mp hop' with hold | hlast
        · exact hall op' hold
        · rwa [List.mem_singleton.mp hlast]
      · exact .inr ⟨⟨moved, List.mem_append_left _ hmem, hmoved⟩, hsecret⟩
    · exact .inr ⟨⟨op, List.mem_append_right _ (List.mem_singleton_self op), hmoves⟩, w.clock, hle,
        hnew⟩

/-- Only accepting changes the material of another device. -/
theorem material_of_step (huser : user ≠ dir.owner) (haccept : op ≠ .accept user)
    (hstep : step dir tape world op = some next) :
    (next.devices user).material = (world.devices user).material := by
  obtain ⟨after, heffect, rfl⟩ := effect_of_step hstep
  change (after.devices user).material = _
  cases heffect with
  | invite => rw [afterInvite_devices, if_neg huser]
  | inviteCut => rw [afterInviteCut_devices, if_neg huser]
  | @accept who =>
    have hwho : user ≠ who := by
      rintro rfl
      exact haccept rfl
    rw [afterAccept_devices, if_neg hwho]
  | rotate => rw [afterRotate_devices, if_neg huser]
  | removeMember => rw [afterRotate_devices, if_neg huser, removeCollaborator_devices]
  | inviteCollab => rw [inviteCollaborator_devices]
  | removeCollab => rfl
  | collab => rfl
  | sync => exact afterSync_material
  | push => rfl

theorem material_of_run (huser : user ≠ dir.owner)
    (hrun : run (step dir tape) world ops = some next) (haccept : .accept user ∉ ops) :
    (next.devices user).material = (world.devices user).material := by
  refine run_induction (P := fun labels w => .accept user ∉ labels →
    (w.devices user).material = (world.devices user).material) (fun _ => rfl) ?_ hrun haccept
  intro labels w op w' _ hw hstep hlabels
  have hop : op ≠ .accept user := by
    rintro rfl
    exact hlabels (List.mem_append_right _ (List.mem_singleton_self _))
  rw [material_of_step huser hop hstep, hw fun hmem => hlabels (List.mem_append_left _ hmem)]

/-! ### Runs with objects -/

/-- The operation on the repository, if it is one. -/
def ObjectOp.repo? : ObjectOp → Option Op
  | .repo op => some op
  | .put _ _ => none

variable {labels : List ObjectOp} {label : ObjectOp}

/-- Storing an object leaves the repository alone, and objects stay. -/
theorem objectStep_cases (hstep : objectStep dir tape store label = some later) :
    (∃ op, label = .repo op ∧ step dir tape store.world op = some later.world ∧
      later.objects = store.objects) ∨
    ∃ user plaintext box, label = .put user plaintext ∧ later.world = store.world ∧
      later.objects = store.objects ++ [box] := by
  cases label with
  | repo op =>
    obtain ⟨next, hnext, rfl⟩ := Option.map_eq_some_iff.mp hstep
    exact .inl ⟨op, rfl, hnext, rfl⟩
  | put user plaintext =>
    cases hput : putSealedObject dir store user plaintext with
    | error e =>
      rw [objectStep, hput] at hstep
      cases hstep
    | ok result =>
      obtain ⟨id, stored⟩ := result
      rw [objectStep, hput] at hstep
      obtain rfl := Option.some_inj.mp hstep
      obtain ⟨material, -, -, -, rfl⟩ := putSealedObject_eq_ok_iff.mp hput
      exact .inr ⟨user, plaintext, _, rfl, rfl, rfl⟩

/-- A run with objects is a run of the repository. -/
theorem run_repo_of_run (hrun : run (objectStep dir tape) store labels = some later) :
    run (step dir tape) store.world (labels.filterMap ObjectOp.repo?) = some later.world ∧
      ∃ more, later.objects = store.objects ++ more := by
  refine run_induction (P := fun labels s =>
    run (step dir tape) store.world (labels.filterMap ObjectOp.repo?) = some s.world ∧
      ∃ more, s.objects = store.objects ++ more) ⟨rfl, [], (List.append_nil _).symm⟩ ?_ hrun
  intro labels s label s' _ hs hstep
  obtain ⟨hworld, more, hobjects⟩ := hs
  rcases objectStep_cases hstep with ⟨op, rfl, hop, hsame⟩ |
    ⟨user, plaintext, box, rfl, hsame, hmore⟩
  · refine ⟨?_, more, hsame.trans hobjects⟩
    rw [List.filterMap_append]
    exact run_concat_eq_some.mpr ⟨s.world, hworld, hop⟩
  · refine ⟨?_, more ++ [box], ?_⟩
    · rw [List.filterMap_append, hsame]
      exact (congrArg (run (step dir tape) store.world) (List.append_nil _)).trans hworld
    · rw [hmore, hobjects, List.append_assoc]

theorem movesEpoch_repo?_iff :
    (∀ op ∈ labels.filterMap ObjectOp.repo?, op.movesEpoch = false) ↔
      ∀ label ∈ labels, label.movesEpoch = false := by
  constructor
  · intro h label hlabel
    cases label with
    | repo op => exact h op (List.mem_filterMap.mpr ⟨.repo op, hlabel, rfl⟩)
    | put user plaintext => rfl
  · intro h op hop
    obtain ⟨label, hlabel, hrepo⟩ := List.mem_filterMap.mp hop
    cases label with
    | repo op' =>
      obtain rfl := Option.some_inj.mp hrepo
      exact h (.repo op') hlabel
    | put user plaintext => cases hrepo

theorem mem_filterMap_repo?_iff : op ∈ labels.filterMap ObjectOp.repo? ↔ .repo op ∈ labels := by
  constructor
  · intro h
    obtain ⟨label, hlabel, hrepo⟩ := List.mem_filterMap.mp h
    cases label with
    | repo op' => rwa [← Option.some_inj.mp hrepo]
    | put user plaintext => cases hrepo
  · intro h
    exact List.mem_filterMap.mpr ⟨.repo op, h, rfl⟩

/-- The owner's device never accepts. -/
theorem accept_owner_not_mem (hrun : runOps dir admin tape ops = some world) :
    .accept dir.owner ∉ ops := by
  intro hmem
  obtain ⟨pre, post, rfl⟩ := List.append_of_mem hmem
  obtain ⟨before, hbefore, hrest⟩ := run_append_eq_some.mp hrun
  obtain ⟨after, hstep, -⟩ := run_cons_eq_some.mp hrest
  obtain ⟨group, material, howned, -⟩ := owned_of_runOps hbefore
  obtain ⟨left, heffect, -⟩ := effect_of_step hstep
  cases heffect with
  | accept hmember hgrant hidentity hwelcome hleaf =>
    exact howned.accept_ne_owner hgrant hidentity hwelcome rfl

/-! ### Which objects survive -/

/-- An object is read back exactly when it is not the owner's or nothing moved the epoch. -/
theorem getSealedObject_iff {before : ObjectStore E S K L} {plaintext : Bytes} {id : ℕ}
    (hideal : IdealExports dir tape) (hbefore : runOps dir admin tape ops = some before.world)
    (hput : putSealedObject dir before user plaintext = .ok (id, stored))
    (hback : run (objectStep dir tape) stored labels = some later)
    (haccept : .repo (.accept user) ∉ labels) (hmember : later.world.isMember dir user) :
    getSealedObject dir later user id = .ok plaintext ↔
      (user = dir.owner → ∀ label ∈ labels, label.movesEpoch = false) := by
  obtain ⟨material, hmaterial, -, rfl, rfl⟩ := putSealedObject_eq_ok_iff.mp hput
  obtain ⟨hworld, more, hobjects⟩ := run_repo_of_run hback
  have hbox : later.objects[before.objects.length]? =
      some ⟨casSealKey material.transport, casAad, plaintext⟩ := by
    rw [hobjects, List.append_assoc, List.getElem?_append_right le_rfl, Nat.sub_self]
    rfl
  -- the owner's material follows the group, that of the others stays as it was accepted
  by_cases huser : user = dir.owner
  · subst huser
    obtain ⟨group, own, i, howned, hdrawn, hsecret⟩ := export_of_runOps hbefore
    obtain rfl := Option.some_inj.mp (hmaterial.symm.trans howned.material_eq)
    obtain ⟨group', own', howned', -, hsince⟩ := export_of_run howned hworld
    rw [getSealedObject_eq_ok_iff howned'.material_eq hmember hbox, ← movesEpoch_repo?_iff]
    rcases hsince with ⟨hstays, rfl⟩ | ⟨⟨op, hop, hmoves⟩, j, hle, hnew⟩
    · exact iff_of_true rfl fun _ => hstays
    · -- the key of the export drawn since then is another one
      refine iff_of_false ?_ ?_
      · rw [howned.transport, howned'.transport, exportEpochKeys, exportEpochKeys, hsecret, hnew]
        intro hkey
        have hsame := hideal i j hkey
        change before.world.clock ≤ j at hle
        omega
      · intro hstays
        rw [hstays rfl op hop] at hmoves
        cases hmoves
  · -- another device gets its material by accepting, and it does not accept again
    have hsame : (later.world.devices user).material = some material := by
      rw [material_of_run huser hworld (mt mem_filterMap_repo?_iff.mp haccept)]
      exact hmaterial
    rw [getSealedObject_eq_ok_iff hsame hmember hbox]
    exact iff_of_true rfl fun howner => absurd howner huser

theorem put_of_run {front back : List ObjectOp} {plaintext : Bytes}
    (hrun : runObjects dir admin tape (front ++ .put user plaintext :: back) = some later) :
    ∃ before id stored, runObjects dir admin tape front = some before ∧
      putSealedObject dir before user plaintext = .ok (id, stored) ∧
      run (objectStep dir tape) stored back = some later := by
  obtain ⟨before, hbefore, hrest⟩ := run_append_eq_some.mp hrun
  obtain ⟨stored, hstep, hback⟩ := run_cons_eq_some.mp hrest
  cases hput : putSealedObject dir before user plaintext with
  | error e =>
    rw [objectStep, hput] at hstep
    cases hstep
  | ok result =>
    rw [objectStep, hput] at hstep
    obtain rfl := Option.some_inj.mp hstep
    exact ⟨before, result.1, result.2, hbefore, hput, hback⟩

/-- Devices read back what they stored exactly when nothing moves the epoch after the owner has
stored an object. -/
theorem objectsSurvive_iff (hideal : IdealExports dir tape)
    (hrun : runObjects dir admin tape labels = some later) :
    ObjectsSurvive dir admin tape labels later ↔ NoMoveAfterPut dir labels := by
  constructor
  · intro hsurvive front plaintext back heq
    rw [heq] at hrun
    obtain ⟨before, id, stored, hbefore, hput, hback⟩ := put_of_run hrun
    have hworld : runOps dir admin tape _ = some before.world := (run_repo_of_run hbefore).1
    have haccept : .repo (.accept dir.owner) ∉ back := by
      have hnever := accept_owner_not_mem (run_repo_of_run hrun).1
      rw [mem_filterMap_repo?_iff] at hnever
      intro hmem
      exact hnever (List.mem_append_right _ (List.mem_cons_of_mem _ hmem))
    have hmember : later.world.isMember dir dir.owner := by simp [World.isMember]
    have hget := hsurvive front dir.owner plaintext back before id stored heq hbefore hput haccept
      hmember
    exact (getSealedObject_iff hideal hworld hput hback haccept hmember).mp hget rfl
  · intro hquiet front user plaintext back before id stored heq hbefore hput haccept hmember
    rw [heq] at hrun
    obtain ⟨before', id', stored', hbefore', hput', hback⟩ := put_of_run hrun
    obtain rfl := Option.some_inj.mp (hbefore.symm.trans hbefore')
    obtain ⟨rfl, rfl⟩ := Prod.mk.inj (Except.ok.inj (hput.symm.trans hput'))
    have hworld : runOps dir admin tape _ = some before.world := (run_repo_of_run hbefore).1
    refine (getSealedObject_iff hideal hworld hput hback haccept hmember).mpr ?_
    rintro rfl
    exact hquiet front plaintext back heq

/-! ### On the symbolic tape -/

theorem idealExports_freshTape (dir : Directory Bytes) : IdealExports dir freshTape := by
  intro i j hkey
  have hexport := (DolevYao.Term.kdf.inj hkey).2
  exact Fresh.epoch.inj (DolevYao.Term.name.inj (DolevYao.Term.kdf.inj hexport).2)

/-- After a rotation Alice's object does not open. -/
theorem not_objectsSurvive_rotate :
    ∃ store, runObjects sampleDirectory sampleAdmin freshTape [.put "alice" [7], .repo .rotate] =
        some store ∧
      ¬ ObjectsSurvive sampleDirectory sampleAdmin freshTape [.put "alice" [7], .repo .rotate]
        store := by
  have hrun : (runObjects sampleDirectory sampleAdmin freshTape
      [.put "alice" [7], .repo .rotate]).isSome := by decide
  refine ⟨_, (Option.some_get hrun).symm, ?_⟩
  intro hsurvive
  have hget : getSealedObject sampleDirectory _ "alice" 0 = .ok [7] :=
    hsurvive [] "alice" [7] [.repo .rotate] _ _ _ rfl rfl rfl (by decide) rfl
  have hfails : (runObjects sampleDirectory sampleAdmin freshTape
      [.put "alice" [7], .repo .rotate]).map
        (fun store => (getSealedObject sampleDirectory store "alice" 0).toOption) = some none := by
    decide +kernel
  rw [← Option.some_get hrun, Option.map_some, Option.some_inj] at hfails
  rw [hget] at hfails
  cases hfails

/-- While only messages are sent it opens. -/
theorem objectsSurvive_collab :
    ∃ store, runObjects sampleDirectory sampleAdmin freshTape
        [.put "alice" [7], .repo (.collab "alice" [1])] = some store ∧
      ObjectsSurvive sampleDirectory sampleAdmin freshTape
        [.put "alice" [7], .repo (.collab "alice" [1])] store := by
  have hrun : (runObjects sampleDirectory sampleAdmin freshTape
      [.put "alice" [7], .repo (.collab "alice" [1])]).isSome := by decide
  refine ⟨_, (Option.some_get hrun).symm, ?_⟩
  refine (objectsSurvive_iff (idealExports_freshTape _) (Option.some_get hrun).symm).mpr ?_
  intro front plaintext back heq op hop
  have hmem : op ∈ [.put "alice" [7], .repo (.collab "alice" [1])] := by
    rw [heq]
    exact List.mem_append_right _ (List.mem_cons_of_mem _ hop)
  rcases List.mem_cons.mp hmem with rfl | hlast
  · rfl
  · rw [List.mem_singleton.mp hlast]
    rfl

end SafeHub
