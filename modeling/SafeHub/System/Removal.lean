import SafeHub.Client.Fetch
import SafeHub.System.HostView

/-!
# Removing a member

Removing a member takes it off the host's list and rotates the group, which is a
self-update: whoever was added to the group stays in its roster. The epoch after the
removal is new to everybody, until a later invite puts its token on the queue.

## Main definitions

* `RemovalEffective` — the removed user is out of the roster and of the later epochs
* `RemovalSafe` — the user was never in the group, and no grant is queued later

## Main results

* `mem_members_iff` — who is in the roster after a run
* `removalEffective_iff` — when a removal is effective
-/

namespace SafeHub

open DolevYao OpenMlsGroup

variable {dir : Directory Bytes} {admin : MlDsa87KeyPair} {world : SymWorld}
variable {ops pre post : List Op} {op : Op} {user : UserId} {leaf : Bytes}

/-! ### The roster -/

/-- Some operation adds the user whose leaf this is. -/
def AddsLeaf (dir : Directory Bytes) (leaf : Bytes) (ops : List Op) : Prop :=
  ∃ op ∈ ops, ∃ user forwardOnly, op.adds = some (user, forwardOnly) ∧
    dir.keyPackage user = some leaf

theorem addsLeaf_concat :
    AddsLeaf dir leaf (ops ++ [op]) ↔ AddsLeaf dir leaf ops ∨
      ∃ user forwardOnly, op.adds = some (user, forwardOnly) ∧
        dir.keyPackage user = some leaf := by
  simp only [AddsLeaf, List.mem_append, List.mem_singleton, or_and_right, exists_or,
    exists_eq_left]

/-- The roster holds the owner and everybody who was added, whatever was removed. -/
theorem mem_members_iff {group : SymGroup} (hrun : runOps dir admin freshTape ops = some world)
    (hgroup : (world.devices dir.owner).group = some group) :
    leaf ∈ group.memberSignatureKeys ↔ leaf = dir.ownerLeaf ∨ AddsLeaf dir leaf ops := by
  suffices h : ∃ group material, Owned dir world group material ∧
      ∀ leaf, leaf ∈ group.state.members ↔ leaf = dir.ownerLeaf ∨ AddsLeaf dir leaf ops by
    obtain ⟨group', material, howned, hmembers⟩ := h
    obtain rfl := Option.some.inj (hgroup.symm.trans howned.group_eq)
    exact hmembers leaf
  refine Run.run_induction
    (P := fun labels w => ∃ group material, Owned dir w group material ∧
      ∀ leaf, leaf ∈ group.state.members ↔ leaf = dir.ownerLeaf ∨ AddsLeaf dir leaf labels)
    ⟨_, _, owned_bootstrap admin, fun leaf => ?_⟩ ?_ hrun
  · simp [createGroup, AddsLeaf]
  · intro labels w op w' _ hw hstep
    obtain ⟨group, material, howned, hmembers⟩ := hw
    obtain ⟨group', material', howned', hmove⟩ := howned.step hstep
    refine ⟨group', material', howned', fun leaf => ?_⟩
    rw [addsLeaf_concat, ← or_assoc, ← hmembers]
    cases hmove with
    | @invite user forwardOnly keyPackage interval hadds hpackage hnew hinterval =>
      change leaf ∈ group.state.members ++ [keyPackage] ↔ _
      rw [List.mem_append, List.mem_singleton]
      refine or_congr_right ⟨fun h => ⟨user, forwardOnly, hadds, h ▸ hpackage⟩, ?_⟩
      rintro ⟨user', forwardOnly', hadds', hpackage'⟩
      obtain ⟨rfl, -⟩ := Prod.mk.inj (Option.some.inj (hadds.symm.trans hadds'))
      exact (Option.some.inj (hpackage.symm.trans hpackage')).symm
    -- a removal rotates and leaves the members as they are
    | rotate hrotates =>
      change leaf ∈ group.state.members ↔ _
      refine (or_iff_left ?_).symm
      rintro ⟨user, forwardOnly, hadds, -⟩
      rcases hrotates with rfl | ⟨_, rfl⟩ <;> cases hadds
    | stay hstay =>
      refine (or_iff_left ?_).symm
      rintro ⟨user, forwardOnly, hadds, -⟩
      rw [Op.movesEpoch_of_adds hadds] at hstay
      cases hstay

/-- A user that a run adds has a key package. -/
theorem exists_keyPackage_of_adds {forwardOnly : Bool}
    (hrun : runOps dir admin freshTape ops = some world) (hop : op ∈ ops)
    (hadds : op.adds = some (user, forwardOnly)) : ∃ leaf, dir.keyPackage user = some leaf := by
  obtain ⟨pre, post, rfl⟩ := List.append_of_mem hop
  obtain ⟨before, hbefore, hrest⟩ := Run.run_append_eq_some.mp hrun
  obtain ⟨after, hstep, -⟩ := Run.run_cons_eq_some.mp hrest
  obtain ⟨group, material, howned, -⟩ := owned_of_runOps hbefore
  obtain ⟨group', material', -, hmove⟩ := howned.step hstep
  cases hmove with
  | @invite user' _ keyPackage _ hadds' hpackage hnew hinterval =>
    obtain ⟨rfl, -⟩ := Prod.mk.inj (Option.some.inj (hadds'.symm.trans hadds))
    exact ⟨keyPackage, hpackage⟩
  | rotate hrotates => rcases hrotates with rfl | ⟨_, rfl⟩ <;> cases hadds
  | stay hstay =>
    rw [Op.movesEpoch_of_adds hadds] at hstay
    cases hstay

/-- No two users have the same leaf. -/
theorem keyPackage_inj {u v : UserId} (hu : dir.keyPackage u = some leaf)
    (hv : dir.keyPackage v = some leaf) : u = v := by
  rw [Directory.keyPackage] at hu hv
  split_ifs at hu hv with howner howner'
  · rw [howner, howner']
  · exact absurd (Option.some.inj hu ▸ hv) (dir.ownerLeaf_fresh v)
  · exact absurd (Option.some.inj hv ▸ hu) (dir.ownerLeaf_fresh u)
  · exact dir.published_inj u v leaf hu hv

/-! ### Removal -/

/-- A signature verifies under one key only. -/
def SignerUnique [MlDsa87] : Prop :=
  ∀ vk vk' message signature : Bytes, mldsaVerify vk message signature = .ok () →
    mldsaVerify vk' message signature = .ok () → vk = vk'

/-- A state reached after the user was removed between `pre` and `post`. -/
def LaterWorld (dir : Directory Bytes) (admin : MlDsa87KeyPair) (pre : List Op) (user : UserId)
    (post : List Op) (world : SymWorld) : Prop :=
  ∃ front back, post = front ++ back ∧
    runOps dir admin freshTape (pre ++ .removeMember user :: front) = some world

/-- The group of a device whose material is of a later epoch than `epoch`. -/
def World.NewGroup (world : SymWorld) (epoch : ℕ) (group : SymGroup) : Prop :=
  ∃ device material, (world.devices device).material = some material ∧
    epoch < material.epoch ∧ (world.devices device).group = some group

/-- The user removed between `pre` and `post` is in no roster of a later epoch, heads
under its leaf are not accepted with such a roster, and it derives no key of those epochs
from all that it ever holds or can fetch. -/
structure RemovalEffective (D : Type) [Sha512 D] [HashPrimitives] [MlDsa87] [DecidableEq D]
    (dir : Directory Bytes) (admin : MlDsa87KeyPair) (pre : List Op) (user : UserId)
    (post : List Op) : Prop where
  roster : ∀ world group leaf, LaterWorld dir admin pre user post world →
    world.NewGroup (pre.countP Op.movesEpoch) group → dir.keyPackage user = some leaf →
      leaf ∉ group.memberSignatureKeys
  heads : ∀ world group leaf, LaterWorld dir admin pre user post world →
    world.NewGroup (pre.countP Op.movesEpoch) group → dir.keyPackage user = some leaf →
      ∀ (reader : EpochMaterial Bytes Bytes) (anchor : Option (HeadHash D))
        (heads : List (RefHead D)),
        verifyFetchedHeads heads reader anchor group.memberSignatureKeys = .ok () →
          ∀ head ∈ heads, verifyPusherSig head leaf ≠ .ok ()
  keys : ∀ world epoch key, LaterWorld dir admin pre user post world →
    world.EpochKey epoch key → pre.countP Op.movesEpoch < epoch →
      ¬ Derives (knowledge dir admin (pre ++ .removeMember user :: post) user) key

/-- The user is not the owner and is never added to the group, and no grant is queued
after its removal. -/
structure RemovalSafe (dir : Directory Bytes) (pre : List Op) (user : UserId) (post : List Op) :
    Prop where
  notOwner : user ≠ dir.owner
  notAdded : ∀ op ∈ pre ++ post, ∀ forwardOnly, op.adds ≠ some (user, forwardOnly)
  quiet : ∀ op ∈ post, op.queuesGrant = false

/-- Drawn by the operation at index `i` or later. -/
def Fresh.From (i : ℕ) : Fresh → Prop
  | .epoch j | .block j | .seeded j | .reinit j => i ≤ j
  | .init _ | .dek _ | .leaf _ => False

/-- The names to hide from a user removed at index `i`. -/
def namesFrom (i : ℕ) : Set Fresh := {f | f.From i}

theorem noPublic_namesFrom (i : ℕ) : NoPublic (namesFrom i) where
  leaf := fun _ h => h
  dek := fun _ h => h

/-- Every operation of such a run respects the split at the removal. -/
theorem stepSplit_of_removalSafe (hsafe : RemovalSafe dir pre user post) {front back : List Op}
    (hlabel : pre ++ .removeMember user :: post = front ++ op :: back) :
    StepSplit (namesFrom (pre.length + 1)) {e | pre.countP Op.movesEpoch < e}
      (front.length + 1) (front.countP Op.movesEpoch + 1) op := by
  rcases Run.label_cases hlabel with ⟨mid, rfl⟩ | ⟨rfl, rfl, rfl⟩ | ⟨mid, rfl, rfl⟩
  · -- before the removal: nothing drawn is hidden, no epoch is in the window
    have hindex : ¬ (front ++ op :: mid).length + 1 ≤ front.length + 1 := by simp
    have hbelow : op.movesEpoch = true →
        front.countP Op.movesEpoch + 1 ≤ (front ++ op :: mid).countP Op.movesEpoch := by
      intro hmoves
      rw [List.countP_append, List.countP_cons_of_pos hmoves]
      omega
    refine ⟨fun hmoves hin => absurd hin (Nat.not_lt.mpr (hbelow hmoves)), fun _ _ => hindex,
      fun hqueues => ?_, fun _ _ _ => hindex, ?_⟩
    · obtain ⟨_, _, _, rfl⟩ := Op.eq_invite_of_queuesGrant hqueues
      exact Nat.not_lt.mpr (hbelow rfl)
    · rintro v g rfl
      exact ⟨hindex, hindex, fun e he hin => absurd (hbelow rfl) (by
        have hlt : (front ++ .invite v false g :: mid).countP Op.movesEpoch < e := hin
        omega)⟩
  · -- the removal itself
    have hin : front.countP Op.movesEpoch + 1 ∈ {e | front.countP Op.movesEpoch < e} :=
      Nat.lt_succ_self _
    have hindex : front.length + 1 ≤ front.length + 1 := le_rfl
    refine ⟨fun _ _ => ⟨hindex, hindex, hindex, hindex⟩, fun _ hout => absurd hin hout, ?_, ?_, ?_⟩
    · intro hqueues
      cases hqueues
    · intro _ _ h
      cases h
    · intro _ _ h
      cases h
  · -- after the removal: everything drawn is hidden, and nothing is queued
    have hquiet := hsafe.quiet op (List.mem_append_right mid List.mem_cons_self)
    have hindex : pre.length + 1 ≤ (pre ++ .removeMember user :: mid).length + 1 := by simp
    have hin : (pre ++ .removeMember user :: mid).countP Op.movesEpoch + 1 ∈
        {e | pre.countP Op.movesEpoch < e} := by
      simp only [List.countP_append, Set.mem_ofPred_eq]
      omega
    refine ⟨fun _ _ => ⟨hindex, hindex, hindex, hindex⟩, fun _ hout => absurd hin hout,
      fun hqueues => ?_, ?_, ?_⟩
    · rw [hquiet] at hqueues
      cases hqueues
    · rintro v g rfl
      cases hquiet
    · rintro v g rfl
      cases hquiet

theorem split_of_removalSafe (hsafe : RemovalSafe dir pre user post) {before after : List Op}
    (hops : pre ++ .removeMember user :: post = before ++ after)
    (hrun : runOps dir admin freshTape before = some world) :
    Split (namesFrom (pre.length + 1)) {e | pre.countP Op.movesEpoch < e} dir world := by
  refine split_along_run (noPublic_namesFrom _) (iff_of_false ?_ ?_)
    (fun front op back hlabel => stepSplit_of_removalSafe hsafe hlabel) hops hrun
  · exact Nat.not_lt_zero _
  · exact Nat.not_succ_le_zero _

/-! ### When a removal is effective -/

section Effective

variable {D : Type} [Sha512 D] [HashPrimitives] [MlDsa87] [DecidableEq D]

theorem removalEffective_of_safe (hunique : SignerUnique)
    (hsafe : RemovalSafe dir pre user post) : RemovalEffective D dir admin pre user post := by
  have hsplit : ∀ w, LaterWorld dir admin pre user post w →
      Split (namesFrom (pre.length + 1)) {e | pre.countP Op.movesEpoch < e} dir w := by
    intro w ⟨front, back, hpost, hw⟩
    refine split_of_removalSafe hsafe (?_ : _ = _ ++ back) hw
    rw [hpost, List.append_assoc, List.cons_append]
  -- a group of a later epoch is the owner's, and nobody with this leaf was added to it
  have hgroup : ∀ w group leaf, LaterWorld dir admin pre user post w →
      w.NewGroup (pre.countP Op.movesEpoch) group → dir.keyPackage user = some leaf →
        dir.ownerLeaf ∈ group.memberSignatureKeys ∧ leaf ∉ group.memberSignatureKeys := by
    intro w group leaf hlater hnew hleaf
    obtain ⟨device, material, hmaterial, hepoch, hgroup⟩ := hnew
    have howner : device = dir.owner := by
      by_contra hother
      exact (hsplit w hlater).outside device hother material hmaterial material.epoch hepoch _
        EpochMaterial.seedAt_self
    subst howner
    obtain ⟨front, back, hpost, hw⟩ := hlater
    refine ⟨(mem_members_iff hw hgroup).mpr (.inl rfl), fun hmem => ?_⟩
    rcases (mem_members_iff hw hgroup).mp hmem with hown | ⟨op, hop, v, forwardOnly, hadds, hv⟩
    · apply hsafe.notOwner
      exact keyPackage_inj hleaf ((if_pos rfl).trans (congrArg some hown.symm))
    · obtain rfl := keyPackage_inj hleaf hv
      rw [List.mem_append, List.mem_cons] at hop
      rcases hop with hpre | rfl | hfront
      · exact hsafe.notAdded op (List.mem_append_left _ hpre) forwardOnly hadds
      · cases hadds
      · refine hsafe.notAdded op (List.mem_append_right _ ?_) forwardOnly hadds
        rw [hpost]
        exact List.mem_append_left _ hfront
  refine ⟨fun w group leaf hlater hnew hleaf => (hgroup w group leaf hlater hnew hleaf).2, ?_, ?_⟩
  · -- a head that verifies is signed by the roster, and a signature has one signer
    intro w group leaf hlater hnew hleaf reader anchor heads hverified head hhead hsigned
    obtain ⟨howner, hnot⟩ := hgroup w group leaf hlater hnew hleaf
    have hchecked := ((verifyFetchedHeads_eq_ok_iff.mp hverified).2 head hhead).2
    rcases checkPusher_eq_ok_iff.mp hchecked with hempty | ⟨vk, hvk, hother⟩
    · rw [hempty] at howner
      cases howner
    · apply hnot
      rwa [hunique leaf vk _ _ (verifyPusherSig_eq_ok hsigned) (verifyPusherSig_eq_ok hother)]
  · -- the key hangs on names that nothing in the user's view depends on
    intro w epoch key hlater hkey hepoch
    have hw := hsplit w hlater
    obtain ⟨front, back, hpost, hfront⟩ := hlater
    obtain ⟨group, material, -, -, hclock⟩ := owned_of_runOps hfront
    have hindex : pre.length + 1 ≤ w.clock := by
      rw [hclock, List.length_append]
      omega
    apply not_derives_of_not_open (hw.epochKey_not_open hepoch hindex hindex hkey)
    rintro t ⟨before, after, w', hops, hw', ht⟩
    have hthen := split_of_removalSafe hsafe hops hw'
    rcases ht with hdevice | hhost
    · exact hthen.deviceOpen user hsafe.notOwner t hdevice
    · exact hthen.open_hostView t hhost

theorem removalSafe_of_effective
    (hrun : runOps dir admin freshTape (pre ++ .removeMember user :: post) = some world)
    (hcap : (pre ++ .removeMember user :: post).countP Op.movesEpoch < dkrSegmentCapacity)
    (heffective : RemovalEffective D dir admin pre user post) : RemovalSafe dir pre user post := by
  have hlast : LaterWorld dir admin pre user post world := ⟨post, [], by simp, hrun⟩
  obtain ⟨group, material, howned, hepoch, -⟩ := owned_of_runOps hrun
  have hnew : world.NewGroup (pre.countP Op.movesEpoch) group := by
    refine ⟨dir.owner, material, howned.material_eq, ?_, howned.group_eq⟩
    rw [howned.epoch, hepoch, List.countP_append, List.countP_cons_of_pos rfl]
    omega
  refine ⟨?_, ?_, ?_⟩
  · -- the owner stays in the roster
    rintro rfl
    exact heffective.roster world group dir.ownerLeaf hlast hnew (if_pos rfl)
      ((mem_members_iff hrun howned.group_eq).mpr (.inl rfl))
  · -- whoever was added stays in the roster
    intro op hop forwardOnly hadds
    have hmem : op ∈ pre ++ .removeMember user :: post := by
      rcases List.mem_append.mp hop with hpre | hpost
      · exact List.mem_append_left _ hpre
      · exact List.mem_append_right _ (List.mem_cons_of_mem _ hpost)
    obtain ⟨leaf, hleaf⟩ := exists_keyPackage_of_adds hrun hmem hadds
    exact heffective.roster world group leaf hlast hnew hleaf ((mem_members_iff hrun
      howned.group_eq).mpr (.inr ⟨op, hmem, user, forwardOnly, hadds, hleaf⟩))
  · intro op hop
    by_contra hqueues
    rw [Bool.not_eq_false] at hqueues
    obtain ⟨v, forwardOnly, g, rfl⟩ := Op.eq_invite_of_queuesGrant hqueues
    -- the grant that a later invite queues gives its epoch to every reader of the queue
    obtain ⟨front, back, rfl⟩ := List.append_of_mem hop
    have hlabel : pre ++ .removeMember user :: (front ++ .invite v forwardOnly g :: back) =
        ((pre ++ .removeMember user :: front) ++ [.invite v forwardOnly g]) ++ back := by simp
    have hlong := hrun
    rw [hlabel] at hlong
    obtain ⟨invited, hinvited, -⟩ := Run.run_append_eq_some.mp hlong
    rw [hlabel, List.countP_append, List.countP_append, List.countP_singleton] at hcap
    obtain ⟨key, hkey, hderives⟩ := exists_epochKey_of_invite hinvited (by
      simp only [Op.movesEpoch, if_true] at hcap
      omega)
    refine heffective.keys invited _ key
      ⟨front ++ [.invite v forwardOnly g], back, by simp, ?_⟩ hkey ?_ (hderives.mono fun t ht => ?_)
    · rwa [← List.cons_append, ← List.append_assoc]
    · rw [List.countP_append, List.countP_cons_of_pos rfl]
      omega
    · exact ⟨_, back, invited, hlabel, hinvited, .inr ht⟩

/-- A removal is effective when the user was never in the group and no grant is queued
after it; within the segment capacity it is effective only then. -/
theorem removalEffective_iff (hunique : SignerUnique)
    (hrun : runOps dir admin freshTape (pre ++ .removeMember user :: post) = some world) :
    (RemovalSafe dir pre user post → RemovalEffective D dir admin pre user post) ∧
      ((pre ++ .removeMember user :: post).countP Op.movesEpoch < dkrSegmentCapacity →
        RemovalEffective D dir admin pre user post → RemovalSafe dir pre user post) :=
  ⟨removalEffective_of_safe hunique, removalSafe_of_effective hrun⟩

end Effective

section Evaluate

/-- A stand-in scheme whose signatures start with the key they verify under. -/
abbrev keyedMlDsa87 : MlDsa87 where
  publicKey := paddedKey
  sign seed message := (paddedKey seed ++ message ++ List.replicate 4627 0).take 4627
  accepts publicKey message signature :=
    signature == (publicKey ++ message ++ List.replicate 4627 0).take 4627

attribute [local instance] transparentSha512 transparentHash keyedMlDsa87

theorem signerUnique_keyed : SignerUnique := by
  intro vk vk' message signature h h'
  obtain ⟨hlength, haccepts⟩ := accepts_of_mldsaVerify h
  obtain ⟨hlength', haccepts'⟩ := accepts_of_mldsaVerify h'
  have htake : ∀ key : Bytes, key.length = mldsa87VkLen →
      MlDsa87.accepts key message signature = true → signature.take mldsa87VkLen = key := by
    intro key hkey haccepts
    rw [beq_iff_eq.mp haccepts, List.take_take, List.append_assoc]
    exact List.take_left' hkey
  rw [← htake vk hlength haccepts, ← htake vk' hlength' haccepts']

/-- Bob, who was a collaborator but never joined the group, is removed after Carol was
invited. -/
theorem removalEffective_collaborator :
    RemovalEffective Bytes sampleDirectory sampleAdmin
      [.inviteCollab "bob", .invite "carol" false none] "bob"
      [.push "alice" [1] [2] false, .rotate] := by
  obtain ⟨world, hrun⟩ : ∃ world, runOps sampleDirectory sampleAdmin freshTape
      ([.inviteCollab "bob", .invite "carol" false none] ++ .removeMember "bob" ::
        [.push "alice" [1] [2] false, .rotate]) = some world :=
    Option.isSome_iff_exists.mp (by decide)
  exact (removalEffective_iff signerUnique_keyed hrun).1 ⟨by decide, by decide, by decide⟩

/-- Bob, who was in the group, stays in its roster. -/
theorem not_removalEffective_member :
    (∃ world, runOps sampleDirectory sampleAdmin freshTape
      [.invite "bob" false none, .removeMember "bob"] = some world) ∧
    ¬ RemovalEffective Bytes sampleDirectory sampleAdmin [.invite "bob" false none] "bob" [] := by
  obtain ⟨world, hrun⟩ : ∃ world, runOps sampleDirectory sampleAdmin freshTape
      [.invite "bob" false none, .removeMember "bob"] = some world :=
    Option.isSome_iff_exists.mp (by decide)
  refine ⟨⟨world, hrun⟩, fun heffective => ?_⟩
  have hsafe := removalSafe_of_effective hrun (by decide) heffective
  exact hsafe.notAdded (.invite "bob" false none) (List.mem_singleton_self _) false rfl

end Evaluate

end SafeHub
