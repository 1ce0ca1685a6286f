import SafeHub.System.HostView
import SafeHub.System.Retention

/-!
# Forward-only windows

A member invited for the future only gets a token that no earlier seed determines.
Everything on the queue is readable to it, though: the tokens of earlier grants,
and the retained seeds that a later full-history grant carries. The window holds
when there are none of these.

## Main results

* `windowHolds_of_windowSafe` — the window holds without such grants
* `windowHolds_iff` — and within the segment capacity only then
-/

namespace SafeHub

open DolevYao OpenMlsGroup
open Std (ExtTreeMap)

variable {dir : Directory Bytes} {admin : MlDsa87KeyPair} {world : SymWorld}
variable {pre post : List Op} {op : Op} {user : UserId} {graft : Option Bytes}

/-- A user invited forward-only between `pre` and `post` derives no key of an epoch
before its own, from all that it ever holds or can fetch. -/
def WindowHolds (dir : Directory Bytes) (admin : MlDsa87KeyPair) (pre : List Op) (user : UserId)
    (graft : Option Bytes) (post : List Op) : Prop :=
  ∀ epoch key, epoch < pre.countP Op.movesEpoch + 1 →
    RunEpochKey dir admin (pre ++ .invite user true graft :: post) epoch key →
      ¬ Derives (knowledge dir admin (pre ++ .invite user true graft :: post) user) key

/-- No grant was queued before, and none with full history is queued afterwards. -/
structure WindowSafe (pre post : List Op) : Prop where
  before : ∀ op ∈ pre, op.queuesGrant = false
  after : ∀ op ∈ post, ∀ user graft, op ≠ .invite user false graft

/-- Drawn by an operation before index `i`, or random bytes that stand in for an
exhausted segment. -/
def Fresh.Before (i : ℕ) : Fresh → Prop
  | .epoch j | .block j => j < i
  | .init _ | .seeded _ | .reinit _ => True
  | .dek _ | .leaf _ => False

/-- The names to hide from a member that joins at index `i`. -/
def namesBefore (i : ℕ) : Set Fresh := {f | f.Before i}

@[simp] theorem epoch_mem_namesBefore {i j : ℕ} : .epoch j ∈ namesBefore i ↔ j < i := Iff.rfl

@[simp] theorem block_mem_namesBefore {i j : ℕ} : .block j ∈ namesBefore i ↔ j < i := Iff.rfl

theorem noPublic_namesBefore (i : ℕ) : NoPublic (namesBefore i) where
  leaf := fun _ h => h
  dek := fun _ h => h

/-! ### The window holds -/

/-- Every operation of such a run respects the split at the invite. -/
theorem stepSplit_of_windowSafe (hsafe : WindowSafe pre post) {front back : List Op}
    (hlabel : pre ++ .invite user true graft :: post = front ++ op :: back) :
    StepSplit (namesBefore (pre.length + 1)) {e | e < pre.countP Op.movesEpoch + 1}
      (front.length + 1) (front.countP Op.movesEpoch + 1) op := by
  rcases Run.label_cases hlabel with ⟨mid, rfl⟩ | ⟨rfl, rfl, rfl⟩ | ⟨mid, rfl, rfl⟩
  · -- before the invite: everything drawn is hidden and nothing is queued
    have hquiet := hsafe.before op (List.mem_append_right front List.mem_cons_self)
    have hindex : front.length + 1 < (front ++ op :: mid).length + 1 := by simp
    refine ⟨fun _ _ => ⟨hindex, hindex, trivial, trivial⟩, fun hmoves hout => ?_,
      fun hqueues => ?_, ?_, ?_⟩
    · refine absurd ?_ hout
      simp [List.countP_append, hmoves]
    · rw [hquiet] at hqueues
      cases hqueues
    · rintro v g rfl
      cases hquiet
    · rintro v g rfl
      cases hquiet
  · -- the invite itself
    have hout : front.countP Op.movesEpoch + 1 ∉ {e | e < front.countP Op.movesEpoch + 1} :=
      lt_irrefl (front.countP Op.movesEpoch + 1)
    refine ⟨fun _ he => absurd he hout, fun _ _ => ?_, fun _ => hout, fun _ _ _ => ?_, nofun⟩
    · exact lt_irrefl (front.length + 1)
    · exact lt_irrefl (front.length + 1)
  · -- after the invite: what is drawn is open, and no grant carries retained seeds
    have hout : (pre ++ .invite user true graft :: mid).countP Op.movesEpoch + 1 ∉
        {e | e < pre.countP Op.movesEpoch + 1} := by
      simp [List.countP_append]
    have hindex : ¬ (pre ++ .invite user true graft :: mid).length + 1 < pre.length + 1 := by
      simp
    refine ⟨fun _ he => absurd he hout, fun _ _ => hindex, fun _ => hout, fun _ _ _ => hindex,
      fun v g hfull => ?_⟩
    exact absurd hfull (hsafe.after op (List.mem_append_right mid List.mem_cons_self) v g)

theorem windowHolds_of_windowSafe
    (hrun : runOps dir admin freshTape (pre ++ .invite user true graft :: post) = some world)
    (hsafe : WindowSafe pre post) : WindowHolds dir admin pre user graft post := by
  -- the invariant holds at every point of the run
  have hsplit : ∀ before after w, pre ++ .invite user true graft :: post = before ++ after →
      runOps dir admin freshTape before = some w →
        Split (namesBefore (pre.length + 1)) {e | e < pre.countP Op.movesEpoch + 1} dir w := by
    intro before after w hops hbefore
    refine split_along_run (noPublic_namesBefore _) ?_ (fun front op back hlabel => ?_) hops hbefore
    · simp
    · exact stepSplit_of_windowSafe hsafe hlabel
  -- the user who is invited is not the owner
  have hother : user ≠ dir.owner := by
    obtain ⟨before, hbefore, hrest⟩ := Run.run_append_eq_some.mp hrun
    obtain ⟨invited, hinvite, -⟩ := Run.run_cons_eq_some.mp hrest
    obtain ⟨group, material, howned, -⟩ := owned_of_runOps hbefore
    obtain ⟨after, heffect, -⟩ := effect_of_step hinvite
    cases heffect with
    | invite hgroup hpackage hnew hinterval =>
      obtain rfl := Option.some.inj (howned.group_eq.symm.trans hgroup)
      exact (keyPackage_ne_ownerLeaf howned.ownerLeaf hpackage hnew).1
  rintro epoch key hepoch ⟨before, after, w, hops, hw, hkey⟩
  have hhidden := (hsplit before after w hops hw).epochKey_not_open hepoch trivial trivial hkey
  apply not_derives_of_not_open hhidden
  rintro t ⟨before', after', w', hops', hw', ht⟩
  rcases ht with hdevice | hhost
  · exact (hsplit before' after' w' hops' hw').deviceOpen user hother t hdevice
  · exact (hsplit before' after' w' hops' hw').open_hostView t hhost

/-! ### And only then -/

section Necessary

variable (hrun : runOps dir admin freshTape (pre ++ .invite user true graft :: post) = some world)

include hrun

/-- A grant queued before the invite gives the key of its own epoch. -/
theorem WindowHolds.before (hholds : WindowHolds dir admin pre user graft post)
    (hcap : pre.countP Op.movesEpoch < dkrSegmentCapacity) :
    ∀ op ∈ pre, op.queuesGrant = false := by
  intro op hop
  by_contra hqueues
  rw [Bool.not_eq_false] at hqueues
  obtain ⟨v, forwardOnly, g, rfl⟩ := Op.eq_invite_of_queuesGrant hqueues
  obtain ⟨front, back, rfl⟩ := List.append_of_mem hop
  obtain ⟨w, hw, -⟩ := Run.run_append_eq_some.mp hrun
  obtain ⟨before, hbefore, hrest⟩ := Run.run_append_eq_some.mp hw
  obtain ⟨invited, hinvite, -⟩ := Run.run_cons_eq_some.mp hrest
  have hinvited : runOps dir admin freshTape (front ++ [.invite v forwardOnly g]) = some invited :=
    Run.run_concat_eq_some.mpr ⟨before, hbefore, hinvite⟩
  -- that epoch is before the invite
  have hmoves : (front ++ .invite v forwardOnly g :: back).countP Op.movesEpoch =
      front.countP Op.movesEpoch + (back.countP Op.movesEpoch + 1) := by
    rw [List.countP_append, List.countP_cons_of_pos rfl]
  obtain ⟨key, hkey, hderives⟩ := exists_epochKey_of_invite hinvited (by omega)
  have hlabel : (front ++ .invite v forwardOnly g :: back) ++ .invite user true graft :: post =
      (front ++ [.invite v forwardOnly g]) ++ (back ++ .invite user true graft :: post) := by simp
  refine hholds _ key (by omega) ⟨_, _, invited, hlabel, hinvited, hkey⟩
    (hderives.mono fun t ht => ?_)
  exact ⟨_, _, invited, hlabel, hinvited, .inr ht⟩

/-- A full-history grant queued after the invite gives the key of the first epoch. -/
theorem WindowHolds.after (hholds : WindowHolds dir admin pre user graft post) :
    ∀ op ∈ post, ∀ user graft, op ≠ .invite user false graft := by
  rintro op hop v g rfl
  obtain ⟨front, back, rfl⟩ := List.append_of_mem hop
  have hsplit : pre ++ .invite user true graft :: (front ++ .invite v false g :: back) =
      (pre ++ .invite user true graft :: front) ++ .invite v false g :: back := by simp
  rw [hsplit] at hrun
  obtain ⟨before, hbefore, hrest⟩ := Run.run_append_eq_some.mp hrun
  obtain ⟨invited, hinvite, -⟩ := Run.run_cons_eq_some.mp hrest
  have hinvited : runOps dir admin freshTape
      (pre ++ .invite user true graft :: front ++ [.invite v false g]) = some invited :=
    Run.run_concat_eq_some.mpr ⟨before, hbefore, hinvite⟩
  -- the seed of the first epoch is retained ever since
  have hfirst : Owned dir (bootstrapRepoGroup dir admin (freshTape 0)) _ _ := owned_bootstrap admin
  obtain ⟨group, material, howned, hretains, hepoch⟩ := Retains.of_run hfirst hinvited
  obtain ⟨sent, token, invitation, blob, vk, hsent, -, -, hmsgs⟩ := exists_queued_grant hinvite
  obtain rfl := Option.some.inj (howned.material_eq.symm.trans hsent)
  have hprior : material.priorTransport[0]? =
      some (some (MlsExporter.exportTransport (freshTape 0).epochSecret dir.repo)) := by
    rcases hretains with hsame | ⟨-, htransport, -⟩
    · rw [hsame] at hepoch
      simp [List.countP_append, Op.movesEpoch] at hepoch
    · exact htransport
  -- and the first epoch was sealed with it
  have hkey : EpochMaterial.epochKeyAt _ (freshTape 1).advance _ = .ok _ :=
    EpochMaterial.epochKeyAt_current hfirst.historyFrom.le
      (by decide : (0 : ℕ) < dkrSegmentCapacity) exportTransport_ne_zeroSeed
  refine hholds 0 _ (Nat.succ_pos _)
    ⟨[], _, bootstrapRepoGroup dir admin (freshTape 0), rfl, rfl, dir.owner, _,
      hfirst.material_eq, hkey⟩ (.kdf _ (.known ?_))
  exact ⟨pre ++ .invite user true graft :: front ++ [.invite v false g], back, invited, by simp,
    hinvited, .inr (hmsgs (.inl (.inr ⟨0, hprior⟩)))⟩

end Necessary

/-- The window holds when no grant was queued before the invite and none with full
history is queued after it; within the segment capacity it holds only then. -/
theorem windowHolds_iff
    (hrun : runOps dir admin freshTape (pre ++ .invite user true graft :: post) = some world) :
    (WindowSafe pre post → WindowHolds dir admin pre user graft post) ∧
      (pre.countP Op.movesEpoch < dkrSegmentCapacity →
        WindowHolds dir admin pre user graft post → WindowSafe pre post) :=
  ⟨windowHolds_of_windowSafe hrun, fun hcap hholds =>
    ⟨hholds.before hrun hcap, hholds.after hrun⟩⟩

/-- A member that joins for the future after a rotation, and before a push, another
forward-only invite and a rotation. -/
theorem windowHolds_forwardOnly :
    WindowHolds sampleDirectory sampleAdmin [.rotate, .inviteCollab "bob"] "bob" none
      [.accept "bob", .push "alice" [1] [2] false, .invite "carol" true none, .rotate] := by
  obtain ⟨world, hrun⟩ : ∃ world, runOps sampleDirectory sampleAdmin freshTape
      ([.rotate, .inviteCollab "bob"] ++ .invite "bob" true none ::
        [.accept "bob", .push "alice" [1] [2] false, .invite "carol" true none, .rotate]) =
          some world :=
    Option.isSome_iff_exists.mp (by decide)
  exact (windowHolds_iff hrun).1 ⟨by decide, by simp⟩

/-- A full-history invite of Carol gives Bob the key of the epoch before his own. -/
theorem not_windowHolds_full_after :
    (∃ world, runOps sampleDirectory sampleAdmin freshTape
      [.invite "bob" true none, .invite "carol" false none] = some world) ∧
    ¬ WindowHolds sampleDirectory sampleAdmin [] "bob" none [.invite "carol" false none] := by
  obtain ⟨world, hrun⟩ : ∃ world, runOps sampleDirectory sampleAdmin freshTape
      [.invite "bob" true none, .invite "carol" false none] = some world :=
    Option.isSome_iff_exists.mp (by decide)
  refine ⟨⟨world, hrun⟩, fun hholds => ?_⟩
  exact hholds.after hrun (.invite "carol" false none) (List.mem_singleton_self _) "carol" none rfl

end SafeHub
