import SafeHub.Crypto.MlDsa

/-!
# Repository groups

MLS is taken as ideal: a group is its epoch, its leaf signature keys and an
epoch secret, every change draws a fresh secret, a Welcome opens for the leaf it
is addressed to, and a commit applies to exactly the group it was made for.

## Main definitions

* `OpenMlsGroup` — one device's view of a group
* `addMember`, `rotate` — the two changes, with the messages they produce
* `join`, `applyCommit` — the receiving side
* `exportEpochKeys` — the repository-bound exports of an epoch

## Main results

* `applyCommit_addMember`, `applyCommit_rotate` — members that apply every commit agree
-/

namespace SafeHub

/-- The exporter of MLS: from an epoch secret, bound to a repository, a seed and
a MAC key under separate labels. -/
class MlsExporter (E : Type*) (S K : outParam (Type*)) where
  exportTransport : E → RepoId → S
  exportRefs : E → RepoId → K

/-- What the members of a group share in one epoch. -/
structure GroupState (E L : Type*) where
  epoch : ℕ
  /-- Leaf signature keys, in tree order. -/
  members : List L
  secret : E
  deriving DecidableEq, Repr

/-- Serialized MLS messages. -/
inductive MlsMessage (E L : Type*)
  /-- A Welcome for one leaf. -/
  | welcome (leaf : L) (group : GroupState E L)
  /-- A commit from one state of the group to the next. -/
  | commit (previous next : GroupState E L)
  deriving DecidableEq, Repr

/-- Add-member output. -/
structure MlsInvitation (E L : Type*) where
  /-- Welcome sent only to the joining member. -/
  welcome : MlsMessage E L
  /-- Commit relayed to all existing members. -/
  commit : MlsMessage E L
  deriving DecidableEq, Repr

/-- A repository group bound to one local device. -/
structure OpenMlsGroup (E L : Type*) where
  state : GroupState E L
  /-- The device's own leaf signature key. -/
  leaf : L
  deriving DecidableEq, Repr

/-- The exports of one epoch. -/
structure MlsEpochKeys (S K : Type*) where
  transport : S
  refs : K
  deriving DecidableEq, Repr

namespace OpenMlsGroup

variable {E S K L : Type*}

/-- Create a group with one leaf. -/
def createGroup (leaf : L) (secret : E) : OpenMlsGroup E L := ⟨⟨0, [leaf], secret⟩, leaf⟩

/-- The current epoch. -/
def epoch (group : OpenMlsGroup E L) : ℕ := group.state.epoch

/-- Leaf signature keys of every current member. -/
def memberSignatureKeys (group : OpenMlsGroup E L) : List L := group.state.members

/-- The exports of the current epoch, bound to a repository. -/
def exportEpochKeys [MlsExporter E S K] (group : OpenMlsGroup E L) (repo : RepoId) :
    MlsEpochKeys S K :=
  ⟨MlsExporter.exportTransport group.state.secret repo,
    MlsExporter.exportRefs group.state.secret repo⟩

/-- The state after adding `keyPackage` under a fresh secret. -/
def stateAfterAdd (group : OpenMlsGroup E L) (keyPackage : L) (secret : E) : GroupState E L :=
  ⟨group.epoch + 1, group.state.members ++ [keyPackage], secret⟩

/-- The state after a self-update under a fresh secret. -/
def stateAfterRotate (group : OpenMlsGroup E L) (secret : E) : GroupState E L :=
  ⟨group.epoch + 1, group.state.members, secret⟩

/-- Add a member and merge the commit locally. -/
def addMember [DecidableEq L] (group : OpenMlsGroup E L) (keyPackage : L) (secret : E) :
    Except CryptoError (OpenMlsGroup E L × MlsInvitation E L) :=
  if keyPackage ∈ group.state.members then
    .error (.mls "Duplicate signature key in proposals and group.")
  else
    let next := group.stateAfterAdd keyPackage secret
    .ok ({ group with state := next }, ⟨.welcome keyPackage next, .commit group.state next⟩)

/-- Self-update for post-compromise healing; no member leaves the tree. -/
def rotate (group : OpenMlsGroup E L) (secret : E) : OpenMlsGroup E L × MlsMessage E L :=
  let next := group.stateAfterRotate secret
  ({ group with state := next }, .commit group.state next)

/-- Join from a Welcome with the identity of a leaf. -/
def join [DecidableEq L] (identity : L) (invitation : MlsInvitation E L) :
    Except CryptoError (OpenMlsGroup E L) :=
  match invitation.welcome with
  | .welcome leaf state =>
    if leaf = identity then .ok ⟨state, identity⟩
    else .error (.mls "No matching key package was found in the key store.")
  | .commit _ _ => .error (.mls "expected MLS Welcome")

/-- Process and merge a commit received from another member. -/
def applyCommit [DecidableEq E] [DecidableEq L] (group : OpenMlsGroup E L)
    (message : MlsMessage E L) : Except CryptoError (OpenMlsGroup E L) :=
  match message with
  | .commit previous next =>
    if previous = group.state then .ok { group with state := next }
    else .error (.mls "Message epoch differs from the group's epoch.")
  | .welcome _ _ => .error (.mls "expected MLS commit")

theorem addMember_eq_ok_iff [DecidableEq L] {group next : OpenMlsGroup E L} {keyPackage : L}
    {secret : E} {invitation : MlsInvitation E L} :
    group.addMember keyPackage secret = .ok (next, invitation) ↔
      keyPackage ∉ group.state.members ∧
        next = { group with state := group.stateAfterAdd keyPackage secret } ∧
        invitation = ⟨.welcome keyPackage (group.stateAfterAdd keyPackage secret),
          .commit group.state (group.stateAfterAdd keyPackage secret)⟩ := by
  rw [addMember]
  split_ifs with hmem
  · exact iff_of_false nofun fun h => h.1 hmem
  · rw [Except.ok.injEq, Prod.mk.injEq, eq_comm, @eq_comm _ _ invitation]
    exact ⟨fun h => ⟨hmem, h⟩, fun h => h.2⟩

theorem join_eq_ok_iff [DecidableEq L] {identity : L} {invitation : MlsInvitation E L}
    {group : OpenMlsGroup E L} :
    join identity invitation = .ok group ↔
      invitation.welcome = .welcome identity group.state ∧ group.leaf = identity := by
  obtain ⟨state, leaf⟩ := group
  rw [join]
  split
  · next leaf' state' hwelcome =>
    rw [hwelcome, MlsMessage.welcome.injEq]
    split_ifs with hleaf
    · subst hleaf
      simp [eq_comm]
    · exact iff_of_false nofun fun h => hleaf h.1.1
  · next hcommit =>
    rw [hcommit]
    exact iff_of_false nofun fun h => nomatch h.1

/-- A member that applies the commit of an add shares the new state. -/
theorem applyCommit_addMember [DecidableEq E] [DecidableEq L] {admin next member : OpenMlsGroup E L}
    {keyPackage : L} {secret : E} {invitation : MlsInvitation E L}
    (hadd : admin.addMember keyPackage secret = .ok (next, invitation))
    (hshared : member.state = admin.state) :
    member.applyCommit invitation.commit = .ok { member with state := next.state } := by
  obtain ⟨-, rfl, rfl⟩ := addMember_eq_ok_iff.mp hadd
  rw [applyCommit, if_pos hshared.symm]

/-- A member that applies the commit of a rotation shares the new state. -/
theorem applyCommit_rotate [DecidableEq E] [DecidableEq L] {admin member : OpenMlsGroup E L}
    {secret : E} (hshared : member.state = admin.state) :
    member.applyCommit (admin.rotate secret).2 =
      .ok { member with state := (admin.rotate secret).1.state } := by
  rw [rotate, applyCommit, if_pos hshared.symm]

end OpenMlsGroup

end SafeHub
