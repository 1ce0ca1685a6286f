import SafeHub.Client.Material
import SafeHub.Crypto.Aead
import SafeHub.Crypto.Mls
import SafeHub.Lib.Run

/-!
# Membership of a repository

The owner creates the group, invites users with a Welcome and a grant on the
delivery queue, and rotates; invited users accept. Every device keeps its group,
its material and its inbox, and the host keeps the collaborator list, the queue,
the heads and the blobs. AEAD is ideal: a sealed box opens under the key and the
associated data it was sealed with.

A repository id is fresh when its group is bootstrapped, so a run starts from the
bootstrapped state. An operation that fails before it has saved anything is no
step; an invite that fails at the host after the device has saved is one of its own.

## Main definitions

* `World` — one repository with all devices and the host
* `bootstrapRepoGroup`, `inviteMemberMls`, `acceptWelcomeMls`, `rotateRepoGroup`
* `Op`, `perform`, `step` — the operations as a step function
-/

namespace SafeHub

open Std (ExtTreeMap)

/-- A ciphertext of the ideal AEAD, with what it was sealed under. -/
structure SealedBox (K P : Type) where
  key : K
  aad : Bytes
  plaintext : P
  deriving DecidableEq, Repr

/-- Open a sealed box. -/
def SealedBox.openWith {K P : Type} [DecidableEq K] (box : SealedBox K P) (key : K)
    (aad : Bytes) : Except AeadError P :=
  if box.key = key ∧ box.aad = aad then .ok box.plaintext else .error .decrypt

/-- A snapshot handed to a forward-only joiner. -/
structure GraftedSnapshot where
  /-- Inclusive start epoch of the history window. -/
  historyLeft : ℕ
  snapshotBundle : Bytes
  deriving DecidableEq, Repr

/-- History grant encoded alongside Welcome delivery. -/
structure WelcomeGrant (E S K L : Type) where
  /-- `full` or `forward_only`. -/
  history : String
  /-- Inclusive start epoch of the window. -/
  historyFrom : ℕ
  /-- Interval token of the joiner's window. -/
  dkrToken : SeedVec S
  /-- Blob of an encrypted grafted snapshot. -/
  graftBlobId : Option ℕ
  welcome : MlsMessage E L
  /-- Commit for existing members. -/
  commit : MlsMessage E L
  /-- Admin verifying key. -/
  adminVk : Option Bytes
  /-- Retained transport seeds of a full-history grant. -/
  priorTransport : ExtTreeMap ℕ (SeedVec S) compare
  /-- Retained MAC keys of a full-history grant. -/
  priorRefsMac : ExtTreeMap ℕ K compare

/-- The payload of a queued message. -/
inductive Payload (E S K L : Type)
  | grant (grant : WelcomeGrant E S K L)
  | collab (box : SealedBox K Bytes)

/-- A message on the delivery queue. -/
structure MlsDeliveryEnvelope (E S K L : Type) where
  seq : ℕ
  payload : Payload E S K L
  senderHint : Option String

/-- A pushed head and its chunks. -/
structure SealedHead (K L : Type) where
  seq : UInt64
  mlsEpoch : ℕ
  dekWrap : SealedBox K K
  encRefs : SealedBox K Bytes
  chunks : List (SealedBox K Bytes)
  /-- The MAC key of the epoch tag. -/
  epochTagKey : K
  nonFf : Bool
  /-- The leaf that signed, when the device had a durable group. -/
  pusher : Option L
  deriving DecidableEq, Repr

/-- The local state of a user's device for the repository. -/
structure Device (E S K L : Type) where
  /-- Admin credential of the creator. -/
  adminKeys : Option MlDsa87KeyPair
  adminVk : Option Bytes
  group : Option (OpenMlsGroup E L)
  material : Option (EpochMaterial S K)
  /-- Imported grafted snapshot. -/
  graft : Option GraftedSnapshot
  /-- Queue cursor of the inbox. -/
  cursor : ℕ
  inbox : List (ℕ × Bytes)

/-- The device of a user that has done nothing yet. -/
def Device.fresh {E S K L : Type} : Device E S K L := ⟨none, none, none, none, none, 0, []⟩

/-- The users around one repository: its owner, the leaf that the owner's device
generates at bootstrap, and the leaves of the published device identities. Every
identity is generated afresh, so no leaf belongs to two of them. A member's key
package stays the one of its device identity: creating or forking another repository,
which publishes another one, is not among the operations. -/
structure Directory (L : Type) where
  repo : RepoId
  owner : UserId
  ownerLeaf : L
  published : UserId → Option L
  published_inj : ∀ u v leaf, published u = some leaf → published v = some leaf → u = v
  ownerLeaf_fresh : ∀ u, published u ≠ some ownerLeaf

/-- The key package on the host for a user. Bootstrap replaces the owner's. -/
def Directory.keyPackage {L : Type} (dir : Directory L) (user : UserId) : Option L :=
  if user = dir.owner then some dir.ownerLeaf else dir.published user

/-- The fresh values one operation may draw. -/
structure OpDraws (E S K : Type) where
  /-- The epoch secret of a group change. -/
  epochSecret : E
  /-- The seed of an unseeded chain at `init`. -/
  initSeed : S
  /-- The seeds that advancing may draw. -/
  advance : Draws S
  /-- The seed of a backward block. -/
  block : S
  /-- A data-encryption key. -/
  dek : K

/-- One repository with all devices and the host's records of it. -/
structure World (E S K L : Type) where
  /-- How many operations have drawn fresh values. -/
  clock : ℕ
  devices : UserId → Device E S K L
  collaborators : List UserId
  queue : List (MlsDeliveryEnvelope E S K L)
  heads : List (SealedHead K L)
  blobs : List (SealedBox K GraftedSnapshot)

section Operations

variable {E S K L : Type} [MlsExporter E S K] [SeedKdf S K] [KeyKdf K]
variable [DecidableEq S] [DecidableEq K] [DecidableEq L]

/-- Replace the device of a user. -/
def World.setDevice (world : World E S K L) (user : UserId) (device : Device E S K L) :
    World E S K L :=
  { world with devices := Function.update world.devices user device }

/-- Append a payload to the delivery queue. -/
def World.enqueue (world : World E S K L) (payload : Payload E S K L)
    (senderHint : Option String) : World E S K L :=
  { world with queue := world.queue ++ [⟨world.queue.length + 1, payload, senderHint⟩] }

/-- Whether the host lets a user use the repository's routes. -/
def World.isMember (dir : Directory L) (world : World E S K L) (user : UserId) : Bool :=
  user == dir.owner || world.collaborators.contains user

/-- Page size of the client's queue requests. -/
def mlsFetchLimit : ℕ := 100

/-- The queued messages after a cursor, one page. -/
def World.mlsFetch (world : World E S K L) (after : ℕ) : List (MlsDeliveryEnvelope E S K L) :=
  (world.queue.filter fun env => after < env.seq).take mlsFetchLimit

/-- What the host answers to a user without access. -/
def forbidden : ClientError := .api 403 "forbidden"

/-! ### Bootstrap -/

/-- The exporter material of a group state with a given token. -/
def exporterMaterial (dir : Directory L) (group : OpenMlsGroup E L) (token : S) :
    EpochMaterial S K :=
  let keys := group.exportEpochKeys dir.repo
  { epoch := group.epoch
    transport := keys.transport
    refsMac := keys.refs
    historyFrom := 0
    dkrToken := some token
    priorTransport := ∅
    priorRefsMac := ∅ }

/-- Create the group of a new repository on the owner's device. -/
def bootstrapRepoGroup (dir : Directory L) (admin : MlDsa87KeyPair) (draws : OpDraws E S K) :
    World E S K L :=
  let group := OpenMlsGroup.createGroup dir.ownerLeaf draws.epochSecret
  let material := exporterMaterial dir group (group.exportEpochKeys dir.repo).transport
  let device : Device E S K L :=
    { (Device.fresh : Device E S K L) with
      adminKeys := some admin
      adminVk := some admin.publicKey
      group := some group
      material := some (material.inherit none) }
  { clock := 1
    devices := fun user => if user = dir.owner then device else Device.fresh
    collaborators := [dir.owner]
    queue := []
    heads := []
    blobs := [] }

/-! ### Invite -/

/-- The interval a joiner is granted: a reseeded block for a forward-only join,
the group's own segment otherwise. -/
def joinInterval (draws : OpDraws E S K) (transport : S) (epoch : ℕ) (forwardOnly : Bool) :
    Except CryptoError (DkrInterval S) :=
  let dkr := ((IntervalDkr.withSeed transport).init draws.initSeed).1
  if forwardOnly then
    .ok (dkr.backwardBlock draws.block epoch).2
  else
    (dkr.advance draws.advance epoch).map Prod.snd

/-- The grant that goes with an invitation. A forward-only grant carries no
retained seeds. -/
def welcomeGrant (invitation : MlsInvitation E L) (material : EpochMaterial S K)
    (token : S) (forwardOnly : Bool) (graftBlobId : Option ℕ) (adminVk : Option Bytes) :
    WelcomeGrant E S K L where
  history := if forwardOnly then "forward_only" else "full"
  historyFrom := if forwardOnly then material.epoch else 0
  dkrToken := some token
  graftBlobId := graftBlobId
  welcome := invitation.welcome
  commit := invitation.commit
  adminVk := adminVk
  priorTransport := if forwardOnly then ∅ else material.priorTransport
  priorRefsMac := if forwardOnly then ∅ else material.priorRefsMac

/-- Associated data of sealed objects. -/
def casAad : Bytes := labelBytes "cas-obj"

/-- The sealed snapshot of a forward-only invite, if there is one. -/
def graftBox (material : EpochMaterial S K) (forwardOnly : Bool) (graft : Option Bytes) :
    Option (SealedBox K GraftedSnapshot) :=
  match forwardOnly, graft with
  | true, some bundle => some ⟨casSealKey material.transport, casAad, ⟨material.epoch, bundle⟩⟩
  | _, _ => none

/-- The state once the inviting device has saved its new group and material. -/
def World.inviteSaved (dir : Directory L) (world : World E S K L) (group : OpenMlsGroup E L)
    (token : S) : World E S K L :=
  let device := world.devices dir.owner
  let material := (exporterMaterial dir group token).inherit device.material
  world.setDevice dir.owner { device with group := some group, material := some material }

/-- The state after an invite whose group change and token are given. -/
def World.afterInvite (dir : Directory L) (world : World E S K L) (user : UserId)
    (group : OpenMlsGroup E L) (invitation : MlsInvitation E L) (token : S)
    (forwardOnly : Bool) (graft : Option Bytes) : World E S K L :=
  let device := world.devices dir.owner
  let material := (exporterMaterial dir group token).inherit device.material
  let box := graftBox material forwardOnly graft
  let grant := welcomeGrant invitation material token forwardOnly
    (box.map fun _ => world.blobs.length) (device.adminVk.or (device.adminKeys.map (·.publicKey)))
  let saved := world.inviteSaved dir group token
  let uploaded := { saved with blobs := saved.blobs ++ box.toList }
  uploaded.enqueue (.grant grant) (some s!"invite:{user}")

/-- The state after an invite that the host cut off: the device has saved, the
snapshot may be uploaded, the Welcome is not queued. -/
def World.afterInviteCut (dir : Directory L) (world : World E S K L) (group : OpenMlsGroup E L)
    (token : S) (forwardOnly : Bool) (graft : Option Bytes) (uploaded : Bool) :
    World E S K L :=
  let material := (exporterMaterial dir group token).inherit (world.devices dir.owner).material
  let saved := world.inviteSaved dir group token
  if uploaded then
    { saved with blobs := saved.blobs ++ (graftBox material forwardOnly graft).toList }
  else
    saved

/-- The group change and the token of an invite. -/
def inviteGroup (dir : Directory L) (draws : OpDraws E S K) (world : World E S K L)
    (user : UserId) (forwardOnly : Bool) :
    Except ClientError (OpenMlsGroup E L × MlsInvitation E L × S) :=
  let device := world.devices dir.owner
  match device.adminKeys, device.group, dir.keyPackage user with
  | none, _, _ => .error (.config "missing admin ML-DSA key")
  | some _, none, _ => .error (.config "missing durable MLS group")
  | some _, some _, none => .error (.other s!"no KeyPackage for {user}")
  | some _, some group, some keyPackage => do
    let (group, invitation) ← orOther (group.addMember keyPackage draws.epochSecret)
    let interval ← orOther (joinInterval draws (group.exportEpochKeys dir.repo).transport
      group.epoch forwardOnly)
    return (group, invitation, interval.token)

/-- Invite a user with a durable Welcome on the delivery queue. -/
def inviteMemberMls (dir : Directory L) (draws : OpDraws E S K) (world : World E S K L)
    (user : UserId) (forwardOnly : Bool) (graft : Option Bytes) :
    Except ClientError (World E S K L) := do
  let (group, invitation, token) ← inviteGroup dir draws world user forwardOnly
  return world.afterInvite dir user group invitation token forwardOnly graft

/-- What the same invite leaves when the host fails its upload or its enqueue. -/
def inviteMemberCut (dir : Directory L) (draws : OpDraws E S K) (world : World E S K L)
    (user : UserId) (forwardOnly : Bool) (graft : Option Bytes) (uploaded : Bool) :
    Except ClientError (World E S K L) := do
  let (group, _, token) ← inviteGroup dir draws world user forwardOnly
  return world.afterInviteCut dir group token forwardOnly graft uploaded

/-! ### Accept -/

/-- The grant of a payload, if it is one. -/
def Payload.grant? : Payload E S K L → Option (WelcomeGrant E S K L)
  | .grant sent => some sent
  | .collab _ => none

/-- The last grant of a page, whoever it is for. -/
def lastGrant (messages : List (MlsDeliveryEnvelope E S K L)) : Option (WelcomeGrant E S K L) :=
  (messages.filterMap fun env => env.payload.grant?).getLast?

/-- The material a joiner makes of its group and its grant. -/
def joinerMaterial (dir : Directory L) (group : OpenMlsGroup E L) (grant : WelcomeGrant E S K L) :
    EpochMaterial S K :=
  let keys := group.exportEpochKeys dir.repo
  { epoch := group.epoch
    transport := keys.transport
    refsMac := keys.refs
    historyFrom := grant.historyFrom
    dkrToken := some (grant.dkrToken.getD keys.transport)
    priorTransport := grant.priorTransport
    priorRefsMac := grant.priorRefsMac }

/-- The snapshot a grant refers to, when it opens. A snapshot that does not open
makes the command fail after the material is saved. -/
def World.importGraft (world : World E S K L) (material : EpochMaterial S K)
    (grant : WelcomeGrant E S K L) : Option GraftedSnapshot := do
  let id ← grant.graftBlobId
  let box ← world.blobs[id]?
  (box.openWith (casSealKey material.transport) casAad).toOption

/-- The state after a joiner has opened its Welcome. -/
def World.afterAccept (dir : Directory L) (world : World E S K L) (user : UserId)
    (group : OpenMlsGroup E L) (grant : WelcomeGrant E S K L) : World E S K L :=
  let device := world.devices user
  let material := joinerMaterial dir group grant
  world.setDevice user
    { device with
      group := some group
      material := some material
      adminVk := grant.adminVk.or device.adminVk
      graft := (world.importGraft material grant).or device.graft }

/-- Accept the latest Welcome on the queue with the user's device identity. -/
def acceptWelcomeMls (dir : Directory L) (world : World E S K L) (user : UserId) :
    Except ClientError (World E S K L) :=
  if world.isMember dir user then
    match lastGrant (world.mlsFetch 0), dir.published user with
    | none, _ => .error (.other "no Welcome grant on MLS delivery queue")
    | some _, none => .error (.config "missing device MLS identity")
    | some grant, some identity => do
      let group ← orOther (OpenMlsGroup.join identity ⟨grant.welcome, grant.commit⟩)
      return world.afterAccept dir user group grant
  else
    .error forbidden

/-! ### Rotate -/

/-- The state after a rotation of the owner's group; the commit goes nowhere. -/
def World.afterRotate (dir : Directory L) (world : World E S K L) (group : OpenMlsGroup E L) :
    World E S K L :=
  let device := world.devices dir.owner
  let material := (exporterMaterial dir group
    (group.exportEpochKeys dir.repo).transport).inherit device.material
  world.setDevice dir.owner { device with group := some group, material := some material }

/-- Rotate the owner's group by a self-update. -/
def rotateRepoGroup (dir : Directory L) (draws : OpDraws E S K) (world : World E S K L) :
    Except ClientError (World E S K L) :=
  let device := world.devices dir.owner
  match device.adminKeys, device.group with
  | none, _ => .error (.config "missing admin ML-DSA key")
  | some _, none => .error (.config "missing durable MLS group")
  | some _, some group => .ok (world.afterRotate dir (group.rotate draws.epochSecret).1)

/-- Take a user off the host's collaborator list. -/
def World.removeCollaborator (world : World E S K L) (user : UserId) : World E S K L :=
  { world with collaborators := world.collaborators.filter (· ≠ user) }

/-- Put a user on the host's collaborator list. -/
def World.inviteCollaborator (world : World E S K L) (user : UserId) : World E S K L :=
  if world.collaborators.contains user then world
  else { world with collaborators := world.collaborators ++ [user] }

/-- Remove a member: cap the collaborator list, then rotate. -/
def removeMember (dir : Directory L) (draws : OpDraws E S K) (world : World E S K L)
    (user : UserId) : Except ClientError (World E S K L) :=
  rotateRepoGroup dir draws (world.removeCollaborator user)

/-! ### Collaboration messages -/

/-- Associated data of collaboration messages. -/
def collabAad : Bytes := labelBytes "collab"

/-- Seal a collaboration message and enqueue it. -/
def enqueueCollab (dir : Directory L) (world : World E S K L) (user : UserId) (text : Bytes) :
    Except ClientError (World E S K L) :=
  match (world.devices user).material with
  | none => .error (.config "missing MLS epoch material")
  | some material =>
    if world.isMember dir user then
      .ok (world.enqueue (.collab ⟨material.refsMac, collabAad, text⟩) none)
    else
      .error forbidden

/-- The collaboration message of an envelope, when it opens. Grants do not. -/
def openCollab (material : EpochMaterial S K) (env : MlsDeliveryEnvelope E S K L) :
    Option (ℕ × Bytes) :=
  match env.payload with
  | .collab box =>
    (box.openWith material.refsMac collabAad).toOption.map fun text => (env.seq, text)
  | .grant _ => none

/-- Fetch the queue, cache the collaboration messages that open, move the cursor. -/
def syncInbox (dir : Directory L) (world : World E S K L) (user : UserId) :
    Except ClientError (World E S K L) :=
  let device := world.devices user
  match device.material with
  | none => .error (.config "missing MLS epoch material")
  | some material =>
    if world.isMember dir user then
      let envs := world.mlsFetch device.cursor
      .ok (world.setDevice user
        { device with
          cursor := (envs.map (·.seq)).foldl max device.cursor
          inbox := device.inbox ++ envs.filterMap (openCollab material) })
    else
      .error forbidden

/-! ### Push -/

/-- The head a push seals under its epoch key, and the chunks that go with it. -/
def sealHead (material : EpochMaterial S K) (epochKey dek : K) (seq : UInt64)
    (refs bundle : Bytes) (nonFf : Bool) (pusher : Option L) : SealedHead K L where
  seq := seq
  mlsEpoch := material.epoch
  dekWrap := ⟨headSealKey epochKey seq, labelBytes "dek-wrap", dek⟩
  encRefs := ⟨headSealKey epochKey seq, labelBytes "refs", refs⟩
  chunks := [⟨dek, labelBytes "bundle-chunk", bundle⟩]
  epochTagKey := material.refsMac
  nonFf := nonFf
  pusher := pusher

/-- Push a bundle as the next head. Only the admin can sign a non-fast-forward one. -/
def pushBundle (dir : Directory L) (draws : OpDraws E S K) (world : World E S K L)
    (user : UserId) (refs bundle : Bytes) (nonFf : Bool) :
    Except ClientError (World E S K L) :=
  let device := world.devices user
  match device.material with
  | none => .error (.config "missing MLS epoch material")
  | some material =>
    if world.isMember dir user then
      if nonFf && device.group.isSome && device.adminKeys.isNone then
        .error (.config "missing admin ML-DSA key")
      else do
        let epochKey ← material.epochKey draws.advance
        let seq := UInt64.ofNat (world.heads.length + 1)
        let head := sealHead material epochKey draws.dek seq refs bundle nonFf
          (device.group.map (·.leaf))
        return { world with heads := world.heads ++ [head] }
    else
      .error forbidden

/-! ### The system -/

/-- The operations on a repository. Group changes run on the owner's device, the
only one with the admin credential. -/
inductive Op
  | invite (user : UserId) (forwardOnly : Bool) (graft : Option Bytes)
  | inviteCut (user : UserId) (forwardOnly : Bool) (graft : Option Bytes) (uploaded : Bool)
  | accept (user : UserId)
  | rotate
  | removeMember (user : UserId)
  | inviteCollab (user : UserId)
  | removeCollab (user : UserId)
  | collab (user : UserId) (text : Bytes)
  | sync (user : UserId)
  | push (user : UserId) (refs bundle : Bytes) (nonFf : Bool)
  deriving DecidableEq, Repr

/-- Carry out one operation with the given fresh values. -/
def perform (dir : Directory L) (draws : OpDraws E S K) (world : World E S K L) :
    Op → Except ClientError (World E S K L)
  | .invite user forwardOnly graft => inviteMemberMls dir draws world user forwardOnly graft
  | .inviteCut user forwardOnly graft uploaded =>
    inviteMemberCut dir draws world user forwardOnly graft uploaded
  | .accept user => acceptWelcomeMls dir world user
  | .rotate => rotateRepoGroup dir draws world
  | .removeMember user => removeMember dir draws world user
  | .inviteCollab user => .ok (world.inviteCollaborator user)
  | .removeCollab user => .ok (world.removeCollaborator user)
  | .collab user text => enqueueCollab dir world user text
  | .sync user => syncInbox dir world user
  | .push user refs bundle nonFf => pushBundle dir draws world user refs bundle nonFf

/-- One successful operation, drawing from the tape of fresh values. -/
def step (dir : Directory L) (tape : ℕ → OpDraws E S K) (world : World E S K L) (op : Op) :
    Option (World E S K L) :=
  (perform dir (tape world.clock) world op).toOption.map fun next =>
    { next with clock := world.clock + 1 }

/-- The operations after bootstrap, one after the other. -/
def runOps (dir : Directory L) (admin : MlDsa87KeyPair) (tape : ℕ → OpDraws E S K)
    (ops : List Op) : Option (World E S K L) :=
  Run.run (step dir tape) (bootstrapRepoGroup dir admin (tape 0)) ops

end Operations

end SafeHub
