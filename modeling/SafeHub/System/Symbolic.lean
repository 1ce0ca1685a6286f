import SafeHub.Lib.DolevYao
import SafeHub.System.Steps

/-!
# Symbolic messages

The membership system over symbolic secrets: every fresh value is a name of its
own, HKDF and the exporter are the one-way derivation of the term algebra. A
world then has terms for what the host stores and for what a user's device keeps.

## Main definitions

* `Fresh`, `freshTape` — the fresh values of a run
* `World.hostView` — what the host has been handed
* `World.deviceView` — what a user's device holds
* `World.EpochKey` — the epoch keys that some device derives

## Main results

* `open_hostView` — the view is open when the grants on the queue are
* `epochKeyAt_not_open` — keys derived from hidden seeds are hidden
-/

namespace SafeHub

open DolevYao OpenMlsGroup
open Std (ExtTreeMap)

/-- The fresh values of a run: those drawn by the operation at index `i`, and the
private keys of the leaves. -/
inductive Fresh
  | epoch (i : ℕ)
  | init (i : ℕ)
  | seeded (i : ℕ)
  | reinit (i : ℕ)
  | block (i : ℕ)
  | dek (i : ℕ)
  | leaf (vk : Bytes)
  deriving DecidableEq

/-- Symbolic messages. -/
abbrev Msg := Term Fresh Bytes

instance : MlsExporter Msg Msg Msg where
  exportTransport secret repo := .kdf (labelBytes "transport" ++ repo.toList) secret
  exportRefs secret repo := .kdf (labelBytes "refs" ++ repo.toList) secret

/-- The all-zero seed is a public constant. -/
instance : SeedKdf Msg Msg where
  expand seed info := .kdf info seed
  zeroSeed := .pub []

theorem exportTransport_ne_zeroSeed {secret : Msg} {repo : RepoId} :
    MlsExporter.exportTransport secret repo ≠ (SeedKdf.zeroSeed : Msg) := nofun

instance : KeyKdf Msg where
  expand key info := .kdf info key

/-- Every operation draws names that nothing else draws. -/
def freshTape (i : ℕ) : OpDraws Msg Msg Msg where
  epochSecret := .name (.epoch i)
  initSeed := .name (.init i)
  advance := ⟨.name (.seeded i), .name (.reinit i)⟩
  block := .name (.block i)
  dek := .name (.dek i)

/-- Worlds, groups, materials and grants over symbolic messages. -/
abbrev SymWorld := World Msg Msg Msg Bytes

abbrev SymGroup := OpenMlsGroup Msg Bytes

abbrev SymMaterial := EpochMaterial Msg Msg

abbrev SymGrant := WelcomeGrant Msg Msg Msg Bytes

/-- Alice owns the repository; Bob and Carol have published key packages. -/
def sampleDirectory : Directory Bytes where
  repo := Vector.replicate 32 0
  owner := "alice"
  ownerLeaf := [0]
  published user := if user = "bob" then some [1] else if user = "carol" then some [2] else none
  published_inj := by
    intro u v leaf hu hv
    grind
  ownerLeaf_fresh := by
    intro u hu
    grind

/-- Alice's admin credential. -/
def sampleAdmin : MlDsa87KeyPair := ⟨[], []⟩

/-! ### Views -/

/-- A sealed box as a message. -/
def SealedBox.msg {P : Type} (content : P → Msg) (box : SealedBox Msg P) : Msg :=
  .senc box.key (content box.plaintext)

/-- An MLS message: a Welcome is for its leaf, a commit for every existing member. -/
def MlsMessage.msgs : MlsMessage Msg Bytes → Set Msg
  | .welcome leaf group => {.aenc (.name (.leaf leaf)) group.secret}
  | .commit previous next =>
    {t | ∃ leaf ∈ previous.members, t = .aenc (.name (.leaf leaf)) next.secret}

/-- The parts of a grant. Only the MLS messages are encrypted. -/
def WelcomeGrant.msgs (grant : SymGrant) : Set Msg :=
  {t | grant.dkrToken = some t} ∪ grant.welcome.msgs ∪ grant.commit.msgs ∪
    {t | ∃ e : ℕ, grant.priorTransport[e]? = some (some t)} ∪
    {t | ∃ e : ℕ, grant.priorRefsMac[e]? = some t}

/-- The parts of a queued message. -/
def Payload.msgs : Payload Msg Msg Msg Bytes → Set Msg
  | .grant sent => sent.msgs
  | .collab box => {box.msg .pub}

/-- The parts of a pushed head. -/
def SealedHead.msgs (head : SealedHead Msg Bytes) : Set Msg :=
  {head.dekWrap.msg id, head.encRefs.msg .pub, .mac head.epochTagKey (.pub [])} ∪
    {t | ∃ chunk ∈ head.chunks, t = chunk.msg .pub} ∪
    {t | ∃ leaf, head.pusher = some leaf ∧ t = .sign (.name (.leaf leaf)) (.pub [])}

/-- Everything the host stores for the repository: the queue, the heads, the blobs. -/
def World.hostView (world : SymWorld) : Set Msg :=
  {t | ∃ env ∈ world.queue, t ∈ env.payload.msgs} ∪
    {t | ∃ head ∈ world.heads, t ∈ head.msgs} ∪
    {t | ∃ box ∈ world.blobs, t = box.msg fun graft => .pub graft.snapshotBundle}

/-- The secrets of a material. -/
def EpochMaterial.msgs (material : SymMaterial) : Set Msg :=
  {material.transport, material.refsMac} ∪ {t | material.dkrToken = some t} ∪
    {t | ∃ e : ℕ, material.priorTransport[e]? = some (some t)} ∪
    {t | ∃ e : ℕ, material.priorRefsMac[e]? = some t}

/-- What a user's device holds: its material, its group and the private key of
its leaf. -/
def World.deviceView (dir : Directory Bytes) (world : SymWorld) (user : UserId) : Set Msg :=
  {t | ∃ material, (world.devices user).material = some material ∧ t ∈ material.msgs} ∪
    {t | ∃ group, (world.devices user).group = some group ∧ t = group.state.secret} ∪
    {t | ∃ leaf, dir.published user = some leaf ∧ t = .name (.leaf leaf)}

/-- A key that some device derives for an epoch, with the random bytes it may draw
at this point. -/
def World.EpochKey (world : SymWorld) (epoch : ℕ) (key : Msg) : Prop :=
  ∃ user material, (world.devices user).material = some material ∧
    material.epochKeyAt (freshTape world.clock).advance epoch = .ok key

/-! ### What is open -/

section Open

variable {hidden : Set Fresh} {world : SymWorld} {dir : Directory Bytes} {material : SymMaterial}

/-- The clear fields of a grant reveal nothing hidden, and neither do the group
states of its MLS messages. -/
structure GrantOpen (hidden : Set Fresh) (grant : SymGrant) : Prop where
  dkrToken : ∀ t, grant.dkrToken = some t → t.Open hidden
  welcome : ∀ leaf group, grant.welcome = .welcome leaf group → group.secret.Open hidden
  noCommit : ∀ previous next, grant.welcome ≠ .commit previous next
  commit : ∀ previous next, grant.commit = .commit previous next → next.secret.Open hidden
  noWelcome : ∀ leaf group, grant.commit ≠ .welcome leaf group
  priorTransport : ∀ (e : ℕ) (t : Msg), grant.priorTransport[e]? = some (some t) → t.Open hidden
  priorRefsMac : ∀ (e : ℕ) (t : Msg), grant.priorRefsMac[e]? = some t → t.Open hidden

theorem GrantOpen.msgs {grant : SymGrant} (h : GrantOpen hidden grant) :
    ∀ t ∈ grant.msgs, t.Open hidden := by
  rintro t ((((htoken | hwelcome) | hcommit) | hprior) | hmac)
  · exact h.dkrToken t htoken
  · cases hcase : grant.welcome with
    | welcome leaf group =>
      rw [hcase] at hwelcome
      obtain rfl := hwelcome
      exact fun _ => h.welcome leaf group hcase
    | commit previous next => exact absurd hcase (h.noCommit previous next)
  · cases hcase : grant.commit with
    | welcome leaf group => exact absurd hcase (h.noWelcome leaf group)
    | commit previous next =>
      rw [hcase] at hcommit
      obtain ⟨leaf, -, rfl⟩ := hcommit
      exact fun _ => h.commit previous next hcase
  · obtain ⟨e, he⟩ := hprior
    exact h.priorTransport e t he
  · obtain ⟨e, he⟩ := hmac
    exact h.priorRefsMac e t he

/-- A head whose data-encryption key is no secret to hide is open. -/
theorem SealedHead.open_msgs {head : SealedHead Msg Bytes}
    (hdek : head.dekWrap.plaintext.Open hidden) : ∀ t ∈ head.msgs, t.Open hidden := by
  rintro t ((hfields | hchunk) | hsign)
  · rcases hfields with rfl | rfl | rfl
    · exact fun _ => hdek
    · exact fun _ => open_pub
    · exact open_mac
  · obtain ⟨chunk, -, rfl⟩ := hchunk
    exact fun _ => open_pub
  · obtain ⟨leaf, -, rfl⟩ := hsign
    exact open_sign.mpr open_pub

/-- The host's view is open when the grants on the queue are; everything else it
stores is sealed, or public inside its seal. -/
theorem open_hostView
    (hgrants : ∀ env ∈ world.queue, ∀ grant, env.payload = .grant grant → GrantOpen hidden grant)
    (hheads : ∀ head ∈ world.heads, head.dekWrap.plaintext.Open hidden) :
    ∀ t ∈ world.hostView, t.Open hidden := by
  rintro t ((⟨env, henv, ht⟩ | ⟨head, hhead, ht⟩) | ⟨box, -, rfl⟩)
  · cases hpayload : env.payload with
    | grant sent =>
      rw [hpayload] at ht
      exact (hgrants env henv sent hpayload).msgs t ht
    | collab box =>
      rw [hpayload] at ht
      obtain rfl := ht
      exact fun _ => open_pub
  · exact SealedHead.open_msgs (hheads head hhead) t ht
  · exact fun _ => open_pub

/-- A key derived from hidden seeds is hidden. -/
theorem epochKeyAt_not_open {draws : Draws Msg} {epoch : ℕ} {key : Msg}
    (hseeded : ¬ draws.seeded.Open hidden) (hreinit : ¬ draws.reinit.Open hidden)
    (hseed : ∀ seed, material.seedAt epoch = .ok seed → ¬ seed.Open hidden)
    (hkey : material.epochKeyAt draws epoch = .ok key) : ¬ key.Open hidden := by
  obtain ⟨-, seed, token, hseedAt, htoken, rfl⟩ := EpochMaterial.epochKeyAt_eq_ok hkey
  change ¬ token.Open hidden
  rcases htoken with rfl | rfl | rfl
  · exact hseed _ hseedAt
  · exact hseeded
  · exact hreinit

end Open

end SafeHub
