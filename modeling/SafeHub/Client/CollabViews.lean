import SafeHub.Client.InboxCache
import SafeHub.Crypto.Aead
import SafeHub.Lib.LastWrite

/-!
# Labels, secrets, variables and gists from the inbox

These have no record of their own: each command that lists or shows them goes through the messages
of the inbox. A list keeps what the last message on a name says. A view of one gist or project shows
the first message that is not a deletion.

## Main definitions

* `AppMessage` — the messages
* `labelList`, `secretList`, `variableList`, `gistList` — the lists
* `variableGet`, `gistView`, `projectView`, `releaseView` — the views
* `VariableCmd` — what `sh variable` sends

## Main results

* `variableGet_settled` — a device that catches up reads what the last command on a variable set
* `gistView_stays` — no edit and no deletion changes what a gist shows
-/

namespace SafeHub

open Std (ExtTreeMap)
open CommittingAead LastWrite Run

/-- A message of the inbox. Of the kinds that are passed over here, nothing is kept besides what
issues and pull requests need. -/
inductive AppMessage
  | collab (msg : CollabMessage)
  | release (tag title notes : String) (assetBlobIds assetNames : List String)
  | label (name : String) (color description : Option String) (action : String)
  | secret (name : String) (sealedValue : Bytes) (runnerHint : Option String) (action : String)
  | groupVariable (name : String) (sealedValue : Bytes) (action : String)
  | gist (id : String) (description : Option String) (files : List (String × String))
      (action : String)
  | project (id title : String) (columns : List (String × List String)) (action : String)
  deriving DecidableEq, Repr

/-! ### Lists -/

/-- A pass over the inbox that sets and removes names. -/
def liveEntries {β : Type} (writeOf : AppMessage → Option (String × Option β))
    (inbox : List (UInt64 × AppMessage)) : ExtTreeMap String β compare :=
  inbox.foldl (fun live entry =>
    match writeOf entry.2 with
    | some change => write live change
    | none => live) ∅

/-- A deletion, or the new value. -/
def unlessDeleted {β : Type} (action : String) (value : β) : Option β :=
  if action = "delete" then none else some value

def labelWrite : AppMessage → Option (String × Option (Option String × Option String))
  | .label name color description action =>
    some (name, unlessDeleted action (color, description))
  | _ => none

def secretWrite : AppMessage → Option (String × Option Unit)
  | .secret name _ _ action => some (name, unlessDeleted action ())
  | _ => none

def variableWrite : AppMessage → Option (String × Option Bytes)
  | .groupVariable name sealedValue action => some (name, unlessDeleted action sealedValue)
  | _ => none

def gistWrite : AppMessage → Option (String × Option String)
  | .gist id description _ action => some (id, unlessDeleted action (description.getD ""))
  | _ => none

/-- `sh label list` -/
def labelList (inbox : List (UInt64 × AppMessage)) : List (String × String × String) :=
  (liveEntries labelWrite inbox).toList.map fun (name, color, description) =>
    (name, color.getD "", description.getD "")

/-- `sh secret list` -/
def secretList (inbox : List (UInt64 × AppMessage)) : List String :=
  (liveEntries secretWrite inbox).keys

/-- `sh variable list` -/
def variableList (inbox : List (UInt64 × AppMessage)) : List String :=
  (liveEntries variableWrite inbox).keys

/-- `sh gist list` -/
def gistList (inbox : List (UInt64 × AppMessage)) : List (String × String) :=
  (liveEntries gistWrite inbox).toList

/-! ### Views -/

/-- The ciphertext that `sh variable get` finds. -/
def variableSealed (name : String) (inbox : List (UInt64 × AppMessage)) : Option Bytes :=
  inbox.foldl (fun sealed entry =>
    match entry.2 with
    | .groupVariable n sealedValue action =>
      if n ≠ name then sealed else if action = "delete" then none else some sealedValue
    | _ => sealed) none

/-- The first message that shows what is asked for. -/
def firstShown {γ : Type} (shows : AppMessage → Option γ) (inbox : List (UInt64 × AppMessage)) :
    Option γ :=
  inbox.findSome? fun entry => shows entry.2

/-- A gist's description and files. -/
def gistShown (id : String) : AppMessage → Option (Option String × List (String × String))
  | .gist gid description files action =>
    if gid = id ∧ action ≠ "delete" then some (description, files) else none
  | _ => none

/-- A project, by id or by title. -/
def projectShown (want : String) :
    AppMessage → Option (String × String × List (String × List String))
  | .project id title columns action =>
    if (id = want ∨ title = want) ∧ action ≠ "delete" then some (id, title, columns) else none
  | _ => none

/-- A release's title, notes and assets. -/
def releaseShown (tag : String) :
    AppMessage → Option (String × String × List (String × String))
  | .release t title notes assetBlobIds assetNames =>
    if t = tag then some (title, notes, assetNames.zip assetBlobIds) else none
  | _ => none

/-- `sh gist view` -/
def gistView (id : String) (inbox : List (UInt64 × AppMessage)) :
    Option (Option String × List (String × String)) :=
  firstShown (gistShown id) inbox

/-- `sh project view` -/
def projectView (want : String) (inbox : List (UInt64 × AppMessage)) :
    Option (String × String × List (String × List String)) :=
  firstShown (projectShown want) inbox

/-- `sh release view` -/
def releaseView (tag : String) (inbox : List (UInt64 × AppMessage)) :
    Option (String × String × List (String × String)) :=
  firstShown (releaseShown tag) inbox

/-! ### Sealing -/

section Seals

variable [HashPrimitives]

/-- `seal_collab` -/
def sealCollabBytes (refsMac plaintext : Bytes) (nonce : Vector UInt8 12) : Bytes :=
  sealWithNonce refsMac (labelBytes "collab") plaintext nonce.toList

/-- `open_collab` -/
def openCollabBytes (refsMac sealed : Bytes) : Except AeadError Bytes :=
  openSealed refsMac (labelBytes "collab") sealed

def deriveSecretSealKey (transport : Bytes) : Bytes :=
  HashPrimitives.hkdfExpand transport (labelBytes "secret-seal-key") aeadKeyLen

/-- Seal a value to a runner's key package, or to the group. -/
def sealSecretForRunner (refsMac transport plaintext : Bytes) (runnerKp : Option Bytes)
    (nonce : Vector UInt8 12) : Bytes :=
  match runnerKp with
  | some kp =>
    sealWithNonce (deriveSecretSealKey transport) (labelBytes "secret-kp" ++ kp) plaintext
      nonce.toList
  | none => sealCollabBytes refsMac plaintext nonce

/-- Why a command fails. -/
inductive ViewError
  | bail (message : String)
  | crypto (e : AeadError)
  deriving DecidableEq, Repr

/-- `sh variable get` -/
def variableGet (refsMac : Bytes) (name : String) (inbox : List (UInt64 × AppMessage)) :
    Except ViewError Bytes :=
  match variableSealed name inbox with
  | none => .error (.bail ("variable " ++ name ++ " not found"))
  | some sealed => (openCollabBytes refsMac sealed).mapError .crypto

/-- `sh variable set` and `sh variable delete` -/
inductive VariableCmd
  | set (name : String) (value : Bytes) (nonce : Vector UInt8 12)
  | delete (name : String)

namespace VariableCmd

def name : VariableCmd → String
  | set name _ _ => name
  | delete name => name

/-- The message that is sent. -/
def message (refsMac transport : Bytes) : VariableCmd → AppMessage
  | set name value nonce =>
    .groupVariable name (sealSecretForRunner refsMac transport value none nonce) "set"
  | delete name => .groupVariable name [] "delete"

/-- What the variable reads as afterwards. -/
def outcome : VariableCmd → Except ViewError Bytes
  | set _ value _ => .ok value
  | delete name => .error (.bail ("variable " ++ name ++ " not found"))

def sets : VariableCmd → Bool
  | set _ _ _ => true
  | delete _ => false

end VariableCmd

/-- `enqueue_collab`: a message, sealed, on the queue. -/
def InboxOp.enqueueCollab [SerdeJson AppMessage] (refsMac : Bytes) (repo : RepoId)
    (msg : AppMessage) (hint : String) (nonce : Vector UInt8 12) : InboxOp :=
  .enqueue repo (sealCollabBytes refsMac (SerdeJson.toVec msg) nonce) (some hint)

theorem openCollabBytes_sealCollabBytes (refsMac plaintext : Bytes) (nonce : Vector UInt8 12) :
    openCollabBytes refsMac (sealCollabBytes refsMac plaintext nonce) = .ok plaintext :=
  openSealed_sealWithNonce _ _ _ Vector.length_toList

end Seals

/-! ### Lists and views -/

section Views

variable {inbox more : List (UInt64 × AppMessage)} {name : String}

/-- The changes that an inbox makes. -/
def changes {β : Type} (writeOf : AppMessage → Option (String × Option β))
    (inbox : List (UInt64 × AppMessage)) : List (String × Option β) :=
  inbox.filterMap fun entry => writeOf entry.2

theorem liveEntries_eq_replay {β : Type} (writeOf : AppMessage → Option (String × Option β)) :
    liveEntries writeOf inbox = LastWrite.replay (changes writeOf inbox) := by
  rw [liveEntries, LastWrite.replay, changes, List.foldl_filterMap]
  congr 1
  funext live entry
  cases writeOf entry.2 <;> rfl

theorem variableSealed_eq_register :
    variableSealed name inbox = LastWrite.register name (changes variableWrite inbox) := by
  rw [variableSealed, LastWrite.register, changes, List.foldl_filterMap]
  congr 1
  funext sealed entry
  cases entry.2 <;> simp only [variableWrite]
  next n sealedValue action =>
    by_cases hname : n = name
    · subst hname
      simp [unlessDeleted]
    · simp [hname]

/-- What is listed can be looked up, and what can be looked up is listed. -/
theorem mem_variableList_iff : name ∈ variableList inbox ↔ (variableSealed name inbox).isSome := by
  rw [variableList, liveEntries_eq_replay, mem_keys_replay, variableSealed_eq_register,
    register_eq_lastWrite]

/-- What a view shows is not changed by later messages. -/
theorem firstShown_append {γ : Type} {shows : AppMessage → Option γ} {shown : γ}
    (h : firstShown shows inbox = some shown) : firstShown shows (inbox ++ more) = some shown := by
  rw [firstShown, List.findSome?_append]
  rw [firstShown] at h
  rw [h]
  rfl

end Views

/-! ### Devices that have caught up -/

section Devices

variable [HashPrimitives] [SerdeJson AppMessage] [SerdeJson MlsCursor] (refsMac : Bytes)

/-- What a device makes of a payload. -/
def openPayload (payload : Bytes) : Option Bytes := (openCollabBytes refsMac payload).toOption

/-- A step of the members and the device. -/
def inboxStep (world : InboxWorld) (op : InboxOp) : Option InboxWorld :=
  world.step AppMessage (openPayload refsMac) op

/-- The messages of a queue, as the device opens them. -/
def queueMessages (queue : List StoredEnvelope) : List (UInt64 × AppMessage) :=
  openedMessages AppMessage (openPayload refsMac) queue

/-- The message that an operation puts on the queue, if it opens. -/
def InboxOp.message? : InboxOp → Option AppMessage
  | .enqueue _ payload _ => (openPayload refsMac payload).bind fun plain =>
    (SerdeJson.fromSlice plain).toOption
  | _ => none

/-- The device syncs as often as the length of the queue takes, and reads its directory. -/
def CaughtUp (world : InboxWorld) (inbox : List (UInt64 × AppMessage)) : Prop :=
  ∃ n synced listing, world.queue.length ≤ 100 * n ∧
    run (inboxStep refsMac) world (List.replicate n .sync) = some synced ∧
    listing.Perm synced.files.messages.toList ∧ readInboxCache listing = .ok inbox

variable {refsMac} {world sent later : InboxWorld} {ops more : List InboxOp}
  {inbox : List (UInt64 × AppMessage)}

/-- A device that has caught up has the messages of the queue, and every device can catch up. -/
theorem caughtUp_iff (hrun : run (inboxStep refsMac) .new ops = some world) :
    CaughtUp refsMac world inbox ↔ inbox = queueMessages refsMac world.queue := by
  constructor
  · rintro ⟨n, synced, listing, hn, hsyncs, hlisting, hread⟩
    have hall := (mirrors_of_run hrun).readInboxCache_of_syncs hn hsyncs hlisting
    exact Except.ok.inj (hread.symm.trans hall)
  · rintro rfl
    obtain ⟨files, hsyncs, -, -⟩ := (mirrors_of_run hrun).run_syncs world.queue.length
    have hn : world.queue.length ≤ 100 * world.queue.length := by omega
    exact ⟨_, _, _, hn, hsyncs, List.Perm.refl _,
      (mirrors_of_run hrun).readInboxCache_of_syncs hn hsyncs (List.Perm.refl _)⟩

/-- The queue grows by what is enqueued. -/
theorem queue_of_run (hrun : run (inboxStep refsMac) world more = some later) :
    ∃ queued, later.queue = world.queue ++ queued ∧
      ∀ env ∈ queued, ∃ repo hint, InboxOp.enqueue repo env.payload hint ∈ more := by
  refine run_induction (P := fun more later => ∃ queued, later.queue = world.queue ++ queued ∧
    ∀ env ∈ queued, ∃ repo hint, InboxOp.enqueue repo env.payload hint ∈ more)
    ⟨[], (List.append_nil _).symm, nofun⟩ ?_ hrun
  rintro more t op u - ⟨queued, hqueue, hqueued⟩ hstep
  have hmono : ∀ env ∈ queued, ∃ repo hint, InboxOp.enqueue repo env.payload hint ∈ more ++ [op] :=
    fun env hmem => by
      obtain ⟨repo, hint, hop⟩ := hqueued env hmem
      exact ⟨repo, hint, List.mem_append_left _ hop⟩
  cases op with
  | enqueue repo payload hint =>
    rw [inboxStep, InboxWorld.step] at hstep
    split at hstep
    · next seq hseq =>
      obtain rfl := Option.some.inj hstep
      refine ⟨queued ++ [_], by rw [hqueue, List.append_assoc], fun env hmem => ?_⟩
      rcases List.mem_append.mp hmem with hmem | hlast
      · exact hmono env hmem
      · obtain rfl := List.mem_singleton.mp hlast
        exact ⟨repo, hint, List.mem_append_right _ (List.mem_singleton_self _)⟩
    · cases hstep
  | sync =>
    obtain rfl := Option.some.inj hstep
    exact ⟨queued, hqueue, hmono⟩
  | cutSync whole part =>
    obtain rfl := Option.some.inj hstep
    exact ⟨queued, hqueue, hmono⟩

/-- The messages that come after a point of the run are sent after it. -/
theorem queueMessages_of_run (hrun : run (inboxStep refsMac) world more = some later) :
    ∃ received, queueMessages refsMac later.queue = queueMessages refsMac world.queue ++ received ∧
      ∀ entry ∈ received, ∃ op ∈ more, op.message? refsMac = some entry.2 := by
  obtain ⟨queued, hqueue, hqueued⟩ := queue_of_run hrun
  refine ⟨queueMessages refsMac queued, ?_, fun entry hentry => ?_⟩
  · rw [hqueue, queueMessages, openedMessages, List.filterMap_append]
    rfl
  · obtain ⟨env, hmem, hopen⟩ := mem_openedMessages.mp hentry
    obtain ⟨repo, hint, hop⟩ := hqueued env hmem
    obtain ⟨plain, hplain, hmap⟩ := Option.bind_eq_some_iff.mp hopen
    obtain ⟨msg, hmsg, rfl⟩ := Option.map_eq_some_iff.mp hmap
    exact ⟨_, hop, Option.bind_eq_some_iff.mpr ⟨plain, hplain, hmsg⟩⟩

/-- A message that a member sends opens on the device. -/
theorem queueMessages_enqueueCollab {repo : RepoId} {msg : AppMessage} {hint : String}
    {nonce : Vector UInt8 12}
    (hsend : inboxStep refsMac world
      (InboxOp.enqueueCollab refsMac repo msg hint nonce) = some sent) :
    ∃ seq, queueMessages refsMac sent.queue =
      queueMessages refsMac world.queue ++ [(seq, msg)] := by
  rw [inboxStep, InboxOp.enqueueCollab, InboxWorld.step] at hsend
  split at hsend
  · next seq hseq =>
    obtain rfl := Option.some.inj hsend
    refine ⟨seq, ?_⟩
    rw [queueMessages, openedMessages, List.filterMap_append]
    have hopen : openedMessage (openPayload refsMac)
        { mlsEnqueueEnvelope repo (sealCollabBytes refsMac (SerdeJson.toVec msg) nonce)
          (some hint) with seq := seq } = some (seq, msg) := by
      rw [openedMessage, openPayload, mlsEnqueueEnvelope, openCollabBytes_sealCollabBytes,
        Except.toOption, Option.bind_some, SerdeJson.fromSlice_toVec]
      rfl
    rw [List.filterMap_cons_some hopen]
    rfl
  · cases hsend

/-! ### What a device shows -/

/-- A device that has caught up reads the value that the last command on a variable set, and lists
the name if there is one. -/
theorem variableGet_settled (cmd : VariableCmd) (transport : Bytes) {repo : RepoId} {hint : String}
    {nonce : Vector UInt8 12} (hrun : run (inboxStep refsMac) .new ops = some world)
    (hsend : inboxStep refsMac world
      (InboxOp.enqueueCollab refsMac repo (cmd.message refsMac transport) hint nonce) = some sent)
    (hmore : run (inboxStep refsMac) sent more = some later)
    (hquiet : ∀ op ∈ more, ∀ msg ∈ op.message? refsMac, ∀ change ∈ variableWrite msg,
      change.1 ≠ cmd.name)
    (hcaught : CaughtUp refsMac later inbox) :
    variableGet refsMac cmd.name inbox = cmd.outcome ∧
      (cmd.name ∈ variableList inbox ↔ cmd.sets) := by
  have hlater : run (inboxStep refsMac) .new (ops ++ _ :: more) = some later :=
    run_append_eq_some.mpr ⟨world, hrun, run_cons_eq_some.mpr ⟨sent, hsend, hmore⟩⟩
  obtain ⟨seq, hsent⟩ := queueMessages_enqueueCollab hsend
  obtain ⟨received, hreceived, hfrom⟩ := queueMessages_of_run hmore
  rw [(caughtUp_iff hlater).mp hcaught, hreceived, hsent]
  -- what comes after the command is about other names
  have hothers : ∀ change ∈ changes variableWrite received, change.1 ≠ cmd.name := by
    intro change hchange
    obtain ⟨entry, hentry, hwrite⟩ := List.mem_filterMap.mp hchange
    obtain ⟨op, hop, hmsg⟩ := hfrom entry hentry
    exact hquiet op hop entry.2 hmsg change hwrite
  have hsealed : variableSealed cmd.name (queueMessages refsMac world.queue ++
      [(seq, cmd.message refsMac transport)] ++ received) =
      ((variableWrite (cmd.message refsMac transport)).bind Prod.snd) := by
    rw [variableSealed_eq_register, register_eq_lastWrite, changes, List.filterMap_append]
    refine (lastWrite_append_of_forall_ne hothers).trans ?_
    rw [List.filterMap_append]
    cases cmd <;> exact (lastWrite_concat _).trans (if_pos rfl)
  rw [mem_variableList_iff, variableGet, hsealed]
  cases cmd with
  | set name value valueNonce =>
    refine ⟨?_, iff_of_true rfl rfl⟩
    exact congrArg (Except.mapError ViewError.crypto)
      (openCollabBytes_sealCollabBytes refsMac value valueNonce)
  | delete name => exact ⟨rfl, iff_of_false Bool.false_ne_true Bool.false_ne_true⟩

/-- `sh gist delete` -/
def gistDeletion (id : String) : AppMessage := .gist id none [] "delete"

/-- Once a gist is shown, it is shown in the same form after any edits and after its deletion,
though the list then leaves it out. -/
theorem gistView_deleted {id : String} {shown : Option String × List (String × String)}
    {before : List (UInt64 × AppMessage)} {mid : List InboxOp} {edited : InboxWorld} {repo : RepoId}
    {hint : String} {nonce : Vector UInt8 12}
    (hrun : run (inboxStep refsMac) .new ops = some world) (hbefore : CaughtUp refsMac world before)
    (hshown : gistView id before = some shown)
    (hmid : run (inboxStep refsMac) world mid = some edited)
    (hsend : inboxStep refsMac edited
      (InboxOp.enqueueCollab refsMac repo (gistDeletion id) hint nonce) = some sent)
    (hmore : run (inboxStep refsMac) sent more = some later)
    (hquiet : ∀ op ∈ more, ∀ msg ∈ op.message? refsMac, ∀ change ∈ gistWrite msg, change.1 ≠ id)
    (hcaught : CaughtUp refsMac later inbox) :
    gistView id inbox = some shown ∧ id ∉ (gistList inbox).map Prod.fst := by
  have hlater : run (inboxStep refsMac) .new (ops ++ (mid ++ _ :: more)) = some later :=
    run_append_eq_some.mpr ⟨world, hrun, run_append_eq_some.mpr
      ⟨edited, hmid, run_cons_eq_some.mpr ⟨sent, hsend, hmore⟩⟩⟩
  obtain ⟨edits, hedits, -⟩ := queueMessages_of_run hmid
  obtain ⟨seq, hsent⟩ := queueMessages_enqueueCollab hsend
  obtain ⟨received, hreceived, hfrom⟩ := queueMessages_of_run hmore
  rw [(caughtUp_iff hlater).mp hcaught, hreceived, hsent]
  constructor
  · -- the view stops at the first message that shows the gist, whatever comes after it
    rw [hedits, List.append_assoc, List.append_assoc]
    rw [(caughtUp_iff hrun).mp hbefore] at hshown
    exact firstShown_append hshown
  · -- the list goes by the last write to the identifier, which is the deletion
    have hothers : ∀ change ∈ changes gistWrite received, change.1 ≠ id := by
      intro change hchange
      obtain ⟨entry, hentry, hwrite⟩ := List.mem_filterMap.mp hchange
      obtain ⟨op, hop, hmsg⟩ := hfrom entry hentry
      exact hquiet op hop entry.2 hmsg change hwrite
    have hlast : lastWrite id (changes gistWrite (queueMessages refsMac edited.queue ++
        [(seq, gistDeletion id)] ++ received)) = none := by
      rw [changes, List.filterMap_append]
      refine (lastWrite_append_of_forall_ne hothers).trans ?_
      rw [List.filterMap_append]
      exact (lastWrite_concat _).trans (if_pos rfl)
    rw [gistList, TreeMaps.mem_map_fst_toList, liveEntries_eq_replay, getElem?_replay, hlast]
    exact nofun

end Devices

/-! ### A variable that is set and deleted -/

section Sample

open Framing

/-- The fields of a message by their types. -/
abbrev RawMessage := (UInt8 × List String) × (List (Option String) × Bytes) × List (List String)

def AppMessage.raw : AppMessage → RawMessage
  | .collab (.pullRequest id headRef baseRef title body state) =>
    ((0, [id, headRef, baseRef, title, body, state]), ([], []), [])
  | .collab (.issue id title body state) => ((1, [id, title, body, state]), ([], []), [])
  | .collab (.review prId verdict body) => ((2, [prId, verdict, body]), ([], []), [])
  | .collab (.comment targetKind targetId body) =>
    ((3, [targetKind, targetId, body]), ([], []), [])
  | .collab .other => ((4, []), ([], []), [])
  | .release tag title notes ids names => ((5, [tag, title, notes]), ([], []), [ids, names])
  | .label name color description action => ((6, [name, action]), ([color, description], []), [])
  | .secret name value hint action => ((7, [name, action]), ([hint], value), [])
  | .groupVariable name value action => ((8, [name, action]), ([], value), [])
  | .gist id description files action =>
    ((9, [id, action]), ([description], []), files.map fun file => [file.1, file.2])
  | .project id title columns action =>
    ((10, [id, title, action]), ([], []), columns.map fun column => column.1 :: column.2)

def AppMessage.ofRaw : RawMessage → AppMessage
  | ((0, [id, headRef, baseRef, title, body, state]), _) =>
    .collab (.pullRequest id headRef baseRef title body state)
  | ((1, [id, title, body, state]), _) => .collab (.issue id title body state)
  | ((2, [prId, verdict, body]), _) => .collab (.review prId verdict body)
  | ((3, [targetKind, targetId, body]), _) => .collab (.comment targetKind targetId body)
  | ((5, [tag, title, notes]), _, [ids, names]) => .release tag title notes ids names
  | ((6, [name, action]), ([color, description], _), _) => .label name color description action
  | ((7, [name, action]), ([hint], value), _) => .secret name value hint action
  | ((8, [name, action]), (_, value), _) => .groupVariable name value action
  | ((9, [id, action]), ([description], _), files) =>
    .gist id description (files.map fun file => (file.headD "", file.getLastD "")) action
  | ((10, [id, title, action]), _, columns) =>
    .project id title (columns.map fun column => (column.headD "", column.tail)) action
  | _ => .collab .other

theorem AppMessage.ofRaw_raw (msg : AppMessage) : ofRaw msg.raw = msg := by
  cases msg with
  | collab msg => cases msg <;> rfl
  | gist id description files action => simp [raw, ofRaw, Function.comp_def]
  | project id title columns action => simp [raw, ofRaw, Function.comp_def]
  | _ => rfl

def rawMessageCode : Code RawMessage :=
  (Code.byte.pair Code.string.list).pair
    ((Code.string.option.list.pair Code.byte.list).pair Code.string.list.list)

abbrev codedAppMessage : SerdeJson AppMessage :=
  codecJson (.ofCode
    (rawMessageCode.through AppMessage.raw AppMessage.ofRaw AppMessage.ofRaw_raw) nofun)

attribute [local instance] transparentHash codedAppMessage codedCursor

/-- A group key. -/
def sampleKey : Bytes := List.replicate 32 5

/-- A variable is set between syncs that are cut off. -/
def setToken : VariableCmd := .set "TOKEN" [1, 2] (Vector.replicate 12 0)

theorem message?_enqueue_short (repo : RepoId) (hint : Option String) :
    (InboxOp.enqueue repo [9] hint).message? sampleKey = none := by
  have hshort : openCollabBytes sampleKey [9] = .error .decrypt := by
    rw [openCollabBytes, openSealed, if_pos]
    rw [length_commitBlock]
    decide
  rw [InboxOp.message?, openPayload, hshort]
  rfl

theorem variableGet_settled_token : ∃ later inbox,
    run (inboxStep sampleKey) .new
      ([.enqueue queueRepo [7] none, .cutSync 1 1] ++
        InboxOp.enqueueCollab sampleKey queueRepo (setToken.message sampleKey [3]) "variable"
          (Vector.replicate 12 1) :: [.sync, .enqueue queueRepo [9] none, .cutSync 0 3]) =
      some later ∧ CaughtUp sampleKey later inbox ∧
    variableGet sampleKey "TOKEN" inbox = .ok [1, 2] ∧ "TOKEN" ∈ variableList inbox := by
  obtain ⟨later, hall⟩ : ∃ later, run (inboxStep sampleKey) .new
      ([.enqueue queueRepo [7] none, .cutSync 1 1] ++
        InboxOp.enqueueCollab sampleKey queueRepo (setToken.message sampleKey [3]) "variable"
          (Vector.replicate 12 1) :: [.sync, .enqueue queueRepo [9] none, .cutSync 0 3]) =
      some later := ⟨_, rfl⟩
  obtain ⟨world, hrun, hrest⟩ := run_append_eq_some.mp hall
  obtain ⟨sent, hsend, hmore⟩ := run_cons_eq_some.mp hrest
  have hcaught := (caughtUp_iff hall).mpr rfl
  obtain ⟨hget, hlist⟩ := variableGet_settled setToken [3] hrun hsend hmore (by
    simp only [List.forall_mem_cons]
    refine ⟨nofun, ?_, nofun, nofun⟩
    rw [message?_enqueue_short]
    exact nofun) hcaught
  exact ⟨later, _, hall, hcaught, hget, hlist.mpr rfl⟩

/-- A gist of one file. -/
def sampleGist : AppMessage := .gist "gist-1" none [("a.txt", "first")] "create"

/-- The same gist with another text. -/
def editedGist : AppMessage := .gist "gist-1" none [("a.txt", "second")] "edit"

theorem gistView_deleted_sample : ∃ later inbox,
    run (inboxStep sampleKey) .new
      ([InboxOp.enqueueCollab sampleKey queueRepo sampleGist "gist" (Vector.replicate 12 1)] ++
        ([InboxOp.enqueueCollab sampleKey queueRepo editedGist "gist-edit"
            (Vector.replicate 12 2), .sync] ++
          InboxOp.enqueueCollab sampleKey queueRepo (gistDeletion "gist-1") "gist-delete"
            (Vector.replicate 12 3) :: [.enqueue queueRepo [9] none])) = some later ∧
    CaughtUp sampleKey later inbox ∧
    gistView "gist-1" inbox = some (none, [("a.txt", "first")]) ∧
      "gist-1" ∉ (gistList inbox).map Prod.fst := by
  obtain ⟨later, hall⟩ : ∃ later, run (inboxStep sampleKey) .new
      ([InboxOp.enqueueCollab sampleKey queueRepo sampleGist "gist" (Vector.replicate 12 1)] ++
        ([InboxOp.enqueueCollab sampleKey queueRepo editedGist "gist-edit"
            (Vector.replicate 12 2), .sync] ++
          InboxOp.enqueueCollab sampleKey queueRepo (gistDeletion "gist-1") "gist-delete"
            (Vector.replicate 12 3) :: [.enqueue queueRepo [9] none])) = some later := ⟨_, rfl⟩
  obtain ⟨world, hrun, hrest⟩ := run_append_eq_some.mp hall
  obtain ⟨edited, hmid, hrest⟩ := run_append_eq_some.mp hrest
  obtain ⟨sent, hsend, hmore⟩ := run_cons_eq_some.mp hrest
  obtain ⟨created, hcreate, hnil⟩ := run_cons_eq_some.mp hrun
  obtain rfl := Option.some.inj hnil
  obtain ⟨seq, hfirst⟩ := queueMessages_enqueueCollab hcreate
  have hshown : gistView "gist-1" (queueMessages sampleKey created.queue) =
      some (none, [("a.txt", "first")]) := by
    rw [hfirst]
    rfl
  have hcaught := (caughtUp_iff hall).mpr rfl
  obtain ⟨hview, hlist⟩ := gistView_deleted hrun ((caughtUp_iff hrun).mpr rfl) hshown hmid hsend
    hmore (by
      simp only [List.forall_mem_singleton]
      rw [message?_enqueue_short]
      exact nofun) hcaught
  exact ⟨later, _, hall, hcaught, hview, hlist⟩

end Sample

end SafeHub
