import SafeHub.Server.Directory
import SafeHub.Storage.HeadLog
import SafeHub.Storage.Queue

/-!
# Requests on the host

The routes that hold ciphertext are keyed by the identifier of a repository: blobs, heads, the
delivery queue and the key log. Each finds the record of the identifier, checks that the caller is
a member of the repository by that record's name, and goes to its store. Requests are whole here;
their steps are in the modules of the stores. The files of a store are kept apart from those of
another, and what the file system refuses is left out.

## Main definitions

* `HostState` — the host's files
* `RouteRequest`, `HostState.serveRoute` — the routes keyed by an identifier
* `HostRequest`, `serveAll` — runs of requests

## Main results

* `recordsAgree_serveAll` — the two records of a repository agree
* `storedReadable_serveAll` — what is stored can be read
-/

namespace SafeHub

open Std (ExtTreeMap)
open Paths

/-! ### Identifiers in paths -/

def hexDigit (c : Char) : Option UInt8 :=
  if '0' ≤ c ∧ c ≤ '9' then some (UInt8.ofNat (c.toNat - 48))
  else if 'a' ≤ c ∧ c ≤ 'f' then some (UInt8.ofNat (c.toNat - 87))
  else if 'A' ≤ c ∧ c ≤ 'F' then some (UInt8.ofNat (c.toNat - 55))
  else none

def hexPairs : List Char → Option Bytes
  | [] => some []
  | [_] => none
  | a :: b :: rest => do
    let high ← hexDigit a
    let low ← hexDigit b
    let bytes ← hexPairs rest
    return (16 * high + low) :: bytes

/-- The bytes of a hex string, in digits of either case. -/
def hexDecode (text : String) : Option Bytes := hexPairs text.toList

/-- The lower-case hex string of bytes. -/
def hexEncode (bytes : Bytes) : String :=
  String.ofList (bytes.flatMap fun b =>
    [Nat.digitChar (b.toNat / 16), Nat.digitChar (b.toNat % 16)])

def RepoId.fromHex (text : String) : Option RepoId := do
  let bytes ← hexDecode text
  if bytes.length = 32 then some (byteArray 32 bytes) else none

def BlobId.fromHex (D : Type) [Sha512 D] [DigestBytes D] (text : String) : Option (BlobId D) := do
  let bytes ← hexDecode text
  if bytes.length = 64 then some (DigestBytes.ofBytes bytes) else none

def parseRepoId (text : String) : Except StatusCode RepoId :=
  match RepoId.fromHex text with
  | some repo => .ok repo
  | none => .error .badRequest

theorem hexDigit_digitChar {n : ℕ} (h : n < 16) :
    hexDigit (Nat.digitChar n) = some (UInt8.ofNat n) := by
  have hdigits : ∀ n : Fin 16, hexDigit (Nat.digitChar n) = some (UInt8.ofNat n) := by decide
  exact hdigits ⟨n, h⟩

/-- A byte from its two digits. -/
theorem byte_of_digits (b : UInt8) :
    16 * UInt8.ofNat (b.toNat / 16) + UInt8.ofNat (b.toNat % 16) = b := by
  have hb := b.toNat_lt
  apply UInt8.toNat.inj
  rw [UInt8.toNat_add, UInt8.toNat_mul, UInt8.toNat_ofNat', UInt8.toNat_ofNat',
    show UInt8.toNat 16 = 16 from rfl]
  omega

theorem hexDecode_hexEncode (bytes : Bytes) : hexDecode (hexEncode bytes) = some bytes := by
  rw [hexDecode, hexEncode, String.toList_ofList]
  induction bytes with
  | nil => rfl
  | cons b bytes ih =>
    have hb := b.toNat_lt
    rw [List.flatMap_cons, List.cons_append, List.cons_append, List.nil_append, hexPairs,
      hexDigit_digitChar (by omega), hexDigit_digitChar (by omega), ih]
    exact congrArg (fun b => some (b :: bytes)) (byte_of_digits b)

/-- The path of a blob leads to its identifier. -/
theorem BlobId.fromHex_hexEncode {D : Type} [Sha512 D] [DigestBytes D] (id : BlobId D) :
    BlobId.fromHex D (hexEncode (Sha512.toBytes id)) = some id := by
  rw [BlobId.fromHex, hexDecode_hexEncode, Option.bind_eq_bind, Option.bind_some,
    if_pos (DigestBytes.length_toBytes id), DigestBytes.ofBytes_toBytes]

/-- The path of a repository leads to its identifier. -/
theorem parseRepoId_hexEncode (repo : RepoId) : parseRepoId (hexEncode repo.toList) = .ok repo := by
  rw [parseRepoId, RepoId.fromHex, hexDecode_hexEncode, Option.bind_eq_bind, Option.bind_some,
    if_pos repo.length_toList, byteArray_toList]

/-! ### Requests and replies -/

/-- The texts of a blob put that are parsed: metadata, a whole request, and base64. -/
class BlobTexts (D : Type) where
  metaOfJson : String → Except String (BlobMeta D)
  requestOfJson : Bytes → Except String (BlobMeta D × String)
  base64 : String → Except String Bytes

def blobMetaHeader : String := "x-safehub-blob-meta"

structure PutBlobRequest where
  /-- The content type, where there is one in plain text. -/
  contentType : Option String
  /-- The header with the metadata; an error where it is not plain text. -/
  metaHeader : Option (Except String String)
  body : Bytes

structure AfterQuery where
  after : Option UInt64
  limit : Option ℕ

def defaultLimit : ℕ := 100

/-- Upper bound on a single page of heads. -/
def maxHeadsPage : ℕ := 1000

/-- An entry of a repository's key log. -/
structure KeyLogEntry (D : Type) where
  driveEpoch : UInt64
  wrappedDkr : Bytes
  prevHash : HeadHash D
  adminSig : Bytes
  deriving DecidableEq

/-- What is asked on a route keyed by a repository's identifier. -/
inductive RouteRequest (D : Type)
  | putBlob (request : PutBlobRequest)
  | getBlob (blobId : String)
  | headTip
  | appendHead (head : RefHead D)
  | headsSince (query : AfterQuery)
  | mlsEnqueue (payload : Bytes) (senderHint : Option String)
  | mlsFetch (query : AfterQuery)
  | appendKeylog (entry : KeyLogEntry D)

/-- A request of an authenticated user on such a route, with the clock. -/
structure RouteCall (D : Type) where
  user : UserId
  /-- The identifier as the path has it. -/
  repoId : String
  now : String
  request : RouteRequest D

inductive RouteReply (D : Type)
  | stored (id : BlobId D)
  | blob (bytes : Bytes)
  | tip (head : RefHead D)
  | appended (hash : HeadHash D)
  | heads (heads : List (RefHead D))
  | enqueued (seq : UInt64)
  | messages (messages : List StoredEnvelope)
  | noContent
  deriving DecidableEq

/-- How a request fails. -/
inductive RouteError
  | response (e : HttpError)
  /-- The request's task panics and there is no response. -/
  | panicked (message : String)
  deriving DecidableEq

/-- A failure that is answered by a status alone. -/
def RouteError.status (code : StatusCode) : RouteError := .response ⟨code, ""⟩

/-- The files of the host. -/
structure HostState (D : Type) where
  /-- The records of repositories by the places of their paths. -/
  byName : List String → Option RepoRecord
  byId : RepoId → Option RepoRecord
  /-- The members records by the places of their paths. -/
  members : List String → Option RepoMembers
  blobs : BlobId D → Option Bytes
  blobMeta : BlobId D → Option (BlobMeta D)
  heads : HeadStore
  /-- `mls/{repo}/{seq}.json` -/
  mls : RepoId → ExtTreeMap UInt64 Bytes compare
  /-- `keylog/{repo}/{epoch}.json` -/
  keylog : RepoId → ExtTreeMap UInt64 (KeyLogEntry D) compare

def HostState.empty {D : Type} : HostState D where
  byName _ := none
  byId _ := none
  members _ := none
  blobs _ := none
  blobMeta _ := none
  heads _ := .empty
  mls _ := ∅
  keylog _ := ∅

/-- The place of the members record. -/
def membersPlace (data : DataRoot) (name : RepoName) : List String :=
  resolve (membersPath data name)

/-! ### The routes -/

/-- The metadata and the ciphertext of a blob put. -/
def PutBlobRequest.read (D : Type) [BlobTexts D] (r : PutBlobRequest) :
    Except HttpError (BlobMeta D × Bytes) :=
  if "application/octet-stream".toList.isPrefixOf (r.contentType.getD "").toList then
    match r.metaHeader with
    | none => .error ⟨.badRequest, "missing " ++ blobMetaHeader⟩
    | some (.error e) => .error ⟨.badRequest, e⟩
    | some (.ok text) =>
      match BlobTexts.metaOfJson text with
      | .error e => .error ⟨.badRequest, e⟩
      | .ok info => .ok (info, r.body)
  else
    match BlobTexts.requestOfJson r.body with
    | .error e => .error ⟨.badRequest, e⟩
    | .ok (info, text) =>
      match BlobTexts.base64 D text with
      | .error e => .error ⟨.badRequest, e⟩
      | .ok ciphertext => .ok (info, ciphertext)

/-- Whether the failures of a route before its store have texts. -/
def RouteRequest.hasTexts {D : Type} : RouteRequest D → Bool
  | .putBlob _ | .appendHead _ | .mlsEnqueue _ _ | .appendKeylog _ => true
  | .getBlob _ | .headTip | .headsSince _ | .mlsFetch _ => false

namespace HostState

section Authorization

variable {D : Type} (data : DataRoot) (s : HostState D)

/-- The members record of a repository. -/
def membersOf (name : RepoName) (now : String) : RepoMembers :=
  loadMembers name.owner now (s.members (membersPlace data name))

def requireMember (user : UserId) (name : RepoName) (now : String) : Except StatusCode Unit :=
  if isMember (s.membersOf data name now) user then .ok () else .error .forbidden

/-- Membership check for ciphertext routes keyed by an opaque identifier. -/
def requireRepoIdMember (user : UserId) (repo : RepoId) (now : String) : Except StatusCode Unit :=
  match s.byId repo with
  | none => .error .notFound
  | some rec => s.requireMember data user rec.name now

/-- How every route keyed by an identifier starts. -/
def authorize (call : RouteCall D) : Except HttpError RepoId :=
  match parseRepoId call.repoId with
  | .error code => .error ⟨code, if call.request.hasTexts then "bad repo id" else ""⟩
  | .ok repo =>
    match s.requireRepoIdMember data call.user repo call.now with
    | .error code => .error ⟨code, if call.request.hasTexts then "forbidden" else ""⟩
    | .ok () => .ok repo

end Authorization

section Routes

variable {D : Type} [Sha512 D] [DecidableEq D] (s : HostState D)

def putBlob [BlobTexts D] (request : PutBlobRequest) :
    Except RouteError (RouteReply D) × HostState D :=
  match request.read D with
  | .error e => (.error (.response e), s)
  | .ok (info, ciphertext) =>
    let id : BlobId D := Sha512.digest ciphertext
    let info := { info with id := id, size := ciphertext.length }
    -- a file of that name counts as stored
    let blobs := if (s.blobs id).isSome then s.blobs
      else Function.update s.blobs id (some ciphertext)
    (.ok (.stored id),
      { s with blobs := blobs, blobMeta := Function.update s.blobMeta id (some info) })

variable [DigestBytes D]

def getBlob (blobId : String) : Except RouteError (RouteReply D) :=
  match BlobId.fromHex D blobId with
  | none => .error (.status .badRequest)
  | some id =>
    match s.blobs id with
    | none => .error (.status .notFound)
    | some bytes => .ok (.blob bytes)

variable [LegacyHeads D]

def headTip (repo : RepoId) : Except RouteError (RouteReply D) :=
  match tipOf (s.heads repo) with
  | .ok (some head) => .ok (.tip head)
  | .ok none => .error (.status .notFound)
  | .error _ => .error (.status .internalServerError)

/-- How a refused append is answered. -/
def appendError : StorageError D → RouteError
  | .casConflict expected => .response
      ⟨.conflict, "cas conflict, expected " ++ hexEncode (Sha512.toBytes expected)⟩
  | .notFound id => .response ⟨.badRequest, "blob not found: " ++ id⟩
  | .other message => .response ⟨.badRequest, message⟩
  -- what follows is the text of the file system or of the JSON parser
  | .io => .response ⟨.badRequest, "io: "⟩
  | .serde => .response ⟨.badRequest, "serde: "⟩
  | .panicked message => .panicked message

def appendHead (repo : RepoId) (head : RefHead D) :
    Except RouteError (RouteReply D) × HostState D :=
  if head.repoId ≠ repo then (.error (.response ⟨.badRequest, "repo_id mismatch"⟩), s)
  else
    match casAppend s.heads head with
    | (.ok hash, heads) => (.ok (.appended hash), { s with heads := heads })
    | (.error e, heads) => (.error (appendError e), { s with heads := heads })

def headsSince (repo : RepoId) (query : AfterQuery) : Except RouteError (RouteReply D) :=
  match since (D := D) (s.heads repo).entries (query.after.getD 0) with
  | .error _ => .error (.status .internalServerError)
  | .ok heads =>
    .ok (.heads (heads.take (max 1 (min (query.limit.getD defaultLimit) maxHeadsPage))))

variable [EnvelopeCodec]

def mlsEnqueue (repo : RepoId) (payload : Bytes) (senderHint : Option String) :
    Except RouteError (RouteReply D) × HostState D :=
  match nextSeq (D := Digest) (maxSeq (s.mls repo).keys) with
  | .error _ => (.error (.panicked "attempt to add with overflow"), s)
  | .ok seq =>
    let env := { mlsEnqueueEnvelope repo payload senderHint with seq := seq }
    (.ok (.enqueued seq), { s with
      mls := Function.update s.mls repo ((s.mls repo).insert seq (EnvelopeCodec.encode env)) })

def mlsFetch (repo : RepoId) (query : AfterQuery) : Except RouteError (RouteReply D) :=
  match fetchQueue (s.mls repo).toList (query.after.getD 0) (query.limit.getD defaultLimit) with
  | .error _ => .error (.status .internalServerError)
  | .ok messages => .ok (.messages messages)

def appendKeylog (repo : RepoId) (entry : KeyLogEntry D) :
    Except RouteError (RouteReply D) × HostState D :=
  (.ok .noContent, { s with
    keylog := Function.update s.keylog repo ((s.keylog repo).insert entry.driveEpoch entry) })

variable [BlobTexts D]

/-- What a route does for a member of the repository. -/
def serveMember (repo : RepoId) : RouteRequest D → Except RouteError (RouteReply D) × HostState D
  | .putBlob request => s.putBlob request
  | .getBlob blobId => (s.getBlob blobId, s)
  | .headTip => (s.headTip repo, s)
  | .appendHead head => s.appendHead repo head
  | .headsSince query => (s.headsSince repo query, s)
  | .mlsEnqueue payload senderHint => s.mlsEnqueue repo payload senderHint
  | .mlsFetch query => (s.mlsFetch repo query, s)
  | .appendKeylog entry => s.appendKeylog repo entry

/-- A request on a route keyed by an identifier. -/
def serveRoute (data : DataRoot) (call : RouteCall D) :
    Except RouteError (RouteReply D) × HostState D :=
  match s.authorize data call with
  | .error e => (.error (.response e), s)
  | .ok repo => s.serveMember repo call.request

end Routes

/-! ### Repositories and their members -/

section Directory

variable {D : Type} (data : DataRoot) (s : HostState D)

/-- Write both records of a repository. -/
def writeRecord (rec : RepoRecord) : HostState D :=
  { s with
    byName := Function.update s.byName (namePlace data rec.name) (some rec)
    byId := Function.update s.byId rec.id (some rec) }

def createRepo (c : CreateRequest) (now : String) :
    Except HttpError (Option RepoRecord) × HostState D :=
  let record := c.record
  if (s.byName (namePlace data record.name)).isSome then
    (.error ⟨.conflict, "repo " ++ record.name.shown ++ " already exists"⟩, s)
  else
    let members := loadMembers record.name.owner now none
    (.ok (some record), { s.writeRecord data record with
      members := Function.update s.members (membersPlace data record.name) (some members) })

/-- Change or delete a repository. -/
def updateRepo (caller : UserId) (target : RepoName) (edit : DirEdit) (now : String) :
    Except HttpError (Option RepoRecord) × HostState D :=
  let u : UpdateRequest := ⟨caller, target, s.membersOf data target now, edit⟩
  match u.authorize with
  | .error e => (.error e, s)
  | .ok () =>
    match s.byName (namePlace data target) with
    | none => (.error ⟨.notFound, u.text "not found"⟩, s)
    | some stored =>
      match u.edited stored with
      | .error e => (.error e, s)
      | .ok body =>
        if (s.byName (namePlace data body.name)).isSome then
          (.ok (u.success body), s.writeRecord data body)
        else (.error ⟨.internalServerError, u.text ("repo " ++ body.name.shown ++ " not found")⟩, s)

def getRepo (user : UserId) (target : RepoName) (now : String) : Except StatusCode RepoRecord :=
  match s.byName (namePlace data target) with
  | none => .error .notFound
  | some rec =>
    if rec.deleted then .error .notFound
    else
      match s.requireMember data user target now with
      | .error code => .error code
      | .ok () => .ok rec

/-- Invite or remove a collaborator. -/
def editCollab (target : RepoName) (request : CollabRequest) : HostState D :=
  let place := membersPlace data target
  let file := (serveCollab target.owner (fun _ : Unit => request) () (s.members place)).1
  { s with members := Function.update s.members place file }

end Directory

end HostState

/-- A request of an authenticated user. -/
inductive HostRequest (D : Type)
  | createRepo (request : CreateRequest) (now : String)
  | updateRepo (caller : UserId) (target : RepoName) (edit : DirEdit) (now : String)
  | editCollab (target : RepoName) (request : CollabRequest)
  | route (call : RouteCall D)

/-- The identifier that is drawn for a request. -/
def HostRequest.drawn {D : Type} : HostRequest D → Option RepoId
  | .createRepo request _ => some request.id
  | _ => none

section Runs

variable {D : Type} [Sha512 D] [DecidableEq D] [DigestBytes D] [LegacyHeads D] [EnvelopeCodec]
  [BlobTexts D]

/-- Serve a request. -/
def HostState.serve (data : DataRoot) (s : HostState D) : HostRequest D → HostState D
  | .createRepo request now => (s.createRepo data request now).2
  | .updateRepo caller target edit now => (s.updateRepo data caller target edit now).2
  | .editCollab target request => s.editCollab data target request
  | .route call => (s.serveRoute data call).2

/-- The host after serving requests from its start. -/
def serveAll (data : DataRoot) (requests : List (HostRequest D)) : HostState D :=
  requests.foldl (HostState.serve data) .empty

end Runs

/-- Identifiers that are drawn in a run differ. -/
def IdsDrawnOnce {D : Type} (requests : List (HostRequest D)) : Prop :=
  (requests.filterMap HostRequest.drawn).Nodup

theorem IdsDrawnOnce.of_append_left {D : Type} {requests more : List (HostRequest D)}
    (h : IdsDrawnOnce (requests ++ more)) : IdsDrawnOnce requests := by
  rw [IdsDrawnOnce, List.filterMap_append] at h
  exact h.of_append_left

/-! ### What holds after every run -/

/-- The heads and the messages of every repository can be read. -/
structure StoredReadable {D : Type} [Sha512 D] [DigestBytes D] [LegacyHeads D] [EnvelopeCodec]
    (s : HostState D) : Prop where
  heads : ∀ repo, ∃ log : List (RefHead D), Holds (s.heads repo) log
  mls : ∀ (repo : RepoId) (seq : UInt64) (bytes : Bytes), (s.mls repo)[seq]? = some bytes →
    ∃ env, EnvelopeCodec.encode env = bytes

/-- The two records of every repository agree. -/
structure RecordsAgree {D : Type} (data : DataRoot) (s : HostState D) : Prop where
  byName : ∀ place rec, s.byName place = some rec →
    namePlace data rec.name = place ∧ s.byId rec.id = some rec
  byId : ∀ id rec, s.byId id = some rec →
    rec.id = id ∧ s.byName (namePlace data rec.name) = some rec

section Invariants

variable {D : Type} {data : DataRoot} {s : HostState D} {rec body : RepoRecord}

/-- Who passes the check of a route keyed by an identifier. -/
theorem HostState.authorize_eq_ok_iff {call : RouteCall D} {repo : RepoId} :
    s.authorize data call = .ok repo ↔ parseRepoId call.repoId = .ok repo ∧
      ∃ rec, s.byId repo = some rec ∧
        isMember (s.membersOf data rec.name call.now) call.user = true := by
  rw [HostState.authorize]
  cases parseRepoId call.repoId with
  | error code => simp
  | ok found =>
    dsimp only
    rw [HostState.requireRepoIdMember, Except.ok.injEq]
    cases hrec : s.byId found with
    | none =>
      refine iff_of_false (by simp) ?_
      rintro ⟨rfl, rec, hrec', -⟩
      cases hrec.symm.trans hrec'
    | some rec =>
      dsimp only
      rw [HostState.requireMember]
      cases hmember : isMember (s.membersOf data rec.name call.now) call.user with
      | true =>
        simp only [↓reduceIte, Except.ok.injEq]
        constructor
        · rintro rfl
          exact ⟨rfl, rec, hrec, hmember⟩
        · exact And.left
      | false =>
        refine iff_of_false (by simp) ?_
        rintro ⟨rfl, rec', hrec', hmember'⟩
        rw [← Option.some.inj (hrec.symm.trans hrec'), hmember] at hmember'
        cases hmember'

theorem recordsAgree_empty : RecordsAgree data (.empty : HostState D) where
  byName _ _ h := nomatch h
  byId _ _ h := nomatch h

/-- A record takes the place of that of the same repository, or of none. -/
theorem RecordsAgree.writeRecord (h : RecordsAgree data s)
    (hname : ∀ old, s.byName (namePlace data body.name) = some old → old.id = body.id)
    (hid : ∀ old, s.byId body.id = some old → namePlace data old.name = namePlace data body.name) :
    RecordsAgree data (s.writeRecord data body) where
  byName := by
    intro place rec hrec
    change Function.update _ _ _ _ = _ at hrec
    change _ ∧ Function.update _ _ _ _ = _
    rw [Function.update_apply] at hrec ⊢
    split_ifs at hrec with hplace
    · obtain rfl := Option.some.inj hrec
      exact ⟨hplace.symm, if_pos rfl⟩
    · -- another name's record has another identifier, or the written one would be its own
      obtain ⟨hrecPlace, hrecId⟩ := h.byName place rec hrec
      refine ⟨hrecPlace, ?_⟩
      rw [if_neg, hrecId]
      intro heq
      exact hplace (hrecPlace.symm.trans (hid rec (heq ▸ hrecId)))
  byId := by
    intro id rec hrec
    change Function.update _ _ _ _ = _ at hrec
    change _ ∧ Function.update _ _ _ _ = _
    rw [Function.update_apply] at hrec ⊢
    split_ifs at hrec with heq
    · obtain rfl := Option.some.inj hrec
      exact ⟨heq.symm, if_pos rfl⟩
    · obtain ⟨hrecId, hrecName⟩ := h.byId id rec hrec
      refine ⟨hrecId, ?_⟩
      rw [if_neg, hrecName]
      intro hplace
      exact heq (hrecId.symm.trans (hname rec (hplace ▸ hrecName)))

end Invariants

section Steps

variable {D : Type} [Sha512 D] [DecidableEq D] [DigestBytes D] [LegacyHeads D] [EnvelopeCodec]
  [BlobTexts D] {data : DataRoot} {s : HostState D} {requests : List (HostRequest D)}

/-- The records and the members of the host's repositories. -/
def HostState.directory {D : Type} (s : HostState D) :
    (List String → Option RepoRecord) × (RepoId → Option RepoRecord) ×
      (List String → Option RepoMembers) :=
  (s.byName, s.byId, s.members)

omit [EnvelopeCodec] [BlobTexts D] in
/-- An append writes the logs of heads and nothing else. -/
theorem HostState.exists_appendHead (s : HostState D) (repo : RepoId) (head : RefHead D) :
    ∃ heads, (s.appendHead repo head).2 = { s with heads := heads } := by
  rw [HostState.appendHead]
  split_ifs
  · exact ⟨s.heads, rfl⟩
  · cases casAppend s.heads head with
    | mk reply heads =>
      cases reply with
      | ok hash => exact ⟨heads, rfl⟩
      | error e => exact ⟨heads, rfl⟩

omit [Sha512 D] [DecidableEq D] [DigestBytes D] [LegacyHeads D] [BlobTexts D] in
/-- A message is written to the queues and nowhere else. -/
theorem HostState.exists_mlsEnqueue (s : HostState D) (repo : RepoId) (payload : Bytes)
    (senderHint : Option String) :
    ∃ mls, (s.mlsEnqueue repo payload senderHint).2 = { s with mls := mls } := by
  rw [HostState.mlsEnqueue]
  cases nextSeq (D := Digest) (maxSeq (s.mls repo).keys) with
  | error e => exact ⟨s.mls, rfl⟩
  | ok seq => exact ⟨_, rfl⟩

/-- A route keyed by an identifier changes no record. -/
theorem HostState.directory_serveRoute (call : RouteCall D) :
    (s.serveRoute data call).2.directory = s.directory := by
  rw [HostState.serveRoute]
  cases s.authorize data call with
  | error e => rfl
  | ok repo =>
    dsimp only
    cases call.request with
    | putBlob request =>
      rw [HostState.serveMember, HostState.putBlob]
      cases request.read D <;> rfl
    | appendHead head =>
      obtain ⟨heads, hheads⟩ := s.exists_appendHead repo head
      rw [HostState.serveMember, hheads]
      rfl
    | mlsEnqueue payload senderHint =>
      obtain ⟨mls, hmls⟩ := s.exists_mlsEnqueue repo payload senderHint
      rw [HostState.serveMember, hmls]
      rfl
    | _ => rfl

omit [Sha512 D] [DecidableEq D] [DigestBytes D] [LegacyHeads D] [EnvelopeCodec] [BlobTexts D] in
/-- An update is refused, or it writes what its edit makes of the record that is there. -/
theorem HostState.updateRepo_cases (s : HostState D) (data : DataRoot) (caller : UserId)
    (target : RepoName) (edit : DirEdit) (now : String) :
    (s.updateRepo data caller target edit now).2 = s ∨
      ∃ stored body, s.byName (namePlace data target) = some stored ∧
        UpdateRequest.edited ⟨caller, target, s.membersOf data target now, edit⟩ stored =
          .ok body ∧
        (s.updateRepo data caller target edit now).2 = s.writeRecord data body := by
  rw [HostState.updateRepo]
  cases UpdateRequest.authorize ⟨caller, target, s.membersOf data target now, edit⟩ with
  | error e => exact .inl rfl
  | ok =>
    dsimp only
    cases hstored : s.byName (namePlace data target) with
    | none => exact .inl rfl
    | some stored =>
      dsimp only
      cases hedit : UpdateRequest.edited
          ⟨caller, target, s.membersOf data target now, edit⟩ stored with
      | error e => exact .inl rfl
      | ok body =>
        dsimp only
        split_ifs
        · exact .inr ⟨stored, body, rfl, hedit, rfl⟩
        · exact .inl rfl

/-- What a request does to the two records: nothing, or it writes those of a new repository at a
free place, or of one that is there. -/
theorem HostState.records_serve (s : HostState D) (data : DataRoot) (request : HostRequest D) :
    ((s.serve data request).byName = s.byName ∧ (s.serve data request).byId = s.byId) ∨
      ∃ body, (s.serve data request).byName = (s.writeRecord data body).byName ∧
        (s.serve data request).byId = (s.writeRecord data body).byId ∧
        ((request.drawn = some body.id ∧ s.byName (namePlace data body.name) = none) ∨
          ∃ target stored u, s.byName (namePlace data target) = some stored ∧
            UpdateRequest.edited u stored = .ok body) := by
  cases request with
  | createRepo c now =>
    rw [HostState.serve, HostState.createRepo]
    split_ifs with hthere
    · exact .inl ⟨rfl, rfl⟩
    · exact .inr ⟨c.record, rfl, rfl, .inl ⟨rfl, Option.not_isSome_iff_eq_none.mp hthere⟩⟩
  | updateRepo caller target edit now =>
    rw [HostState.serve]
    rcases s.updateRepo_cases data caller target edit now with
      hsame | ⟨stored, body, hstored, hedit, hwrite⟩
    · rw [hsame]
      exact .inl ⟨rfl, rfl⟩
    · rw [hwrite]
      exact .inr ⟨body, rfl, rfl, .inr ⟨target, stored, _, hstored, hedit⟩⟩
  | editCollab target request => exact .inl ⟨rfl, rfl⟩
  | route call =>
    have hsame : (s.serveRoute data call).2.directory = s.directory :=
      HostState.directory_serveRoute call
    exact .inl ⟨congrArg Prod.fst hsame, congrArg (fun d => d.2.1) hsame⟩

/-- A request whose identifier no repository has keeps the records in agreement. -/
theorem RecordsAgree.serve (h : RecordsAgree data s) {request : HostRequest D}
    (hfresh : ∀ id, request.drawn = some id → s.byId id = none) :
    RecordsAgree data (s.serve data request) := by
  rcases s.records_serve data request with ⟨hname, hid⟩ | ⟨body, hname, hid, hbody⟩
  · exact ⟨hname ▸ hid ▸ h.byName, hname ▸ hid ▸ h.byId⟩
  · have hwrite : RecordsAgree data (s.writeRecord data body) := by
      rcases hbody with ⟨hdrawn, hfree⟩ | ⟨target, stored, u, hstored, hedit⟩
      · refine h.writeRecord (fun old hold => ?_) (fun old hold => ?_)
        · cases hfree.symm.trans hold
        · cases (hfresh _ hdrawn).symm.trans hold
      · obtain ⟨hsameId, hsameName⟩ := UpdateRequest.edited_eq_ok hedit
        obtain ⟨hplace, hstoredId⟩ := h.byName _ stored hstored
        refine h.writeRecord (fun old hold => ?_) (fun old hold => ?_)
        · rw [hsameName, hplace] at hold
          rw [hsameId, Option.some.inj (hold.symm.trans hstored)]
        · rw [hsameId] at hold
          rw [hsameName, Option.some.inj (hold.symm.trans hstoredId)]
    exact ⟨hname ▸ hid ▸ hwrite.byName, hname ▸ hid ▸ hwrite.byId⟩

theorem serveAll_append (more : List (HostRequest D)) :
    serveAll data (requests ++ more) = more.foldl (HostState.serve data) (serveAll data requests) :=
  List.foldl_append

theorem serveAll_concat (request : HostRequest D) :
    serveAll data (requests ++ [request]) = (serveAll data requests).serve data request :=
  serveAll_append [request]

/-- After every run the two records of a repository agree, and it has an identifier that was drawn
for it. -/
theorem recordsAgree_serveAll (data : DataRoot) (hids : IdsDrawnOnce requests) :
    RecordsAgree data (serveAll data requests) ∧
      ∀ id, (serveAll data requests).byId id ≠ none →
        id ∈ requests.filterMap HostRequest.drawn := by
  induction requests using List.reverseRecOn with
  | nil => exact ⟨recordsAgree_empty, fun id h => absurd rfl h⟩
  | append_singleton requests request ih =>
    rw [IdsDrawnOnce, List.filterMap_append, List.nodup_append] at hids
    obtain ⟨hagree, hdrawn⟩ := ih hids.1
    have hlast : ∀ id, request.drawn = some id →
        id ∈ [request].filterMap HostRequest.drawn := by
      intro id hid
      rw [List.filterMap_cons_some hid]
      exact List.mem_cons_self
    -- an identifier that has a record was drawn before, and none is drawn twice
    have hfresh : ∀ id, request.drawn = some id → (serveAll data requests).byId id = none := by
      intro id hid
      by_contra hthere
      exact hids.2.2 id (hdrawn id hthere) id (hlast id hid) rfl
    rw [serveAll_concat]
    refine ⟨hagree.serve hfresh, fun id hthere => ?_⟩
    rw [List.filterMap_append, List.mem_append]
    rcases (serveAll data requests).records_serve data request with
      ⟨-, hid⟩ | ⟨body, -, hid, hbody⟩
    · rw [hid] at hthere
      exact .inl (hdrawn id hthere)
    · rw [hid] at hthere
      change Function.update _ _ _ _ ≠ _ at hthere
      rw [Function.update_apply] at hthere
      split_ifs at hthere with heq
      · subst heq
        rcases hbody with ⟨hnew, -⟩ | ⟨target, stored, u, hstored, hedit⟩
        · exact .inr (hlast _ hnew)
        · refine .inl (hdrawn _ ?_)
          rw [(UpdateRequest.edited_eq_ok hedit).1, (hagree.byName _ stored hstored).2]
          exact Option.some_ne_none _
      · exact .inl (hdrawn id hthere)

/-- What the host's stores hold. -/
def HostState.content {D : Type} (s : HostState D) :
    (BlobId D → Option Bytes) × HeadStore × (RepoId → ExtTreeMap UInt64 Bytes compare) :=
  (s.blobs, s.heads, s.mls)

/-- The stores change only where a member asks on a route keyed by an identifier. -/
theorem HostState.content_serve (s : HostState D) (data : DataRoot) (request : HostRequest D) :
    (s.serve data request).content = s.content ∨
      ∃ call repo, request = .route call ∧ s.authorize data call = .ok repo ∧
        s.serve data request = (s.serveMember repo call.request).2 := by
  cases request with
  | createRepo c now =>
    refine .inl ?_
    rw [HostState.serve, HostState.createRepo]
    split_ifs <;> rfl
  | updateRepo caller target edit now =>
    -- the records are written, the stores are not
    refine .inl ?_
    rw [HostState.serve]
    rcases s.updateRepo_cases data caller target edit now with hsame | ⟨_, body, -, -, hwrite⟩
    · rw [hsame]
    · rw [hwrite]
      rfl
  | editCollab target request => exact .inl rfl
  | route call =>
    rw [HostState.serve, HostState.serveRoute]
    cases hauth : s.authorize data call with
    | error e => exact .inl rfl
    | ok repo => exact .inr ⟨call, repo, rfl, hauth, rfl⟩

omit [DecidableEq D] [BlobTexts D] in
theorem storedReadable_empty : StoredReadable (.empty : HostState D) where
  heads _ := ⟨[], holds_empty⟩
  mls repo seq bytes h := by
    rw [show (HostState.empty : HostState D).mls repo = ∅ from rfl,
      ExtTreeMap.getElem?_empty] at h
    cases h

/-- So does every route for a member. -/
theorem StoredReadable.serveMember (h : StoredReadable s) (repo : RepoId)
    (request : RouteRequest D) : StoredReadable (s.serveMember repo request).2 := by
  cases request with
  | putBlob request =>
    rw [HostState.serveMember, HostState.putBlob]
    cases request.read D with
    | error e => exact h
    | ok read => exact ⟨h.heads, h.mls⟩
  | appendHead head =>
    rw [HostState.serveMember, HostState.appendHead]
    split_ifs
    · exact h
    · -- every repository has a log that its files hold
      choose log hlog using h.heads
      let served : ServedHeads D := ⟨s.heads, log⟩
      have hserved : ∀ repo, Holds (served.store repo) (served.accepted repo) := hlog
      rcases casAppend_cases hserved head with ⟨e, hrefused⟩ | ⟨dir, hok, hdir⟩
      · rw [hrefused]
        exact h
      · rw [hok]
        refine ⟨fun other => ?_, h.mls⟩
        by_cases hother : other = head.repoId
        · subst hother
          exact ⟨_, by simpa using hdir⟩
        · exact ⟨log other, by simpa [Function.update_of_ne hother] using hlog other⟩
  | mlsEnqueue payload senderHint =>
    rw [HostState.serveMember, HostState.mlsEnqueue]
    cases nextSeq (D := Digest) (maxSeq (s.mls repo).keys) with
    | error e => exact h
    | ok seq =>
      refine ⟨h.heads, fun other seq' bytes hbytes => ?_⟩
      change (Function.update s.mls repo _ other)[seq']? = _ at hbytes
      rw [Function.update_apply] at hbytes
      split_ifs at hbytes with hother
      · rw [ExtTreeMap.getElem?_insert] at hbytes
        split_ifs at hbytes
        · exact ⟨_, Option.some.inj hbytes⟩
        · exact h.mls repo seq' bytes hbytes
      · exact h.mls other seq' bytes hbytes
  | appendKeylog entry => exact ⟨h.heads, h.mls⟩
  | _ => exact h

/-- Every request leaves heads and messages that can be read. -/
theorem StoredReadable.serve (h : StoredReadable s) (request : HostRequest D) :
    StoredReadable (s.serve data request) := by
  rcases s.content_serve data request with hsame | ⟨call, repo, -, -, hserve⟩
  · have hheads : (s.serve data request).heads = s.heads := congrArg (fun c => c.2.1) hsame
    have hmls : (s.serve data request).mls = s.mls := congrArg (fun c => c.2.2) hsame
    exact ⟨hheads ▸ h.heads, hmls ▸ h.mls⟩
  · rw [hserve]
    exact h.serveMember repo call.request

theorem storedReadable_serveAll (requests : List (HostRequest D)) :
    StoredReadable (serveAll data requests) := by
  induction requests using List.reverseRecOn with
  | nil => exact storedReadable_empty
  | append_singleton requests request ih =>
    rw [serveAll_concat]
    exact ih.serve request

end Steps

end SafeHub
