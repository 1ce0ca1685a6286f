import SafeHub.Server.HostRoutes

/-!
# Who obtains a blob

Blobs of all repositories are in one store under their digests. A get checks that the caller is a
member of the repository in the path and returns what the store has under the digest.

## Main definitions

* `blobPuts` — the puts of a run, with their repositories
* `BlobsScoped` — a get returns only what was put under its repository
* `AsksForOwn` — what members ask for was put under the repository in the path

## Main results

* `blobsScoped_iff` — gets keep to their repositories where members ask for nothing else
* `not_blobsScoped_mallory` — a member of another repository obtains a blob
-/

namespace SafeHub

section Runs

variable {D : Type} [Sha512 D] [DecidableEq D] [DigestBytes D] [LegacyHeads D] [EnvelopeCodec]
  [BlobTexts D]

/-- The ciphertext that a request puts. -/
def RouteRequest.ciphertext : RouteRequest D → Option Bytes
  | .putBlob request =>
    match request.read D with
    | .ok (_, ciphertext) => some ciphertext
    | .error _ => none
  | _ => none

/-- The put that a request makes, with the repository that it is for. -/
def HostState.blobPut (data : DataRoot) (s : HostState D) :
    HostRequest D → Option (RepoId × Bytes)
  | .route call =>
    match s.authorize data call with
    | .ok repo => call.request.ciphertext.map fun ciphertext => (repo, ciphertext)
    | .error _ => none
  | _ => none

/-- The puts of a run, in their order. -/
def blobPuts (data : DataRoot) : HostState D → List (HostRequest D) → List (RepoId × Bytes)
  | _, [] => []
  | s, request :: requests =>
    (s.blobPut data request).toList ++ blobPuts data (s.serve data request) requests

/-- What a get returns was put under the repository in its path. -/
def BlobsScoped (data : DataRoot) (requests : List (HostRequest D)) : Prop :=
  ∀ before call after repo blobId bytes, requests = before ++ .route call :: after →
    parseRepoId call.repoId = .ok repo → call.request = .getBlob blobId →
    ((serveAll data before).serveRoute data call).1 = .ok (.blob bytes) →
    (repo, bytes) ∈ blobPuts data .empty before

/-- Where a member of a repository asks for a digest that something was put under before, the first
ciphertext with it was also put under this repository. -/
def AsksForOwn (data : DataRoot) (requests : List (HostRequest D)) : Prop :=
  ∀ before call after repo blobId id put, requests = before ++ .route call :: after →
    call.request = .getBlob blobId → BlobId.fromHex D blobId = some id →
    (serveAll data before).authorize data call = .ok repo →
    (blobPuts data .empty before).find? (fun put => Sha512.digest put.2 = id) = some put →
    (repo, put.2) ∈ blobPuts data .empty before

variable {data : DataRoot} {s : HostState D} {requests more : List (HostRequest D)}

theorem blobPuts_append :
    blobPuts data s (requests ++ more) =
      blobPuts data s requests ++ blobPuts data (requests.foldl (HostState.serve data) s) more := by
  induction requests generalizing s with
  | nil => rfl
  | cons request requests ih =>
    rw [List.cons_append, blobPuts, ih, blobPuts, List.append_assoc]
    rfl

theorem blobPuts_concat (request : HostRequest D) :
    blobPuts data .empty (requests ++ [request]) =
      blobPuts data .empty requests ++
        (HostState.blobPut data (serveAll data requests) request).toList := by
  rw [blobPuts_append, blobPuts, blobPuts, List.append_nil]
  rfl

/-- A put adds its ciphertext unless something is stored under the digest. -/
theorem HostState.blobs_serveMember (repo : RepoId) (request : RouteRequest D) (id : BlobId D) :
    (s.serveMember repo request).2.blobs id =
      (s.blobs id).or
        (request.ciphertext.filter fun ciphertext => Sha512.digest ciphertext = id) := by
  cases request with
  | putBlob request =>
    rw [HostState.serveMember, HostState.putBlob, RouteRequest.ciphertext]
    cases request.read D with
    | error e => exact (Option.or_none).symm
    | ok read =>
      dsimp only
      by_cases hid : Sha512.digest read.2 = id
      · subst hid
        cases hthere : s.blobs (Sha512.digest read.2) <;> simp [hthere, Option.filter_some]
      · rw [Option.filter_some_neg (by simpa using hid), Option.or_none]
        split_ifs with hthere
        · rfl
        · exact Function.update_of_ne (Ne.symm hid) ..
  | appendHead head =>
    refine Eq.trans ?_ (Option.or_none).symm
    obtain ⟨heads, hheads⟩ := s.exists_appendHead repo head
    rw [HostState.serveMember, hheads]
  | mlsEnqueue payload senderHint =>
    refine Eq.trans ?_ (Option.or_none).symm
    obtain ⟨mls, hmls⟩ := s.exists_mlsEnqueue repo payload senderHint
    rw [HostState.serveMember, hmls]
  | _ => exact (Option.or_none).symm

/-- What a request does to the blobs. -/
theorem HostState.blobs_serve (request : HostRequest D) (id : BlobId D) :
    (s.serve data request).blobs id = (s.blobs id).or
      (((s.blobPut data request).filter fun put => Sha512.digest put.2 = id).map Prod.snd) := by
  have hother : ∀ request : HostRequest D, (∀ call, request ≠ .route call) →
      (s.serve data request).blobs id = s.blobs id := by
    intro request hne
    rcases s.content_serve data request with hsame | ⟨call, repo, hroute, -⟩
    · exact congrFun (congrArg Prod.fst hsame) id
    · exact absurd hroute (hne call)
  cases request with
  | route call =>
    rw [HostState.serve, HostState.serveRoute, HostState.blobPut]
    cases s.authorize data call with
    | error e => exact (Option.or_none).symm
    | ok repo =>
      rw [HostState.blobs_serveMember]
      cases call.request.ciphertext with
      | none => rfl
      | some ciphertext =>
        by_cases hid : Sha512.digest ciphertext = id <;> simp [Option.filter_some, hid]
  | createRepo c now => exact (hother _ (by simp)).trans (Option.or_none).symm
  | updateRepo caller target edit now => exact (hother _ (by simp)).trans (Option.or_none).symm
  | editCollab target request => exact (hother _ (by simp)).trans (Option.or_none).symm

/-- The store has the first ciphertext that was put with a digest. -/
theorem blobs_serveAll (requests : List (HostRequest D)) (id : BlobId D) :
    (serveAll data requests).blobs id =
      ((blobPuts data .empty requests).find? fun put => Sha512.digest put.2 = id).map Prod.snd := by
  induction requests using List.reverseRecOn with
  | nil => rfl
  | append_singleton requests request ih =>
    rw [serveAll_concat, HostState.blobs_serve, ih, blobPuts_concat, List.find?_append,
      Option.map_or]
    cases HostState.blobPut data (serveAll data requests) request with
    | none => rfl
    | some put => rw [Option.toList_some, List.find?_singleton, Option.filter_some]

/-- What a get returns to whom. -/
theorem HostState.serveRoute_getBlob_iff {call : RouteCall D} {blobId : String} {bytes : Bytes}
    (hrequest : call.request = .getBlob blobId) :
    (s.serveRoute data call).1 = .ok (.blob bytes) ↔
      ∃ repo id, s.authorize data call = .ok repo ∧ BlobId.fromHex D blobId = some id ∧
        s.blobs id = some bytes := by
  rw [HostState.serveRoute, hrequest]
  cases s.authorize data call with
  | error e => simp
  | ok repo =>
    dsimp only
    rw [HostState.serveMember, HostState.getBlob]
    cases BlobId.fromHex D blobId with
    | none => simp
    | some id => cases hblob : s.blobs id <;> simp [hblob]

/-- Gets return only what was put under their repositories exactly in the runs where members ask for
nothing else. -/
theorem blobsScoped_iff : BlobsScoped data requests ↔ AsksForOwn data requests := by
  constructor
  · intro h before call after repo blobId id put hrun hrequest hid hauth hput
    refine h before call after repo blobId put.2 hrun (HostState.authorize_eq_ok_iff.mp hauth).1
      hrequest ((HostState.serveRoute_getBlob_iff hrequest).mpr ⟨repo, id, hauth, hid, ?_⟩)
    rw [blobs_serveAll, hput, Option.map_some]
  · intro h before call after repo blobId bytes hrun hrepo hrequest hreply
    obtain ⟨repo', id, hauth, hid, hstored⟩ := (HostState.serveRoute_getBlob_iff hrequest).mp hreply
    obtain rfl := Except.ok.inj (hrepo.symm.trans (HostState.authorize_eq_ok_iff.mp hauth).1)
    rw [blobs_serveAll, Option.map_eq_some_iff] at hstored
    obtain ⟨put, hput, rfl⟩ := hstored
    exact h before call after repo blobId id put hrun hrequest hid hauth hput

/-- Where gets keep to their repositories, a user obtains only what was put under a repository that
the user is a member of. -/
theorem BlobsScoped.member (h : BlobsScoped data requests) {before after : List (HostRequest D)}
    {call : RouteCall D} {blobId : String} {bytes : Bytes}
    (hrun : requests = before ++ .route call :: after) (hrequest : call.request = .getBlob blobId)
    (hreply : ((serveAll data before).serveRoute data call).1 = .ok (.blob bytes)) :
    ∃ repo rec, (repo, bytes) ∈ blobPuts data .empty before ∧
      (serveAll data before).byId repo = some rec ∧
      isMember ((serveAll data before).membersOf data rec.name call.now) call.user = true := by
  obtain ⟨repo, id, hauth, -⟩ := (HostState.serveRoute_getBlob_iff hrequest).mp hreply
  obtain ⟨hrepo, rec, hrec, hmember⟩ := HostState.authorize_eq_ok_iff.mp hauth
  exact ⟨repo, rec, h before call after repo blobId bytes hrun hrepo hrequest hreply, hrec, hmember⟩

end Runs

section Sample

attribute [local instance] leadingSha512 leadingDigestBytes
attribute [local instance] noLegacyHeads framedEnvelopeCodec

/-- Metadata as a client sends it with a blob. -/
def sampleMetaJson : String :=
  "\x7b\"id\":\"" ++ String.ofList (.replicate 128 '0') ++
    "\",\"size\":3,\"chunk_index\":0,\"chunk_count\":1,\"push_id\":\"p\"\x7d"

/-- Texts of which one is the metadata above. -/
abbrev sampleBlobTexts : BlobTexts Digest where
  metaOfJson text :=
    if text = sampleMetaJson then .ok ⟨Sha512.zero, 3, 0, 1, "p"⟩ else .error "expected value"
  requestOfJson _ := .error "expected value"
  base64 _ := .error "Invalid padding"

attribute [local instance] sampleBlobTexts

/-- A blob put of a client. -/
def samplePut (ciphertext : Bytes) : RouteRequest Digest :=
  .putBlob ⟨some "application/octet-stream", some (.ok sampleMetaJson), ciphertext⟩

/-- Mallory has a repository of her own; a blob is put under the one of olivia. -/
def blobOfOlivia : List (HostRequest Digest) :=
  [.createRepo (createNotes 1) "",
    .createRepo ⟨"mallory", "own", true, none, .replicate 32 2⟩ "",
    .route ⟨"olivia", hexEncode (.replicate 32 1), "", samplePut [1, 2, 3]⟩]

/-- A get of that blob under a repository. -/
def getOfOlivia (user : UserId) (k : UInt8) : RouteCall Digest :=
  ⟨user, hexEncode (.replicate 32 k), "",
    .getBlob (hexEncode (Sha512.toBytes (Sha512.digest [1, 2, 3] : Digest)))⟩

/-- Mallory, a member of her own repository alone, obtains the blob by its digest. -/
theorem not_blobsScoped_mallory :
    ¬ BlobsScoped sampleRoot (blobOfOlivia ++ [.route (getOfOlivia "mallory" 2)]) := by
  intro h
  have hrepo := parseRepoId_hexEncode (.replicate 32 2)
  have hmember : ∃ rec, (serveAll sampleRoot blobOfOlivia).byId (.replicate 32 2) = some rec ∧
      isMember ((serveAll sampleRoot blobOfOlivia).membersOf sampleRoot rec.name "") "mallory" =
        true := by
    refine ⟨⟨.replicate 32 2, ⟨"mallory", "own"⟩, "mallory", true, false, false, none⟩, ?_⟩
    decide +kernel
  have hput : blobPuts sampleRoot .empty blobOfOlivia = [(.replicate 32 1, [1, 2, 3])] := by
    decide +kernel
  have hreply : ((serveAll sampleRoot blobOfOlivia).serveRoute sampleRoot
      (getOfOlivia "mallory" 2)).1 = .ok (.blob [1, 2, 3]) := by
    refine (HostState.serveRoute_getBlob_iff rfl).mpr ⟨.replicate 32 2, _,
      HostState.authorize_eq_ok_iff.mpr ⟨hrepo, hmember⟩, BlobId.fromHex_hexEncode _, ?_⟩
    rw [blobs_serveAll, hput]
    decide +kernel
  have hin := h _ _ [] _ _ _ rfl hrepo rfl hreply
  rw [hput] at hin
  exact absurd hin (by decide)

end Sample

end SafeHub
