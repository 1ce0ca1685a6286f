import SafeHub.Server.HostRoutes

/-!
# Deleted repositories

A deletion marks both records of a repository. The routes by owner and name look at the mark; the
routes by identifier find the record and look at its name alone.

## Main definitions

* `Tombstone` — a repository that is marked as deleted
* `DeletionUniform` — later requests on the routes by identifier fail
* `TurnedDown` — what the stores turn down whoever asks

## Main results

* `deletionUniform_iff` — later requests fail where the caller is no member or the store turns
  them down
-/

namespace SafeHub

/-- Both records of a repository are marked as deleted. -/
structure Tombstone {D : Type} (data : DataRoot) (s : HostState D) (rec : RepoRecord) : Prop where
  deleted : rec.deleted = true
  archived : rec.archived = true
  byName : s.byName (namePlace data rec.name) = some rec
  byId : s.byId rec.id = some rec

section Tombstones

variable {D : Type} {data : DataRoot} {s : HostState D} {rec : RepoRecord}

/-- A deleted repository is not found by its name. -/
theorem Tombstone.getRepo (h : Tombstone data s rec) (user : UserId) {target : RepoName}
    (htarget : namePlace data target = namePlace data rec.name) (now : String) :
    s.getRepo data user target now = .error .notFound := by
  rw [HostState.getRepo, htarget, h.byName]
  exact if_pos h.deleted

/-- Marking a tombstone again changes nothing. -/
theorem Tombstone.eq_marked (h : Tombstone data s rec) :
    rec = { rec with deleted := true, archived := true } := by
  have hdeleted := h.deleted
  have harchived := h.archived
  cases rec
  dsimp only at hdeleted harchived ⊢
  rw [hdeleted, harchived]

/-- A deletion that succeeds leaves a tombstone. -/
theorem tombstone_of_delete {caller : UserId} {target : RepoName} {now : String}
    {stored : RepoRecord} (hagree : RecordsAgree data s)
    (hstored : s.byName (namePlace data target) = some stored)
    (hdelete : (s.updateRepo data caller target .delete now).1 = .ok none) :
    Tombstone data (s.updateRepo data caller target .delete now).2
      { stored with deleted := true, archived := true } := by
  obtain ⟨hplace, -⟩ := hagree.byName _ stored hstored
  rw [HostState.updateRepo] at hdelete ⊢
  cases hauth : UpdateRequest.authorize
      ⟨caller, target, s.membersOf data target now, .delete⟩ with
  | error e => simp [hauth] at hdelete
  | ok =>
    rw [hstored]
    dsimp only [UpdateRequest.edited]
    rw [if_pos (by rw [hplace, hstored]; rfl)]
    exact ⟨rfl, rfl, Function.update_self .., Function.update_self ..⟩

variable [Sha512 D] [DecidableEq D] [DigestBytes D] [LegacyHeads D] [EnvelopeCodec] [BlobTexts D]

/-- A tombstone stays. -/
theorem Tombstone.serve (h : Tombstone data s rec) (hagree : RecordsAgree data s)
    {request : HostRequest D} (hfresh : ∀ id, request.drawn = some id → s.byId id = none) :
    Tombstone data (s.serve data request) rec := by
  rcases s.records_serve data request with ⟨hname, hid⟩ | ⟨body, hname, hid, hbody⟩
  · exact ⟨h.deleted, h.archived, hname ▸ h.byName, hid ▸ h.byId⟩
  -- a write is that of the tombstone, or of another repository at another place
  have hwrite : body = rec ∨ namePlace data rec.name ≠ namePlace data body.name ∧
      rec.id ≠ body.id := by
    rcases hbody with ⟨hdrawn, hfree⟩ | ⟨target, stored, u, hstored, hedit⟩
    · refine .inr ⟨fun hplace => ?_, fun hsame => ?_⟩
      · cases (hplace ▸ hfree).symm.trans h.byName
      · cases (hfresh _ hdrawn).symm.trans (hsame ▸ h.byId)
    · obtain ⟨hsameId, hsameName⟩ := UpdateRequest.edited_eq_ok hedit
      obtain ⟨hplace, hstoredId⟩ := hagree.byName _ stored hstored
      by_cases hrec : stored = rec
      · subst hrec
        refine .inl ?_
        -- a patch refuses the tombstone, another deletion writes it again
        rw [UpdateRequest.edited] at hedit
        split at hedit
        · rw [if_pos h.deleted] at hedit
          cases hedit
        · exact (Except.ok.inj hedit).symm.trans h.eq_marked.symm
      · rw [hsameId, hsameName, hplace]
        refine .inr ⟨fun heq => hrec ?_, fun heq => hrec ?_⟩
        · exact Option.some.inj (hstored.symm.trans (heq ▸ h.byName))
        · exact Option.some.inj (hstoredId.symm.trans (heq ▸ h.byId))
  rcases hwrite with rfl | ⟨hplace, hother⟩
  · refine ⟨h.deleted, h.archived, ?_, ?_⟩
    · rw [hname]
      exact Function.update_self ..
    · rw [hid]
      exact Function.update_self ..
  · refine ⟨h.deleted, h.archived, ?_, ?_⟩
    · rw [hname]
      exact (Function.update_of_ne hplace ..).trans h.byName
    · rw [hid]
      exact (Function.update_of_ne hother ..).trans h.byId

end Tombstones

/-! ### What the stores turn down -/

section Stores

variable {D : Type} [Sha512 D] [DecidableEq D] [DigestBytes D] [LegacyHeads D] [EnvelopeCodec]
  [BlobTexts D] {s : HostState D} {repo : RepoId}

/-- What a store turns down, whoever asks: a put whose body cannot be read, a get of an unknown
blob, the tip of a repository without heads, an append that is not the next head of the repository,
and a message past the last number. -/
def TurnedDown (s : HostState D) (repo : RepoId) : RouteRequest D → Prop
  | .putBlob request => ∃ e, request.read D = .error e
  | .getBlob blobId => ∀ id, BlobId.fromHex D blobId = some id → s.blobs id = none
  | .headTip => (s.heads repo).tipBin = none
  | .appendHead head =>
    head.repoId ≠ repo ∨ ∀ log, Holds (s.heads repo) log → ¬ Accepts log head
  | .mlsEnqueue _ _ => (maxSeq (s.mls repo).keys).toNat + 1 = 2 ^ 64
  | .headsSince _ | .mlsFetch _ | .appendKeylog _ => False

omit [DecidableEq D] [EnvelopeCodec] [BlobTexts D] [LegacyHeads D] in
theorem HostState.getBlob_fails_iff {blobId : String} :
    (∃ e, (s.getBlob blobId, s) = ((.error e, s) : Except RouteError (RouteReply D) × _)) ↔
      ∀ id, BlobId.fromHex D blobId = some id → s.blobs id = none := by
  rw [HostState.getBlob]
  cases BlobId.fromHex D blobId with
  | none => simp
  | some id => cases hblob : s.blobs id <;> simp [hblob]

omit [DecidableEq D] [BlobTexts D] in
theorem StoredReadable.headTip_fails_iff (h : StoredReadable s) :
    (∃ e, (s.headTip repo, s) = ((.error e, s) : Except RouteError (RouteReply D) × _)) ↔
      (s.heads repo).tipBin = none := by
  obtain ⟨log, hlog⟩ := h.heads repo
  rw [HostState.headTip, hlog.tipOf, hlog.tipBin]
  cases log.getLast? <;> simp

omit [DecidableEq D] [BlobTexts D] in
theorem StoredReadable.headsSince_ok (h : StoredReadable s) (repo : RepoId) (query : AfterQuery) :
    ∃ reply, s.headsSince repo query = .ok reply := by
  obtain ⟨log, hlog⟩ := h.heads repo
  rw [HostState.headsSince, hlog.since (List.Perm.refl _)]
  exact ⟨_, rfl⟩

omit [DecidableEq D] [BlobTexts D] in
theorem StoredReadable.mlsFetch_ok (h : StoredReadable s) (repo : RepoId) (query : AfterQuery) :
    ∃ reply, s.mlsFetch repo query = .ok reply := by
  have hread : ∃ messages, ((s.mls repo).toList.filter fun entry =>
      query.after.getD 0 < entry.1).mapM (fun entry => decodeEnvelope entry.2) = .ok messages := by
    rw [exists_mapM_eq_ok_iff]
    intro entry hentry
    obtain ⟨env, henv⟩ := h.mls repo entry.1 entry.2
      (Std.ExtTreeMap.mem_toList_iff_getElem?_eq_some.mp (List.mem_filter.mp hentry).1)
    exact ⟨env, henv ▸ QueueServer.decodeEnvelope_encode env⟩
  obtain ⟨messages, hmessages⟩ := hread
  rw [HostState.mlsFetch, fetchQueue, hmessages]
  exact ⟨_, rfl⟩

omit [BlobTexts D] [EnvelopeCodec] in
theorem HostState.appendHead_fails_iff (h : ∃ log : List (RefHead D), Holds (s.heads repo) log)
    {head : RefHead D} :
    (∃ e, s.appendHead repo head = (.error e, s)) ↔
      head.repoId ≠ repo ∨ ∀ log, Holds (s.heads repo) log → ¬ Accepts log head := by
  rw [HostState.appendHead]
  split_ifs with hrepo
  · exact iff_of_true ⟨_, rfl⟩ (.inl hrepo)
  · obtain rfl := not_not.mp hrepo
    rw [casAppend, or_iff_right (not_not.mpr rfl)]
    cases hplan : planAppend (s.heads head.repoId) head with
    | error e =>
      refine iff_of_true ⟨_, rfl⟩ fun log hlog haccepts => ?_
      obtain ⟨hash, writes, hok⟩ := (accepts_iff_exists_planAppend hlog).mp haccepts
      cases hplan.symm.trans hok
    | ok plan =>
      obtain ⟨log, hlog⟩ := h
      refine iff_of_false (by simp) fun hnone => hnone log hlog ?_
      exact (accepts_iff_exists_planAppend hlog).mpr ⟨plan.1, plan.2, hplan⟩

omit [BlobTexts D] [DecidableEq D] [DigestBytes D] [LegacyHeads D] [Sha512 D] in
theorem HostState.mlsEnqueue_fails_iff {payload : Bytes} {senderHint : Option String} :
    (∃ e, s.mlsEnqueue repo payload senderHint = (.error e, s)) ↔
      (maxSeq (s.mls repo).keys).toNat + 1 = 2 ^ 64 := by
  have hlt := (maxSeq (s.mls repo).keys).toNat_lt
  rw [HostState.mlsEnqueue, nextSeq]
  split_ifs with hfits
  · exact iff_of_false (by simp) (by omega)
  · exact iff_of_true ⟨_, rfl⟩ (by omega)

/-- A request of a member fails exactly where its store turns it down. -/
theorem StoredReadable.serveMember_fails_iff (h : StoredReadable s) (request : RouteRequest D) :
    (∃ e, s.serveMember repo request = (.error e, s)) ↔ TurnedDown s repo request := by
  -- reads of a readable store and unconditional writes never fail
  cases request with
  | putBlob request =>
    rw [HostState.serveMember, HostState.putBlob, TurnedDown]
    cases hread : request.read D with
    | error e => exact iff_of_true ⟨_, rfl⟩ ⟨e, rfl⟩
    | ok read => exact iff_of_false (by simp) (by simp)
  | getBlob blobId => exact HostState.getBlob_fails_iff
  | headTip => exact h.headTip_fails_iff
  | appendHead head => exact HostState.appendHead_fails_iff (h.heads repo)
  | headsSince query =>
    obtain ⟨reply, hreply⟩ := h.headsSince_ok repo query
    rw [HostState.serveMember, hreply]
    exact iff_of_false (by simp) id
  | mlsEnqueue payload senderHint => exact HostState.mlsEnqueue_fails_iff
  | mlsFetch query =>
    obtain ⟨reply, hreply⟩ := h.mlsFetch_ok repo query
    rw [HostState.serveMember, hreply]
    exact iff_of_false (by simp) id
  | appendKeylog entry =>
    exact iff_of_false (by simp [HostState.serveMember, HostState.appendKeylog]) id

end Stores

/-! ### Later requests -/

section Runs

variable {D : Type} [Sha512 D] [DecidableEq D] [DigestBytes D] [LegacyHeads D] [EnvelopeCodec]
  [BlobTexts D]

/-- A run serves a request, in a state, on a route keyed by the identifier of a repository that an
earlier request has deleted. -/
def ServedDeleted (data : DataRoot) (requests : List (HostRequest D)) (deleted : RepoRecord)
    (s : HostState D) (call : RouteCall D) : Prop :=
  ∃ before caller target now later after,
    requests = before ++ .updateRepo caller target .delete now :: (later ++ .route call :: after) ∧
    (serveAll data before).byName (namePlace data target) = some deleted ∧
    ((serveAll data before).updateRepo data caller target .delete now).1 = .ok none ∧
    parseRepoId call.repoId = .ok deleted.id ∧
    s = serveAll data (before ++ .updateRepo caller target .delete now :: later)

/-- Once a repository is deleted, every request on its routes fails and changes nothing. -/
def DeletionUniform (data : DataRoot) (requests : List (HostRequest D)) : Prop :=
  ∀ deleted s call, ServedDeleted data requests deleted s call →
    ∃ e, s.serveRoute data call = (.error e, s)

/-- Requests on the routes of deleted repositories come from users that their members records do
not name, or are turned down by the stores. -/
def DeletedUnused (data : DataRoot) (requests : List (HostRequest D)) : Prop :=
  ∀ deleted s call, ServedDeleted data requests deleted s call →
    isMember (s.membersOf data deleted.name call.now) call.user = false ∨
      TurnedDown s deleted.id call.request

variable {data : DataRoot} {requests : List (HostRequest D)} {s : HostState D}
  {deleted rec : RepoRecord} {call : RouteCall D}

/-- A tombstone stays over the requests that follow it. -/
theorem tombstone_serveAll {before later : List (HostRequest D)}
    (hids : IdsDrawnOnce (before ++ later)) (h : Tombstone data (serveAll data before) rec) :
    Tombstone data (serveAll data (before ++ later)) rec := by
  induction later using List.reverseRecOn with
  | nil => rwa [List.append_nil]
  | append_singleton later request ih =>
    rw [← List.append_assoc] at hids ⊢
    obtain ⟨hagree, hdrawn⟩ := recordsAgree_serveAll data hids.of_append_left
    rw [serveAll_concat]
    refine (ih hids.of_append_left).serve hagree fun id hid => ?_
    by_contra hthere
    rw [IdsDrawnOnce, List.filterMap_append, List.nodup_append,
      List.filterMap_cons_some hid] at hids
    exact hids.2.2 id (hdrawn id hthere) id List.mem_cons_self rfl

/-- A request on a route of a deleted repository is served from a tombstone. -/
theorem ServedDeleted.tombstone (hids : IdsDrawnOnce requests)
    (h : ServedDeleted data requests deleted s call) :
    Tombstone data s { deleted with deleted := true, archived := true } := by
  obtain ⟨before, caller, target, now, later, after, rfl, hstored, hdelete, -, rfl⟩ := h
  have hsplit : before ++ .updateRepo caller target .delete now :: (later ++ .route call :: after) =
      before ++ [.updateRepo caller target .delete now] ++ later ++ .route call :: after := by
    simp
  rw [hsplit] at hids
  have hbefore := hids.of_append_left.of_append_left.of_append_left
  have htomb : Tombstone data (serveAll data (before ++ [.updateRepo caller target .delete now]))
      { deleted with deleted := true, archived := true } := by
    rw [serveAll_concat]
    exact tombstone_of_delete (recordsAgree_serveAll data hbefore).1 hstored hdelete
  have hstays := tombstone_serveAll hids.of_append_left htomb
  rwa [List.append_assoc, List.singleton_append] at hstays

/-- What a route answers after the deletion. -/
theorem Tombstone.serveRoute (h : Tombstone data s rec)
    (hcall : parseRepoId call.repoId = .ok rec.id) (hread : StoredReadable s) :
    (∃ e, s.serveRoute data call = (.error e, s)) ↔
      isMember (s.membersOf data rec.name call.now) call.user = false ∨
        TurnedDown s rec.id call.request := by
  rw [HostState.serveRoute]
  cases hmember : isMember (s.membersOf data rec.name call.now) call.user with
  | true =>
    rw [HostState.authorize_eq_ok_iff.mpr ⟨hcall, rec, h.byId, hmember⟩, or_iff_right (by simp)]
    exact hread.serveMember_fails_iff call.request
  | false =>
    refine iff_of_true ?_ (.inl rfl)
    cases hauth : s.authorize data call with
    | error e => exact ⟨_, rfl⟩
    | ok repo =>
      obtain ⟨hrepo, rec', hrec', hmember'⟩ := HostState.authorize_eq_ok_iff.mp hauth
      obtain rfl := Except.ok.inj (hcall.symm.trans hrepo)
      rw [← Option.some.inj (h.byId.symm.trans hrec'), hmember] at hmember'
      cases hmember'

/-- Deletion is uniform exactly in the runs where later requests on the routes of a deleted
repository come from others than its members or are turned down by the stores. -/
theorem deletionUniform_iff (hids : IdsDrawnOnce requests) :
    DeletionUniform data requests ↔ DeletedUnused data requests := by
  refine forall₄_congr fun deleted s call hserved => ?_
  have htomb := hserved.tombstone hids
  obtain ⟨before, caller, target, now, later, after, -, -, -, hcall, rfl⟩ := hserved
  exact htomb.serveRoute hcall (storedReadable_serveAll _)

end Runs

section Sample

attribute [local instance] leadingSha512 leadingDigestBytes
attribute [local instance] noLegacyHeads framedEnvelopeCodec

/-- Texts that are not JSON. -/
abbrev noBlobTexts (D : Type) : BlobTexts D where
  metaOfJson _ := .error "expected value"
  requestOfJson _ := .error "expected value"
  base64 _ := .error "Invalid padding"

attribute [local instance] noBlobTexts

/-- A repository is created and deleted, and a request comes on one of its routes. -/
def deletedThen (user : UserId) (request : RouteRequest Digest) : List (HostRequest Digest) :=
  [.createRepo (createNotes 1) "", .updateRepo "olivia" ⟨"olivia", "notes"⟩ .delete "",
    .route ⟨user, hexEncode (.replicate 32 1), "", request⟩]

/-- The deletion and the last request. -/
theorem servedDeleted_deletedThen (user : UserId) (request : RouteRequest Digest) :
    ServedDeleted sampleRoot (deletedThen user request) (createNotes 1).record
      (serveAll sampleRoot ((deletedThen user request).take 2))
      ⟨user, hexEncode (.replicate 32 1), "", request⟩ := by
  have hid : parseRepoId (hexEncode (.replicate 32 1)) = .ok (createNotes 1).record.id :=
    parseRepoId_hexEncode (createNotes 1).record.id
  refine ⟨[.createRepo (createNotes 1) ""], "olivia", ⟨"olivia", "notes"⟩, "", [], [], rfl, ?_, ?_,
    hid, rfl⟩
  · decide +kernel
  · decide +kernel

/-- An entry for the key log. -/
def sampleEntry : KeyLogEntry Digest := ⟨1, [7], Sha512.zero, []⟩

/-- The owner of a deleted repository goes on writing its key log. -/
theorem not_deletionUniform_keylog :
    ¬ DeletionUniform sampleRoot (deletedThen "olivia" (.appendKeylog sampleEntry)) := by
  intro h
  obtain ⟨e, he⟩ := h _ _ _ (servedDeleted_deletedThen "olivia" (.appendKeylog sampleEntry))
  have hserved : ((serveAll sampleRoot
      ((deletedThen "olivia" (.appendKeylog sampleEntry)).take 2)).serveRoute sampleRoot
        ⟨"olivia", hexEncode (.replicate 32 1), "", .appendKeylog sampleEntry⟩).1 =
      .ok .noContent := by
    decide +kernel
  rw [he] at hserved
  cases hserved

/-- After the deletion someone who is no member writes the key log, and the owner asks for the
last head, of which there is none. -/
def deletedUnheard : List (HostRequest Digest) :=
  deletedThen "mallory" (.appendKeylog sampleEntry) ++
    [.route ⟨"olivia", hexEncode (.replicate 32 1), "", .headTip⟩]

/-- Both requests fail, the second one in the store. -/
theorem deletionUniform_deletedUnheard : DeletionUniform sampleRoot deletedUnheard := by
  have hids : IdsDrawnOnce deletedUnheard := List.nodup_singleton _
  refine (deletionUniform_iff hids).mpr ?_
  rintro deleted s call ⟨before, caller, target, now, later, after, hrun, hstored, -, -, rfl⟩
  obtain ⟨rfl, ⟨rfl, rfl, rfl⟩, hlast⟩ : before = [.createRepo (createNotes 1) ""] ∧
      (caller = "olivia" ∧ target = ⟨"olivia", "notes"⟩ ∧ now = "") ∧
      later ++ .route call :: after =
        [.route ⟨"mallory", hexEncode (.replicate 32 1), "", .appendKeylog sampleEntry⟩,
          .route ⟨"olivia", hexEncode (.replicate 32 1), "", .headTip⟩] := by
    simpa [deletedUnheard, deletedThen, List.cons_eq_append_iff] using hrun
  have hrecord : (serveAll sampleRoot (deletedUnheard.take 1)).byName
      (namePlace sampleRoot ⟨"olivia", "notes"⟩) = some (createNotes 1).record := by
    decide +kernel
  obtain rfl := Option.some.inj (hrecord.symm.trans hstored)
  cases later with
  | nil =>
    -- the first request comes from no member
    obtain rfl := HostRequest.route.inj (List.cons.inj hlast).1
    left
    decide +kernel
  | cons request later =>
    obtain ⟨rfl, hrest⟩ := List.cons.inj hlast
    cases later with
    | nil =>
      -- the second one from the owner, to a store without heads
      obtain rfl := HostRequest.route.inj (List.cons.inj hrest).1
      right
      change ((serveAll sampleRoot (deletedUnheard.take 3)).heads
        (createNotes 1).record.id).tipBin = none
      decide +kernel
    | cons request later => simp at hrest

end Sample

end SafeHub
