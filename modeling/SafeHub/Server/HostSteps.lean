import SafeHub.Server.HostRoutes
import SafeHub.Storage.Blobs

/-!
# Requests and the steps of the stores

The stores have models of their own, in which a request takes several steps among those of others.
A request that is served whole is one whose steps come one after the other.

## Main results

* `HostState.putBlob_runs` — a blob put
* `HostState.mlsEnqueue_runs` — an enqueue
* `HostState.createRepo_runs`, `HostState.updateRepo_runs` — the requests on repositories
-/

namespace SafeHub

open Std (ExtTreeMap)
open Run PlainWrite

section Stores

variable {D : Type} [Sha512 D] [DecidableEq D] {s : HostState D}

/-- Writing a new file at once. -/
theorem writeNext_whole (content : Bytes) : writeNext content [] 0 content.length = content := by
  have h := writeNext_take (Nat.zero_le content.length) content.length
  rwa [List.take_zero, Nat.zero_add, List.take_length] at h

/-- The blob store with no put in progress. -/
def HostState.blobServer (s : HostState D) (returned : List Bytes) : BlobServer D :=
  ⟨s.blobs, s.blobMeta, fun _ => none, returned⟩

/-- A blob put takes the steps of the store. -/
theorem HostState.putBlob_runs [BlobTexts D] {request : PutBlobRequest} {info : BlobMeta D}
    {ciphertext : Bytes} (hread : request.read D = .ok (info, ciphertext)) :
    ∃ ops, run BlobServer.step (s.blobServer []) ops =
      some ((s.putBlob request).2.blobServer [ciphertext]) := by
  rw [HostState.putBlob, hread]
  dsimp only
  by_cases hthere : (s.blobs (Sha512.digest ciphertext)).isSome
  · refine ⟨[.begin 0 info ciphertext, .check 0, .finish 0], ?_⟩
    simp [run, BlobServer.step, HostState.blobServer, BlobServer.setPhase, PutCall.id, hthere]
  · refine ⟨[.begin 0 info ciphertext, .check 0, .create 0, .write 0 ciphertext.length, .finish 0],
      ?_⟩
    simp [run, BlobServer.step, HostState.blobServer, BlobServer.setPhase, BlobServer.setFile,
      PutCall.id, PutPhase.written, writeNext_whole, hthere]

/-- The queue of a repository with no enqueue in progress. -/
def HostState.queueServer (s : HostState D) (repo : RepoId) (delivered : List StoredEnvelope) :
    QueueServer :=
  ⟨s.mls repo, fun _ => none, delivered⟩

theorem insert_insert_self (files : ExtTreeMap UInt64 Bytes compare) (seq : UInt64)
    (bytes bytes' : Bytes) : (files.insert seq bytes).insert seq bytes' = files.insert seq bytes' :=
    by
  refine ExtTreeMap.ext_getElem? fun seq' => ?_
  rw [ExtTreeMap.getElem?_insert, ExtTreeMap.getElem?_insert, ExtTreeMap.getElem?_insert]
  split_ifs <;> rfl

omit [Sha512 D] [DecidableEq D] in
/-- An enqueue takes the steps of the queue. -/
theorem HostState.mlsEnqueue_runs [EnvelopeCodec] {repo : RepoId} {payload : Bytes}
    {senderHint : Option String} {seq : UInt64}
    (hseq : nextSeq (D := Digest) (maxSeq (s.mls repo).keys) = .ok seq) :
    ∃ ops, run QueueServer.step (s.queueServer repo []) ops =
      some ((s.mlsEnqueue repo payload senderHint).2.queueServer repo
        [{ mlsEnqueueEnvelope repo payload senderHint with seq := seq }]) := by
  rw [HostState.mlsEnqueue, hseq]
  dsimp only
  let content := EnvelopeCodec.encode { mlsEnqueueEnvelope repo payload senderHint with seq := seq }
  refine ⟨[.begin 0 repo payload senderHint, .openDir 0, .readDir 0 (s.mls repo).keys, .create 0,
    .write 0 content.length], ?_⟩
  simp [run, QueueServer.step, HostState.queueServer, QueueServer.setPhase, QueueServer.setFile,
    hseq, EnqueueCall.content, content, writeNext_whole, insert_insert_self]

end Stores

section Directory

variable {D : Type} {data : DataRoot} {s : HostState D}

/-- The records of the host, and how far one request on them has come. -/
def HostState.directoryAt (s : HostState D) (phase : DirPhase) : RepoDirectory Unit :=
  ⟨s.byName, s.byId, fun _ => phase⟩

/-- A request moves on, and the records are as they were. -/
theorem HostState.run_setPhase {req : DirRequest} {phase phase' : DirPhase} {ops : List Unit}
    (h : dirStep data (fun _ : Unit => req) (s.directoryAt phase) () =
      some ((s.directoryAt phase).setPhase () phase')) :
    run (dirStep data fun _ : Unit => req) (s.directoryAt phase) (() :: ops) =
      run (dirStep data fun _ : Unit => req) (s.directoryAt phase') ops := by
  have hphase : (s.directoryAt phase).setPhase () phase' = s.directoryAt phase' := by
    rw [RepoDirectory.setPhase, HostState.directoryAt, HostState.directoryAt]
    congr 1
  rw [run_cons, h, Option.bind_some, hphase]

/-- The two writes of a record. -/
theorem HostState.run_writeRecord {req : DirRequest} (body : RepoRecord) :
    run (dirStep data fun _ : Unit => req) (s.directoryAt (.ready body)) [(), ()] =
      some ((s.writeRecord data body).directoryAt (.finished (.ok (req.success body)))) := by
  simp only [run, dirStep, HostState.directoryAt, RepoDirectory.setPhase, Option.bind_some,
    Function.update_self, HostState.writeRecord]
  congr 1

/-- Creating a repository takes the steps of the directory. -/
theorem HostState.createRepo_runs (c : CreateRequest) (now : String) :
    ∃ ops, run (dirStep data fun _ : Unit => .create c) (s.directoryAt .arrived) ops =
      some ((s.createRepo data c now).2.directoryAt (.finished (s.createRepo data c now).1)) := by
  rw [HostState.createRepo]
  dsimp only
  split_ifs with hthere
  · exact ⟨[()], HostState.run_setPhase (if_pos hthere)⟩
  · have hready : dirStep data (fun _ : Unit => .create c) (s.directoryAt .arrived) () =
        some ((s.directoryAt .arrived).setPhase () (.ready c.record)) := if_neg hthere
    refine ⟨[(), (), ()], ?_⟩
    rw [HostState.run_setPhase hready, HostState.run_writeRecord]
    rfl

/-- So does changing or deleting one, whose check reads the members record. -/
theorem HostState.updateRepo_runs (caller : UserId) (target : RepoName) (edit : DirEdit)
    (now : String) :
    ∃ ops, run (dirStep data fun _ : Unit => .update
          ⟨caller, target, s.membersOf data target now, edit⟩) (s.directoryAt .arrived) ops =
      some ((s.updateRepo data caller target edit now).2.directoryAt
        (.finished (s.updateRepo data caller target edit now).1)) := by
  rw [HostState.updateRepo]
  generalize hu : UpdateRequest.mk caller target (s.membersOf data target now) edit = u
  have htarget : u.target = target := by rw [← hu]
  -- as many steps of the directory as checks that pass, then the two writes
  cases hauth : u.authorize with
  | error e =>
    refine ⟨[()], HostState.run_setPhase ?_⟩
    simp [dirStep, HostState.directoryAt, hauth]
  | ok =>
    have hchecked : dirStep data (fun _ : Unit => .update u) (s.directoryAt .arrived) () =
        some ((s.directoryAt .arrived).setPhase () .checked) := by
      simp [dirStep, HostState.directoryAt, hauth]
    dsimp only
    cases hstored : s.byName (namePlace data target) with
    | none =>
      refine ⟨[(), ()], (HostState.run_setPhase hchecked).trans (HostState.run_setPhase ?_)⟩
      simp [dirStep, HostState.directoryAt, htarget, hstored]
    | some stored =>
      dsimp only
      cases hedit : u.edited stored with
      | error e =>
        refine ⟨[(), ()], (HostState.run_setPhase hchecked).trans (HostState.run_setPhase ?_)⟩
        simp [dirStep, HostState.directoryAt, htarget, hstored, hedit]
      | ok body =>
        have hloaded : dirStep data (fun _ : Unit => .update u) (s.directoryAt .checked) () =
            some ((s.directoryAt .checked).setPhase () (.loaded body)) := by
          simp [dirStep, HostState.directoryAt, htarget, hstored, hedit]
        dsimp only
        split_ifs with hthere
        · have hready : dirStep data (fun _ : Unit => .update u) (s.directoryAt (.loaded body)) () =
              some ((s.directoryAt (.loaded body)).setPhase () (.ready body)) := if_pos hthere
          refine ⟨[(), (), (), (), ()], ?_⟩
          rw [HostState.run_setPhase hchecked, HostState.run_setPhase hloaded,
            HostState.run_setPhase hready, HostState.run_writeRecord]
          rfl
        · refine ⟨[(), (), ()], ?_⟩
          rw [HostState.run_setPhase hchecked, HostState.run_setPhase hloaded]
          exact HostState.run_setPhase (if_neg hthere)

end Directory

end SafeHub
