import SafeHub.Storage.HeadLog
import SafeHub.Lib.Framing
import SafeHub.Lib.PlainWrite
import SafeHub.Lib.Run

/-!
# The delivery queue on disk

Each repository has a directory with one file per queued message, named by its sequence
number. An enqueue lists the directory, takes the number after the largest one it saw and
writes its file by a plain write; a fetch reads the files with larger numbers. Enqueues run
concurrently: each is a process that takes file-level steps.

## Main definitions

* `QueueServer`, `QueueOp`, `QueueServer.step` — the directory and the steps of enqueues
* `fetchQueue` — the reader
* `QueueDelivers` — what enqueues and fetches promise over a run
* `QueueServer.Apart` — an enqueue does not come between another one's listing and its write

## Main results

* `queueDelivers_of_along_apart` — enqueues that keep apart deliver everything
-/

namespace SafeHub

open Std (ExtTreeMap)
open Framing PlainWrite Run

/-- A message as its file has it, an `MlsDeliveryEnvelope` of the wire format. -/
structure StoredEnvelope where
  repoId : RepoId
  /-- Monotonic delivery sequence for this repo's MLS channel. -/
  seq : UInt64
  /-- Opaque MLS ciphertext, welcome or commit bytes. -/
  payload : Bytes
  senderHint : Option String
  deriving DecidableEq, Repr

/-- JSON of an envelope. -/
class EnvelopeCodec where
  encode : StoredEnvelope → Bytes
  decode : Bytes → Option StoredEnvelope
  decode_encode : ∀ env, decode (encode env) = some env

/-- The envelope that the server makes of a request. -/
def mlsEnqueueEnvelope (repo : RepoId) (payload : Bytes) (senderHint : Option String) :
    StoredEnvelope :=
  ⟨repo, 0, payload, senderHint⟩

/-- Where an enqueue stands. -/
inductive EnqueuePhase
  /-- The directory exists. -/
  | begun
  /-- The directory is opened for listing; it had these files then. -/
  | listing (opened : List UInt64)
  /-- The next number is chosen. -/
  | numbered (seq : UInt64)
  /-- The file is created, and `written` bytes of it are written. -/
  | writing (seq : UInt64) (written : ℕ)
  deriving DecidableEq, Repr

/-- An enqueue in progress. -/
structure EnqueueCall where
  env : StoredEnvelope
  phase : EnqueuePhase

/-- The files of one repository's queue, the enqueues in progress and the messages whose
enqueue succeeded. -/
structure QueueServer where
  /-- `mls/{repo}/{seq}.json` -/
  dir : ExtTreeMap UInt64 Bytes compare
  calls : ℕ → Option EnqueueCall
  delivered : List StoredEnvelope

/-- An empty queue. -/
def QueueServer.new : QueueServer := ⟨∅, fun _ => none, []⟩

/-- A file-level step. -/
inductive QueueOp
  /-- An enqueue request of a repository member arrives. -/
  | begin (pid : ℕ) (repo : RepoId) (payload : Bytes) (senderHint : Option String)
  /-- The enqueue opens the directory. -/
  | openDir (pid : ℕ)
  /-- The enqueue has read these names from it and chooses the next number. -/
  | readDir (pid : ℕ) (names : List UInt64)
  /-- The enqueue opens its file for writing, which empties it. -/
  | create (pid : ℕ)
  /-- The enqueue writes the next `n` bytes; it returns its number with the last one. -/
  | write (pid n : ℕ)
  /-- The enqueue returns an error. -/
  | fail (pid : ℕ)
  /-- A fetch reads. -/
  | fetch (after : UInt64) (limit : ℕ)

/-- The largest number of a listing. -/
def maxSeq (names : List UInt64) : UInt64 := names.foldl max 0

/-- The order messages are listed in. -/
def byDelivery (a b : StoredEnvelope) : Prop := a.seq ≤ b.seq

instance : DecidableRel byDelivery := fun a b => inferInstanceAs (Decidable (a.seq ≤ b.seq))

instance : Std.Total byDelivery := ⟨fun a b => UInt64.le_total a.seq b.seq⟩

instance : IsTrans StoredEnvelope byDelivery := ⟨fun _ _ _ => UInt64.le_trans⟩

namespace QueueServer

/-- Set where an enqueue stands. -/
def setPhase (s : QueueServer) (pid : ℕ) (call : EnqueueCall) (phase : EnqueuePhase) :
    QueueServer :=
  { s with calls := Function.update s.calls pid (some { call with phase := phase }) }

/-- An enqueue ends. -/
def endCall (s : QueueServer) (pid : ℕ) : QueueServer :=
  { s with calls := Function.update s.calls pid none }

/-- Replace the bytes of a message's file. -/
def setFile (s : QueueServer) (seq : UInt64) (bytes : Bytes) : QueueServer :=
  { s with dir := s.dir.insert seq bytes }

end QueueServer

section Store

variable [EnvelopeCodec]

/-- What an enqueue writes once its number is chosen. -/
def EnqueueCall.content (call : EnqueueCall) (seq : UInt64) : Bytes :=
  EnvelopeCodec.encode { call.env with seq := seq }

/-- The message of a file. -/
def decodeEnvelope (bytes : Bytes) : Except (StorageError Digest) StoredEnvelope :=
  match EnvelopeCodec.decode bytes with
  | some env => .ok env
  | none => .error .serde

/-- At most `limit` messages after a cursor, from the files as the directory lists them. -/
def fetchQueue (listing : List (UInt64 × Bytes)) (after : UInt64) (limit : ℕ) :
    Except (StorageError Digest) (List StoredEnvelope) := do
  let out ← (listing.filter fun entry => after < entry.1).mapM fun entry => decodeEnvelope entry.2
  return (out.insertionSort byDelivery).take limit

/-- One file-level step; `none` where the enqueue does not stand where the step takes it from. A
listing has every file that was there when the directory was opened, and may have those that
came since. -/
def QueueServer.step (s : QueueServer) : QueueOp → Option QueueServer
  | .begin pid repo payload senderHint =>
    let call := ⟨mlsEnqueueEnvelope repo payload senderHint, .begun⟩
    if (s.calls pid).isNone then some (s.setPhase pid call .begun) else none
  | .openDir pid => do
    let call ← s.calls pid
    if call.phase = .begun then some (s.setPhase pid call (.listing s.dir.keys)) else none
  | .readDir pid names => do
    let call ← s.calls pid
    match call.phase with
    | .listing opened =>
      -- files that were there at the start are listed; those that came later may be
      if opened ⊆ names ∧ names ⊆ s.dir.keys then
        match nextSeq (D := Digest) (maxSeq names) with
        | .ok seq => some (s.setPhase pid call (.numbered seq))
        | .error _ => some (s.endCall pid)
      else none
    | _ => none
  | .create pid => do
    let call ← s.calls pid
    match call.phase with
    -- a file of that number is overwritten
    | .numbered seq => some ((s.setFile seq []).setPhase pid call (.writing seq 0))
    | _ => none
  | .write pid n => do
    let call ← s.calls pid
    match call.phase with
    | .writing seq k =>
      let file := writeNext (call.content seq) (s.dir[seq]?.getD []) k n
      if (call.content seq).length ≤ k + n then
        some {
          dir := s.dir.insert seq file
          calls := Function.update s.calls pid none
          delivered := { call.env with seq := seq } :: s.delivered }
      else some ((s.setFile seq file).setPhase pid call (.writing seq (k + n)))
    | _ => none
  | .fail pid => (s.calls pid).map fun _ => s.endCall pid
  | .fetch _ _ => some s

/-! ### What enqueues and fetches promise -/

/-- What holds of the queue over a run: successful enqueues have numbers of their own, their
files keep them, and every fetch returns the messages after its cursor in order, from the
first one up to its limit. -/
structure QueueDelivers (ops : List QueueOp) : Prop where
  unique : ∀ front back s, ops = front ++ back →
    run QueueServer.step QueueServer.new front = some s → (s.delivered.map (·.seq)).Nodup
  kept : ∀ front back s, ops = front ++ back →
    run QueueServer.step QueueServer.new front = some s →
    ∀ env ∈ s.delivered, s.dir[env.seq]? = some (EnvelopeCodec.encode env)
  fetched : ∀ front after limit back s, ops = front ++ .fetch after limit :: back →
    run QueueServer.step QueueServer.new front = some s →
    ∀ listing, listing.Perm s.dir.toList →
      ∃ all : List StoredEnvelope, all.Perm (s.delivered.filter fun env => after < env.seq) ∧
        (all.Pairwise fun a b => a.seq < b.seq) ∧
        fetchQueue listing after limit = .ok (all.take limit)

end Store

namespace QueueServer

/-- An enqueue has created the file of a number and has not written its last byte. -/
def BeingWritten (s : QueueServer) (seq : UInt64) : Prop :=
  ∃ pid call k, s.calls pid = some call ∧ call.phase = .writing seq k

/-- The step does not come between another enqueue's choice of a number and the last byte of
its file: a file is created only where there is none, and while a file is written nothing
reads it and its enqueue does not fail. -/
def Apart (s : QueueServer) : QueueOp → Prop
  | .create pid => ∀ call seq, s.calls pid = some call → call.phase = .numbered seq →
      s.dir[seq]? = none
  | .fail pid => ∀ call seq k, s.calls pid = some call → call.phase ≠ .writing seq k
  | .fetch after _ => ∀ seq, after < seq → ¬ s.BeingWritten seq
  | _ => True

end QueueServer

section Preservation

variable [EnvelopeCodec] {s t : QueueServer} {pid k : ℕ} {call : EnqueueCall} {seq : UInt64}
  {bytes : Bytes}

/-- The file an enqueue is writing, the content it will have and how much of it is written. -/
def EnqueueCall.writer (call : EnqueueCall) : Option (UInt64 × Bytes × ℕ) :=
  match call.phase with
  | .writing seq k => some (seq, call.content seq, k)
  | _ => none

namespace QueueServer

/-- The queue's files by number. -/
def file (s : QueueServer) (seq : UInt64) : Option Bytes := s.dir[seq]?

/-- The writers of the queue's files. -/
def writers (s : QueueServer) (pid : ℕ) : Option (UInt64 × Bytes × ℕ) :=
  (s.calls pid).bind EnqueueCall.writer

/-- What a message's file holds once it is written. -/
def WholeMessage (delivered : List StoredEnvelope) (seq : UInt64) (bytes : Bytes) : Prop :=
  ∃ env ∈ delivered, env.seq = seq ∧ EnvelopeCodec.encode env = bytes

/-- What holds of the files while enqueues keep apart: a file holds a delivered message or the
part that its only writer has written, and delivered messages keep their numbers and files. -/
structure MessagesWhole (s : QueueServer) : Prop where
  files : Exclusive (WholeMessage s.delivered) s.file s.writers
  kept : ∀ env ∈ s.delivered, s.file env.seq = some (EnvelopeCodec.encode env)
  finished : ∀ env ∈ s.delivered, ∀ pid content k, s.writers pid ≠ some (env.seq, content, k)
  unique : (s.delivered.map (·.seq)).Nodup

omit [EnvelopeCodec] in
theorem file_new : (new : QueueServer).file = fun _ => none := by
  ext1 seq
  exact ExtTreeMap.getElem?_empty

theorem messagesWhole_new : (new : QueueServer).MessagesWhole where
  files := by
    rw [file_new]
    exact Exclusive.empty
  kept := by intro env h; cases h
  finished := by intro env h; cases h
  unique := List.nodup_nil

theorem beingWritten_iff :
    s.BeingWritten seq ↔ ∃ pid content k, s.writers pid = some (seq, content, k) := by
  constructor
  · intro ⟨pid, call, k, hcall, hphase⟩
    refine ⟨pid, call.content seq, k, ?_⟩
    rw [writers, hcall, Option.bind_some, EnqueueCall.writer, hphase]
  · intro ⟨pid, content, k, hwriter⟩
    rw [writers, Option.bind_eq_some_iff] at hwriter
    obtain ⟨call, hcall, hwriter⟩ := hwriter
    cases hphase : call.phase <;> rw [EnqueueCall.writer, hphase] at hwriter <;> cases hwriter
    exact ⟨pid, call, k, hcall, hphase⟩

theorem writers_of_calls (hcall : s.calls pid = some call) : s.writers pid = call.writer := by
  rw [writers, hcall, Option.bind_some]

/-- Replacing an enqueue replaces its writer. -/
theorem writers_of_update {new : Option EnqueueCall}
    (hcalls : t.calls = Function.update s.calls pid new) :
    t.writers = Function.update s.writers pid (new.bind EnqueueCall.writer) := by
  ext1 pid'
  rw [writers, hcalls]
  by_cases hpid : pid' = pid
  · rw [hpid, Function.update_self, Function.update_self]
  · rw [Function.update_of_ne hpid, Function.update_of_ne hpid, writers]

omit [EnvelopeCodec] in
/-- Replacing a file. -/
theorem file_of_insert (hdir : t.dir = s.dir.insert seq bytes) :
    t.file = Function.update s.file seq (some bytes) := by
  ext1 seq'
  rw [file, hdir, ExtTreeMap.getElem?_insert]
  by_cases hseq : seq = seq'
  · rw [if_pos (by simp [hseq]), hseq, Function.update_self]
  · rw [if_neg (by simp [hseq]), Function.update_of_ne (Ne.symm hseq), file]

/-- An enqueue that is not writing moves on, or ends, and no file changes. -/
theorem MessagesWhole.of_update (h : s.MessagesWhole) {new : Option EnqueueCall}
    (hdir : t.dir = s.dir) (hdelivered : t.delivered = s.delivered)
    (hcalls : t.calls = Function.update s.calls pid new)
    (hold : s.writers pid = none) (hnew : new.bind EnqueueCall.writer = none) :
    t.MessagesWhole := by
  have hfile : t.file = s.file := by
    ext1 seq
    rw [file, hdir, file]
  have hwriters : t.writers = s.writers := by
    rw [writers_of_update hcalls, hnew, ← hold, Function.update_eq_self]
  refine ⟨?_, ?_, ?_, ?_⟩
  · rw [hdelivered, hfile, hwriters]
    exact h.files
  · rw [hdelivered, hfile]
    exact h.kept
  · rw [hdelivered, hwriters]
    exact h.finished
  · rw [hdelivered]
    exact h.unique

/-- An enqueue changes the file it is writing, which no delivered message has. -/
theorem MessagesWhole.of_setFile (h : s.MessagesWhole) {phase : EnqueuePhase}
    (hfresh : ∀ env ∈ s.delivered, env.seq ≠ seq)
    (hwriter : { call with phase := phase }.writer = some (seq, call.content seq, k))
    (hfiles : Exclusive (WholeMessage s.delivered) (Function.update s.file seq (some bytes))
      (Function.update s.writers pid (some (seq, call.content seq, k)))) :
    ((s.setFile seq bytes).setPhase pid call phase).MessagesWhole := by
  have hfile : ((s.setFile seq bytes).setPhase pid call phase).file =
      Function.update s.file seq (some bytes) := file_of_insert rfl
  have hwriters : ((s.setFile seq bytes).setPhase pid call phase).writers =
      Function.update s.writers pid (some (seq, call.content seq, k)) := by
    rw [← hwriter]
    have hcalls : ((s.setFile seq bytes).setPhase pid call phase).calls =
        Function.update s.calls pid (some { call with phase := phase }) := rfl
    exact writers_of_update hcalls
  refine ⟨?_, ?_, ?_, h.unique⟩
  · rw [hfile, hwriters]
    exact hfiles
  · intro env hmem
    rw [hfile, Function.update_of_ne (hfresh env hmem)]
    exact h.kept env hmem
  · intro env hmem pid' content k'
    rw [hwriters]
    -- this call writes a file that no message has; the others are as before
    by_cases hpid : pid' = pid
    · rw [hpid, Function.update_self]
      intro heq
      exact hfresh env hmem (Prod.mk.inj (Option.some.inj heq)).1.symm
    · rw [Function.update_of_ne hpid]
      exact h.finished env hmem pid' content k'

/-- The last bytes of a message deliver it. -/
theorem MessagesWhole.deliver (h : s.MessagesWhole) {n : ℕ}
    (hwriter : s.writers pid = some (seq, call.content seq, k))
    (hlast : (call.content seq).length ≤ k + n)
    (hdelivered : t.delivered = { call.env with seq := seq } :: s.delivered)
    (hdir : t.dir = s.dir.insert seq (writeNext (call.content seq) ((s.file seq).getD []) k n))
    (hcalls : t.calls = Function.update s.calls pid none) : t.MessagesWhole := by
  have hfresh : ∀ env ∈ s.delivered, env.seq ≠ seq := by
    intro env hmem heq
    exact h.finished env hmem pid (call.content seq) k (heq ▸ hwriter)
  have hwriters : t.writers = Function.update s.writers pid none := writers_of_update hcalls
  have hfile : t.file = Function.update s.file seq (some (call.content seq)) := by
    rw [← h.files.writeNext_last hwriter hlast]
    exact file_of_insert hdir
  -- messages that were whole stay so, and the new one is
  have hgrown : ∀ seq bytes, WholeMessage s.delivered seq bytes →
      WholeMessage t.delivered seq bytes := by
    intro seq' bytes ⟨env, hmem, hwhole⟩
    exact ⟨env, hdelivered ▸ List.mem_cons_of_mem _ hmem, hwhole⟩
  have hnew : WholeMessage t.delivered seq (call.content seq) :=
    ⟨_, hdelivered ▸ List.mem_cons_self, rfl, rfl⟩
  have hfiles := (h.files.mono hgrown).finish hwriter hlast hnew
  rw [← file_of_insert hdir, ← hwriters] at hfiles
  refine ⟨hfiles, ?_, ?_, ?_⟩
  · -- every delivered message has its file
    rw [hdelivered, List.forall_mem_cons, hfile]
    refine ⟨Function.update_self _ _ _, ?_⟩
    intro env hmem
    rw [Function.update_of_ne (hfresh env hmem)]
    exact h.kept env hmem
  · -- nobody writes a delivered message any more
    rw [hdelivered, List.forall_mem_cons, hwriters]
    constructor
    · intro pid' content' k' hother
      by_cases hpid : pid' = pid
      · rw [hpid, Function.update_self] at hother
        cases hother
      · rw [Function.update_of_ne hpid] at hother
        exact hpid (h.files.sole pid' pid seq content' _ k' k hother hwriter)
    · intro env hmem pid' content' k' hother
      by_cases hpid : pid' = pid
      · rw [hpid, Function.update_self] at hother
        cases hother
      · rw [Function.update_of_ne hpid] at hother
        exact h.finished env hmem pid' content' k' hother
  · -- the number is new
    rw [hdelivered, List.map_cons, List.nodup_cons]
    refine ⟨?_, h.unique⟩
    intro hmem
    obtain ⟨env, henv, hseq⟩ := List.mem_map.mp hmem
    exact hfresh env henv hseq

/-- A step that keeps apart keeps the messages whole. -/
theorem MessagesWhole.step (h : s.MessagesWhole) {op : QueueOp} (hop : s.Apart op)
    (hstep : s.step op = some t) : t.MessagesWhole := by
  cases op with
  | begin pid repo payload senderHint =>
    simp only [QueueServer.step, Option.isNone_iff_eq_none, Option.ite_none_right_eq_some,
      Option.some.injEq] at hstep
    obtain ⟨hfree, rfl⟩ := hstep
    -- no file is touched and the new call is no writer yet
    refine h.of_update rfl rfl rfl ?_ rfl
    rw [writers, hfree, Option.bind_none]
  | openDir pid =>
    simp only [QueueServer.step, Option.bind_eq_bind, Option.bind_eq_some_iff,
      Option.ite_none_right_eq_some, Option.some.injEq] at hstep
    obtain ⟨call, hcall, hphase, rfl⟩ := hstep
    refine h.of_update rfl rfl rfl ?_ rfl
    rw [writers_of_calls hcall, EnqueueCall.writer, hphase]
  | readDir pid names =>
    simp only [QueueServer.step, Option.bind_eq_bind, Option.bind_eq_some_iff] at hstep
    obtain ⟨call, hcall, hstep⟩ := hstep
    cases hphase : call.phase <;> simp only [hphase, reduceCtorEq] at hstep
    -- only an enqueue that has opened the directory reads it
    next opened =>
      have hidle : s.writers pid = none := by
        rw [writers_of_calls hcall, EnqueueCall.writer, hphase]
      rw [Option.ite_none_right_eq_some] at hstep
      have hnext := hstep.2
      -- it takes the next number, or fails when there is none left
      split at hnext
      · obtain rfl := Option.some_inj.mp hnext
        exact h.of_update rfl rfl rfl hidle rfl
      · obtain rfl := Option.some_inj.mp hnext
        exact h.of_update rfl rfl rfl hidle rfl
  | create pid =>
    simp only [QueueServer.step, Option.bind_eq_bind, Option.bind_eq_some_iff] at hstep
    obtain ⟨call, hcall, hstep⟩ := hstep
    cases hphase : call.phase <;> simp only [hphase, reduceCtorEq, Option.some.injEq] at hstep
    next seq =>
      obtain rfl := hstep
      have hidle : s.writers pid = none := by
        rw [writers_of_calls hcall, EnqueueCall.writer, hphase]
      have habsent : s.file seq = none := hop call seq hcall hphase
      refine h.of_setFile ?_ rfl (h.files.create hidle habsent (call.content seq))
      -- a delivered message has a file, and this one had none
      intro env hmem heq
      have hkept := h.kept env hmem
      rw [heq, habsent] at hkept
      cases hkept
  | write pid n =>
    simp only [QueueServer.step, Option.bind_eq_bind, Option.bind_eq_some_iff] at hstep
    obtain ⟨call, hcall, hstep⟩ := hstep
    cases hphase : call.phase <;> simp only [hphase, reduceCtorEq] at hstep
    next seq k =>
      have hwriter : s.writers pid = some (seq, call.content seq, k) := by
        rw [writers_of_calls hcall, EnqueueCall.writer, hphase]
      -- the last bytes deliver the message; until then the call stays its writer
      by_cases hlast : (call.content seq).length ≤ k + n
      · rw [if_pos hlast, Option.some_inj] at hstep
        obtain rfl := hstep
        exact h.deliver hwriter hlast rfl rfl rfl
      · rw [if_neg hlast, Option.some_inj] at hstep
        obtain rfl := hstep
        refine h.of_setFile ?_ rfl (h.files.next hwriter (Nat.not_le.mp hlast))
        intro env hmem heq
        exact h.finished env hmem pid _ k (heq ▸ hwriter)
  | fail pid =>
    simp only [QueueServer.step, Option.map_eq_some_iff] at hstep
    obtain ⟨call, hcall, rfl⟩ := hstep
    refine h.of_update rfl rfl rfl ?_ rfl
    rw [writers_of_calls hcall, EnqueueCall.writer]
    -- a call that fails while it writes would leave a torn file behind
    split
    · next seq k hphase => exact absurd hphase (hop call seq k hcall)
    · rfl
  | fetch after limit =>
    obtain rfl := Option.some_inj.mp hstep
    exact h

/-- The file of a message. -/
def messageEntry (env : StoredEnvelope) : UInt64 × Bytes := (env.seq, EnvelopeCodec.encode env)

/-- Past a cursor above which nothing is being written, the directory has one file per
delivered message. -/
theorem MessagesWhole.entries_perm (h : s.MessagesWhole) {after : UInt64}
    (hquiet : ∀ seq, after < seq → ¬ s.BeingWritten seq) :
    (s.dir.toList.filter fun entry => after < entry.1).Perm
      ((s.delivered.filter fun env => after < env.seq).map messageEntry) := by
  have hentries : (s.delivered.map messageEntry).Nodup := by
    apply List.Nodup.of_map Prod.fst
    rw [List.map_map]
    exact h.unique
  -- both lists have distinct numbers, so it is enough that they have the same entries
  refine (List.perm_ext_iff_of_nodup ?_ ?_).mpr fun entry => ?_
  · exact (nodup_toList s.dir).filter _
  · exact hentries.sublist (List.filter_sublist.map _)
  rw [List.mem_filter, ← Prod.mk.eta (p := entry), ExtTreeMap.mem_toList_iff_getElem?_eq_some,
    List.mem_map]
  constructor
  · intro ⟨hfile, hafter⟩
    -- nobody is writing this file, so it is a whole message
    have hquiet' := mt beingWritten_iff.mpr (hquiet entry.1 (by simpa using hafter))
    obtain ⟨env, hmem, hseq, hbytes⟩ := h.files.whole_of_unwritten hfile hquiet'
    rw [← hseq] at hafter
    exact ⟨env, List.mem_filter.mpr ⟨hmem, hafter⟩, Prod.ext hseq hbytes⟩
  · intro ⟨env, hmem, hentry⟩
    obtain ⟨hmem, hafter⟩ := List.mem_filter.mp hmem
    obtain ⟨hseq, hbytes⟩ := Prod.mk.inj hentry
    rw [← hseq, ← hbytes]
    exact ⟨h.kept env hmem, hafter⟩

theorem decodeEnvelope_encode (env : StoredEnvelope) :
    decodeEnvelope (EnvelopeCodec.encode env) = .ok env := by
  rw [decodeEnvelope, EnvelopeCodec.decode_encode]

/-- A fetch that no write disturbs reads the delivered messages after its cursor in order. -/
theorem MessagesWhole.fetchQueue (h : s.MessagesWhole) {after : UInt64} (limit : ℕ)
    (hquiet : ∀ seq, after < seq → ¬ s.BeingWritten seq) {listing : List (UInt64 × Bytes)}
    (hlisting : listing.Perm s.dir.toList) :
    ∃ all : List StoredEnvelope, all.Perm (s.delivered.filter fun env => after < env.seq) ∧
      (all.Pairwise fun a b => a.seq < b.seq) ∧
      fetchQueue listing after limit = .ok (all.take limit) := by
  -- the listing comes in any order
  have hfiles := (hlisting.filter fun entry => after < entry.1).trans (h.entries_perm hquiet)
  have hdecoded : List.Forall₂ (fun entry env => decodeEnvelope entry.2 = .ok env)
      ((s.delivered.filter fun env => after < env.seq).map messageEntry)
      (s.delivered.filter fun env => after < env.seq) := by
    rw [List.forall₂_map_left_iff, List.forall₂_same]
    intro env _
    exact decodeEnvelope_encode env
  obtain ⟨out, hout, hperm⟩ := List.perm_comp_forall₂ hfiles hdecoded
  have hall := (List.perm_insertionSort byDelivery out).trans hperm
  refine ⟨out.insertionSort byDelivery, hall, ?_, ?_⟩
  · -- sorted, and without repeated numbers
    have hdistinct : ((out.insertionSort byDelivery).map (·.seq)).Nodup :=
      (hall.map _).nodup_iff.mpr (h.unique.sublist (List.filter_sublist.map _))
    have hsorted := List.pairwise_insertionSort byDelivery out
    exact hsorted.imp₂ (fun _ _ hle hne => UInt64.lt_of_le_of_ne hle hne)
      (List.pairwise_map.mp hdistinct)
  · rw [SafeHub.fetchQueue, mapM_eq_ok_iff.mpr hout]
    rfl

end QueueServer

open QueueServer

theorem messagesWhole_of_run {ops : List QueueOp}
    (hapart : Along QueueServer.step QueueServer.Apart QueueServer.new ops)
    (hrun : run QueueServer.step QueueServer.new ops = some s) : s.MessagesWhole :=
  hapart.invariant (fun _ _ _ h hop hstep => h.step hop hstep) messagesWhole_new hrun

/-- Over every run in which enqueues keep apart, the queue delivers everything. -/
theorem queueDelivers_of_along_apart {ops : List QueueOp}
    (hapart : Along QueueServer.step QueueServer.Apart QueueServer.new ops) :
    QueueDelivers ops := by
  have hwhole : ∀ front back s, ops = front ++ back →
      run QueueServer.step QueueServer.new front = some s → s.MessagesWhole := by
    intro front back s heq hrun
    rw [heq, along_append] at hapart
    exact messagesWhole_of_run hapart.1 hrun
  refine ⟨?_, ?_, ?_⟩
  · intro front back s heq hrun
    exact (hwhole front back s heq hrun).unique
  · intro front back s heq hrun
    exact (hwhole front back s heq hrun).kept
  · intro front after limit back s heq hrun listing hlisting
    rw [heq] at hapart
    have hquiet := hapart.of_append_cons hrun
    exact (hwhole front _ s heq hrun).fetchQueue limit hquiet hlisting

end Preservation

section Sample

/-- The fields of an envelope, one after the other. -/
def envelopeCode : Code StoredEnvelope :=
  (((Code.byte.list.through Vector.toList (byteArray 32) byteArray_toList).pair
    (Code.byte.list.through u64BE readU64BE readU64BE_u64BE)).pair
    (Code.byte.list.pair Code.string.option)).through
    (fun env => ((env.repoId, env.seq), (env.payload, env.senderHint)))
    (fun raw => ⟨raw.1.1, raw.1.2, raw.2.1, raw.2.2⟩) fun _ => rfl

/-- A self-delimiting stand-in for JSON. -/
abbrev framedEnvelopeCodec : EnvelopeCodec where
  encode := envelopeCode.write
  decode := envelopeCode.readAll
  decode_encode := envelopeCode.readAll_write

attribute [local instance] framedEnvelopeCodec

/-- The repository of the runs below. -/
def queueRepo : RepoId := Vector.replicate 32 0

/-- Two enqueues list the empty directory before either creates its file. -/
def racedEnqueues : List QueueOp :=
  [.begin 0 queueRepo [1] none, .begin 1 queueRepo [2] none, .openDir 0, .openDir 1,
    .readDir 0 [], .readDir 1 [], .create 0, .write 0 200, .create 1, .write 1 200]

theorem delivered_racedEnqueues :
    (run QueueServer.step QueueServer.new racedEnqueues).map
      (fun s => s.delivered.map (·.seq)) = some [1, 1] := by
  rfl

/-- Both enqueues return the same number, and the second message replaces the first. -/
theorem not_queueDelivers_racedEnqueues : ¬ QueueDelivers racedEnqueues := by
  intro h
  obtain ⟨s, hrun, hseqs⟩ := Option.map_eq_some_iff.mp delivered_racedEnqueues
  have hunique := h.unique racedEnqueues [] s (List.append_nil _).symm hrun
  rw [hseqs] at hunique
  exact absurd hunique (by decide)

/-- Two enqueues, the second of which lists the directory and writes its file while the first one
is writing its own, and a fetch. -/
def pairedEnqueues : List QueueOp :=
  [.begin 0 queueRepo [1] none, .begin 1 queueRepo [2] none, .openDir 0, .readDir 0 [], .create 0,
    .openDir 1, .write 0 1, .readDir 1 [1], .create 1, .write 1 1, .write 0 200, .write 1 200,
    .fetch 0 100]

theorem along_apart_pairedEnqueues :
    Along QueueServer.step QueueServer.Apart QueueServer.new pairedEnqueues := by
  refine along_cons rfl trivial (along_cons rfl trivial (along_cons rfl trivial
    (along_cons rfl trivial (along_cons rfl ?_ (along_cons rfl trivial (along_cons rfl trivial
    (along_cons rfl trivial (along_cons rfl ?_ (along_cons rfl trivial (along_cons rfl trivial
    (along_cons rfl trivial (along_cons rfl ?_ trivial))))))))))))
  · -- the first file is created in an empty directory
    intro call seq hcall hphase
    rfl
  · -- the second one beside the first
    intro call seq hcall hphase
    obtain rfl := Option.some.inj hcall
    cases hphase
    rfl
  · -- both are written when the fetch comes
    rintro seq - ⟨pid, call, k, hcall, -⟩
    by_cases hfirst : pid = 0
    · subst hfirst
      cases hcall
    by_cases hsecond : pid = 1
    · subst hsecond
      cases hcall
    · simp [QueueServer.setPhase, QueueServer.setFile, QueueServer.new, hfirst, hsecond] at hcall

/-- Both messages are delivered. -/
theorem queueDelivers_pairedEnqueues : QueueDelivers pairedEnqueues ∧
    (run QueueServer.step QueueServer.new pairedEnqueues).map
      (fun s => s.delivered.map (·.seq)) = some [2, 1] :=
  ⟨queueDelivers_of_along_apart along_apart_pairedEnqueues, rfl⟩

end Sample

end SafeHub
