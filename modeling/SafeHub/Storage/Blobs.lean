import SafeHub.Storage.Error
import SafeHub.Lib.PlainWrite
import SafeHub.Lib.Run
import Mathlib.Data.Set.Function

/-!
# The blob store

Blobs are stored under their digest. A put writes the blob's file only when no file of that
name exists, by a plain write; a get returns whatever the file holds. The server handles
puts concurrently: each is a process that takes file-level steps, and the server's process
or a write may stop at any of them.

## Main definitions

* `BlobServer`, `BlobOp`, `BlobServer.step` — the store and the steps of its calls
* `getBlob` — the reader
* `BlobsIntact` — what gets may return over a run
* `WritesUndisturbed` — no blob file is read, created again or left while it is written

## Main results

* `blobsIntact_of_writesUndisturbed` — undisturbed writes keep every blob intact
-/

namespace SafeHub

open PlainWrite Run

/-- Where a put stands. -/
inductive PutPhase
  /-- The digest is computed. -/
  | begun
  /-- No file of that name was there. -/
  | absent
  /-- The file is created, and `written` bytes of it are written. -/
  | writing (written : ℕ)
  /-- The file is written, or one was there. -/
  | stored
  deriving DecidableEq, Repr

/-- How much of the file is written, while it is being written. -/
def PutPhase.written : PutPhase → Option ℕ
  | .writing k => some k
  | _ => none

/-- A put in progress. -/
structure PutCall (D : Type) where
  info : BlobMeta D
  ciphertext : Bytes
  phase : PutPhase

/-- The store's files, the puts in progress, and the ciphertexts of puts that returned. -/
structure BlobServer (D : Type) where
  /-- `blobs/{hex}` -/
  files : BlobId D → Option Bytes
  /-- `blobmeta/{hex}.json` -/
  metas : BlobId D → Option (BlobMeta D)
  puts : ℕ → Option (PutCall D)
  returned : List Bytes

/-- An empty store. -/
def BlobServer.new {D : Type} : BlobServer D := ⟨fun _ => none, fun _ => none, fun _ => none, []⟩

/-- A file-level step. -/
inductive BlobOp (D : Type)
  /-- A put request arrives. -/
  | begin (pid : ℕ) (info : BlobMeta D) (ciphertext : Bytes)
  /-- The put looks whether the file exists. -/
  | check (pid : ℕ)
  /-- The put opens the file for writing, which empties it. -/
  | create (pid : ℕ)
  /-- The put writes the next `n` bytes. -/
  | write (pid n : ℕ)
  /-- The put writes the metadata file and returns the digest. -/
  | finish (pid : ℕ)
  /-- The put returns an error. -/
  | fail (pid : ℕ)
  /-- The server's process stops. -/
  | crash
  /-- A get reads. -/
  | get (id : BlobId D)

section Store

variable {D : Type} [Sha512 D]

/-- The content address of a put's ciphertext. -/
def PutCall.id (call : PutCall D) : BlobId D := Sha512.digest call.ciphertext

/-- What a get returns; the name it reports an unknown blob by is its address in hex. -/
def getBlob (toHex : BlobId D → String) (s : BlobServer D) (id : BlobId D) :
    Except (StorageError D) Bytes :=
  match s.files id with
  | none => .error (.notFound (toHex id))
  | some bytes => .ok bytes

variable [DecidableEq D]

/-- Set where a put stands. -/
def BlobServer.setPhase (s : BlobServer D) (pid : ℕ) (call : PutCall D) (phase : PutPhase) :
    BlobServer D :=
  { s with puts := Function.update s.puts pid (some { call with phase := phase }) }

/-- Replace the bytes of a blob's file. -/
def BlobServer.setFile (s : BlobServer D) (id : BlobId D) (bytes : Bytes) : BlobServer D :=
  { s with files := Function.update s.files id (some bytes) }

/-- One file-level step; `none` where the put does not stand where the step takes it from. -/
def BlobServer.step (s : BlobServer D) : BlobOp D → Option (BlobServer D)
  | .begin pid info ciphertext =>
    -- the store does not trust the id and the size it is given
    let info := { info with id := Sha512.digest ciphertext, size := ciphertext.length }
    if s.puts pid = none then some (s.setPhase pid ⟨info, ciphertext, .begun⟩ .begun) else none
  | .check pid => do
    let call ← s.puts pid
    -- a file of that name counts as stored, whatever is in it
    let phase := if (s.files call.id).isSome then PutPhase.stored else .absent
    if call.phase = .begun then some (s.setPhase pid call phase) else none
  | .create pid => do
    let call ← s.puts pid
    if call.phase = .absent then some ((s.setFile call.id []).setPhase pid call (.writing 0))
    else none
  | .write pid n => do
    let call ← s.puts pid
    let k ← call.phase.written
    let file := writeNext call.ciphertext ((s.files call.id).getD []) k n
    let phase := if call.ciphertext.length ≤ k + n then PutPhase.stored else .writing (k + n)
    some ((s.setFile call.id file).setPhase pid call phase)
  | .finish pid => do
    let call ← s.puts pid
    if call.phase = .stored then
      some {
        files := s.files
        metas := Function.update s.metas call.id (some call.info)
        puts := Function.update s.puts pid none
        returned := call.ciphertext :: s.returned }
    else none
  | .fail pid => do
    let _ ← s.puts pid
    some { s with puts := Function.update s.puts pid none }
  | .crash => some { s with puts := fun _ => none }
  | .get _ => some s

end Store

/-! ### What gets may return -/

section Property

variable {D : Type} [Sha512 D]

/-- The put is writing its blob's file, `k` bytes of it by now. -/
def Writer (s : BlobServer D) (pid : ℕ) (call : PutCall D) (k : ℕ) : Prop :=
  s.puts pid = some call ∧ call.phase = .writing k

/-- A put has created the blob's file and has not written its last byte. -/
def BeingWritten (s : BlobServer D) (id : BlobId D) : Prop :=
  ∃ pid call k, Writer s pid call k ∧ call.id = id

/-- The step does not come between the creation of a blob's file and its last byte. -/
def Undisturbed (s : BlobServer D) : BlobOp D → Prop
  | .get id => ¬ BeingWritten s id
  | .create pid => ∀ call, s.puts pid = some call → s.files call.id = none
  | .fail pid => ∀ call, s.puts pid = some call → call.phase.written = none
  | .crash => ∀ id, ¬ BeingWritten s id
  | _ => True

variable [DecidableEq D]

/-- Every get of the run returns bytes with the digest it asked for or an error, and the
whole blob once a put of it has returned. -/
def BlobsIntact (toHex : BlobId D → String) (ops : List (BlobOp D)) : Prop :=
  ∀ front id back s, ops = front ++ .get id :: back →
    run BlobServer.step BlobServer.new front = some s →
    (∀ bytes, getBlob toHex s id = .ok bytes → Sha512.digest bytes = id) ∧
      ∀ ciphertext ∈ s.returned, Sha512.digest ciphertext = id →
        getBlob toHex s id = .ok ciphertext

/-- Between the creation of a blob's file and its last byte nothing reads it, creates it
again or stops the write. -/
def WritesUndisturbed (ops : List (BlobOp D)) : Prop :=
  ∀ front op back s, ops = front ++ op :: back →
    run BlobServer.step BlobServer.new front = some s → Undisturbed s op

/-- The ciphertexts that are put in a run. -/
def putCiphertexts (ops : List (BlobOp D)) : Set Bytes :=
  {ciphertext | ∃ pid info, BlobOp.begin pid info ciphertext ∈ ops}

end Property

section Preservation

variable {D : Type} [Sha512 D] {cs : Set Bytes} {s t : BlobServer D} {pid : ℕ} {call : PutCall D}

/-- The file a put is writing, the content it will have and how much of it is written. -/
def PutCall.writer (call : PutCall D) : Option (BlobId D × Bytes × ℕ) :=
  call.phase.written.map fun k => (call.id, call.ciphertext, k)

/-- The writers of the store's files. -/
def BlobServer.writers (s : BlobServer D) (pid : ℕ) : Option (BlobId D × Bytes × ℕ) :=
  (s.puts pid).bind PutCall.writer

/-- What a blob's file holds once it is written. -/
def WholeBlob (cs : Set Bytes) (id : BlobId D) (bytes : Bytes) : Prop :=
  bytes ∈ cs ∧ Sha512.digest bytes = id

omit [Sha512 D] in
theorem written_eq_some_iff {phase : PutPhase} {k : ℕ} :
    phase.written = some k ↔ phase = .writing k := by
  cases phase <;> simp [PutPhase.written]

theorem writers_eq_some_iff {name : BlobId D} {content : Bytes} {k : ℕ} :
    s.writers pid = some (name, content, k) ↔
      ∃ call, Writer s pid call k ∧ call.id = name ∧ call.ciphertext = content := by
  simp only [BlobServer.writers, PutCall.writer, Option.bind_eq_some_iff, Option.map_eq_some_iff,
    Prod.mk.injEq, Writer, written_eq_some_iff]
  constructor
  · intro ⟨call, hcall, k', hphase, hid, hcontent, hk⟩
    exact ⟨call, ⟨hcall, hk ▸ hphase⟩, hid, hcontent⟩
  · intro ⟨call, ⟨hcall, hphase⟩, hid, hcontent⟩
    exact ⟨call, hcall, k, hphase, hid, hcontent, rfl⟩

theorem beingWritten_iff {id : BlobId D} :
    BeingWritten s id ↔ ∃ pid content k, s.writers pid = some (id, content, k) := by
  constructor
  · intro ⟨pid, call, k, hwriter, hid⟩
    exact ⟨pid, call.ciphertext, k, writers_eq_some_iff.mpr ⟨call, hwriter, hid, rfl⟩⟩
  · intro ⟨pid, content, k, hwriter⟩
    obtain ⟨call, hwriter, hid, _⟩ := writers_eq_some_iff.mp hwriter
    exact ⟨pid, call, k, hwriter, hid⟩

theorem writers_of_puts (hcall : s.puts pid = some call) : s.writers pid = call.writer := by
  rw [BlobServer.writers, hcall, Option.bind_some]

/-- Replacing a put replaces its writer. -/
theorem writers_of_update {new : Option (PutCall D)}
    (hputs : t.puts = Function.update s.puts pid new) :
    t.writers = Function.update s.writers pid (new.bind PutCall.writer) := by
  ext1 pid'
  rw [BlobServer.writers, hputs]
  by_cases hpid : pid' = pid
  · rw [hpid, Function.update_self, Function.update_self]
  · rw [Function.update_of_ne hpid, Function.update_of_ne hpid, BlobServer.writers]

/-- What holds of the files while writes are undisturbed: a file is whole, or the part that
its only writer has written; puts that are past their write and puts that have returned find
their file. -/
structure FilesWhole (cs : Set Bytes) (s : BlobServer D) : Prop where
  begun : ∀ pid call, s.puts pid = some call → call.ciphertext ∈ cs
  files : Exclusive (WholeBlob cs) s.files s.writers
  stored : ∀ pid call, s.puts pid = some call → call.phase = .stored → (s.files call.id).isSome
  returned : ∀ c ∈ s.returned, c ∈ cs ∧ (s.files (Sha512.digest c)).isSome

theorem filesWhole_new : FilesWhole cs (BlobServer.new : BlobServer D) where
  begun := by intro pid call h; cases h
  files := Exclusive.empty
  stored := by intro pid call h; cases h
  returned := by intro c h; cases h

omit [Sha512 D] in
/-- What holds of all puts but one, and of the one that replaces it, holds of all. -/
theorem forall_puts_of_update {P : PutCall D → Prop} {new : Option (PutCall D)}
    (hputs : t.puts = Function.update s.puts pid new) (hnew : ∀ call ∈ new, P call)
    (hold : ∀ pid call, s.puts pid = some call → P call) :
    ∀ pid call, t.puts pid = some call → P call := by
  rw [hputs]
  exact forall_update hold hnew

/-- A put that is not writing moves on, or ends, and no file changes. -/
theorem FilesWhole.of_update (h : FilesWhole cs s) {new : Option (PutCall D)}
    (hfiles : t.files = s.files) (hputs : t.puts = Function.update s.puts pid new)
    (hold : s.writers pid = none)
    (hnew : ∀ call ∈ new, call.ciphertext ∈ cs ∧ call.writer = none ∧
      (call.phase = .stored → (s.files call.id).isSome))
    (hreturned : ∀ c ∈ t.returned, c ∈ cs ∧ (s.files (Sha512.digest c)).isSome) :
    FilesWhole cs t where
  begun := forall_puts_of_update hputs (fun call hcall => (hnew call hcall).1) h.begun
  files := by
    have hnone : new.bind PutCall.writer = none :=
      Option.bind_eq_none_iff.mpr fun call hcall => (hnew call hcall).2.1
    rw [hfiles, writers_of_update hputs, hnone, ← hold, Function.update_eq_self]
    exact h.files
  stored := by
    rw [hfiles]
    exact forall_puts_of_update hputs (fun call hcall => (hnew call hcall).2.2) h.stored
  returned := by
    rw [hfiles]
    exact hreturned

section Writing

variable [DecidableEq D] {phase : PutPhase} {bytes : Bytes}

omit [Sha512 D] in
theorem files_setFile_self {id : BlobId D} : (s.setFile id bytes).files id = some bytes :=
  Function.update_self _ _ _

omit [Sha512 D] in
theorem isSome_setFile {id id' : BlobId D} (h : (s.files id').isSome) :
    ((s.setFile id bytes).files id').isSome := by
  by_cases hid : id' = id
  · rw [hid, files_setFile_self, Option.isSome_some]
  · have hother : (s.setFile id bytes).files id' = s.files id' := Function.update_of_ne hid _ _
    rwa [hother]

/-- A put changes its file, which stays exclusive. -/
theorem FilesWhole.of_setFile (h : FilesWhole cs s) (hcall : s.puts pid = some call)
    (hfiles : Exclusive (WholeBlob cs) (Function.update s.files call.id (some bytes))
      (Function.update s.writers pid { call with phase := phase }.writer)) :
    FilesWhole cs ((s.setFile call.id bytes).setPhase pid call phase) where
  begun := forall_puts_of_update rfl
    (fun call' hcall' => Option.some_inj.mp hcall' ▸ h.begun pid call hcall) h.begun
  files := by
    rw [writers_of_update rfl]
    exact hfiles
  stored := forall_puts_of_update rfl
    (fun call' hcall' _ => by
      rw [← Option.some_inj.mp hcall']
      exact Option.isSome_of_eq_some (files_setFile_self (s := s)))
    fun pid' call' hcall' hstored => isSome_setFile (h.stored pid' call' hcall' hstored)
  returned := fun c hc => ⟨(h.returned c hc).1, isSome_setFile (h.returned c hc).2⟩

/-- An undisturbed step keeps the files whole. -/
theorem FilesWhole.step (h : FilesWhole cs s) {op : BlobOp D}
    (hcs : ∀ pid info ciphertext, op = .begin pid info ciphertext → ciphertext ∈ cs)
    (hop : Undisturbed s op) (hstep : s.step op = some t) : FilesWhole cs t := by
  cases op with
  | begin pid info ciphertext =>
    simp only [BlobServer.step, Option.ite_none_right_eq_some, Option.some.injEq] at hstep
    obtain ⟨hfree, rfl⟩ := hstep
    -- no file is touched and the new put is no writer yet
    refine h.of_update rfl rfl ?_ ?_ h.returned
    · rw [BlobServer.writers, hfree, Option.bind_none]
    · intro call hcall
      rw [← Option.some_inj.mp hcall]
      exact ⟨hcs pid info ciphertext rfl, rfl, fun hphase => PutPhase.noConfusion hphase⟩
  | check pid =>
    simp only [BlobServer.step, Option.bind_eq_bind, Option.bind_eq_some_iff,
      Option.ite_none_right_eq_some, Option.some.injEq] at hstep
    obtain ⟨call, hcall, hphase, rfl⟩ := hstep
    refine h.of_update rfl rfl ?_ ?_ h.returned
    · rw [writers_of_puts hcall, PutCall.writer, hphase]
      rfl
    · intro call' hcall'
      rw [← Option.some_inj.mp hcall']
      refine ⟨h.begun pid call hcall, ?_, ?_⟩
      · rw [PutCall.writer]
        split_ifs <;> rfl
      · intro hstored
        change (if (s.files call.id).isSome then PutPhase.stored else .absent) = .stored at hstored
        by_contra hnone
        rw [if_neg (by exact hnone)] at hstored
        cases hstored
  | create pid =>
    simp only [BlobServer.step, Option.bind_eq_bind, Option.bind_eq_some_iff,
      Option.ite_none_right_eq_some, Option.some.injEq] at hstep
    obtain ⟨call, hcall, hphase, rfl⟩ := hstep
    have hidle : s.writers pid = none := by
      rw [writers_of_puts hcall, PutCall.writer, hphase]
      rfl
    -- an undisturbed create still finds no file
    exact h.of_setFile hcall (h.files.create hidle (hop call hcall) call.ciphertext)
  | write pid n =>
    simp only [BlobServer.step, Option.bind_eq_bind, Option.bind_eq_some_iff,
      Option.some.injEq] at hstep
    obtain ⟨call, hcall, k, hk, rfl⟩ := hstep
    have hwriter : s.writers pid = some (call.id, call.ciphertext, k) := by
      rw [writers_of_puts hcall, PutCall.writer, hk, Option.map_some]
    apply h.of_setFile hcall
    -- the last bytes make the file whole; until then the put stays its writer
    by_cases hlast : call.ciphertext.length ≤ k + n
    · rw [if_pos hlast]
      exact h.files.finish hwriter hlast ⟨h.begun pid call hcall, rfl⟩
    · rw [if_neg hlast]
      exact h.files.next hwriter (Nat.not_le.mp hlast)
  | finish pid =>
    simp only [BlobServer.step, Option.bind_eq_bind, Option.bind_eq_some_iff,
      Option.ite_none_right_eq_some, Option.some.injEq] at hstep
    obtain ⟨call, hcall, hphase, rfl⟩ := hstep
    -- the put is forgotten, and its receipt is for a file that is there
    refine h.of_update rfl rfl ?_ (fun _ hnone => (by cases hnone)) ?_
    · rw [writers_of_puts hcall, PutCall.writer, hphase]
      rfl
    · intro c hc
      rcases List.mem_cons.mp hc with rfl | hc
      · exact ⟨h.begun pid call hcall, h.stored pid call hcall hphase⟩
      · exact h.returned c hc
  | fail pid =>
    simp only [BlobServer.step, Option.bind_eq_bind, Option.bind_eq_some_iff,
      Option.some.injEq] at hstep
    obtain ⟨call, hcall, rfl⟩ := hstep
    refine h.of_update rfl rfl ?_ (fun _ hnone => (by cases hnone)) h.returned
    -- an undisturbed failure is one of a put that writes nothing
    rw [writers_of_puts hcall, PutCall.writer, hop call hcall, Option.map_none]
  | crash =>
    obtain rfl := Option.some_inj.mp hstep
    -- with nothing being written, forgetting the puts forgets no writer
    have hquiet : s.writers = fun _ => none := by
      ext1 pid
      by_contra hsome
      obtain ⟨⟨id, content, k⟩, hwriter⟩ := Option.ne_none_iff_exists'.mp hsome
      exact hop id (beingWritten_iff.mpr ⟨pid, content, k, hwriter⟩)
    have hfiles := h.files
    rw [hquiet] at hfiles
    exact ⟨fun _ _ hnone => (by cases hnone), hfiles, fun _ _ hnone => (by cases hnone), h.returned⟩
  | get id =>
    obtain rfl := Option.some_inj.mp hstep
    exact h

/-- Undisturbed writes keep the files whole over a run. -/
theorem filesWhole_of_run {ops : List (BlobOp D)}
    (hrun : run BlobServer.step BlobServer.new ops = some s) :
    (∀ pid info ciphertext, .begin pid info ciphertext ∈ ops → ciphertext ∈ cs) →
      WritesUndisturbed ops → FilesWhole cs s := by
  refine run_induction (P := fun ops s => (∀ pid info ciphertext,
    .begin pid info ciphertext ∈ ops → ciphertext ∈ cs) → WritesUndisturbed ops → FilesWhole cs s)
    (fun _ _ => filesWhole_new) ?_ hrun
  intro ops t op u hops ih hstep hcs hcalm
  have hwhole : FilesWhole cs t := by
    apply ih
    · intro pid info ciphertext hmem
      exact hcs pid info ciphertext (List.mem_append_left _ hmem)
    · intro front op' back v heq hfront
      exact hcalm front op' (back ++ [op]) v
        (by rw [heq, List.append_assoc, List.cons_append]) hfront
  apply hwhole.step _ (hcalm ops op [] t rfl hops) hstep
  rintro pid info ciphertext rfl
  exact hcs pid info ciphertext (by simp)

/-- With a collision-free hash on the ciphertexts that are put, every run whose writes are
undisturbed keeps every blob intact: gets return whole blobs or an error, and blobs whose
put has returned. -/
theorem blobsIntact_of_writesUndisturbed {toHex : BlobId D → String} {ops : List (BlobOp D)}
    (hinj : Set.InjOn (Sha512.digest : Bytes → D) (putCiphertexts ops))
    (hcalm : WritesUndisturbed ops) : BlobsIntact toHex ops := by
  intro front id back s heq hrun
  have hwhole : FilesWhole (putCiphertexts ops) s := by
    apply filesWhole_of_run hrun
    · intro pid info ciphertext hmem
      exact ⟨pid, info, by rw [heq]; exact List.mem_append_left _ hmem⟩
    · intro front' op back' v hsplit hfront
      exact hcalm front' op (back' ++ .get id :: back) v
        (by rw [heq, hsplit, List.append_assoc, List.cons_append]) hfront
  have hcalmGet : ¬ BeingWritten s id := hcalm front (.get id) back s heq hrun
  rw [getBlob]
  -- a file that no put is writing is whole, and holds what its name is the digest of
  cases hfile : s.files id with
  | none =>
    refine ⟨fun bytes hok => (by cases hok), fun c hc hid => ?_⟩
    have hsome := (hwhole.returned c hc).2
    rw [hid, hfile] at hsome
    cases hsome
  | some bytes =>
    have hquiet : ¬ ∃ pid content k, s.writers pid = some (id, content, k) :=
      fun hwriter => hcalmGet (beingWritten_iff.mpr hwriter)
    obtain ⟨hmem, hdigest⟩ := hwhole.files.whole_of_unwritten hfile hquiet
    constructor
    · intro bytes' hok
      rw [← Except.ok.inj hok, hdigest]
    · intro c hc hid
      rw [hinj (hwhole.returned c hc).1 hmem (hid.trans hdigest.symm)]

end Writing

end Preservation

section Sample

attribute [local instance] transparentSha512

/-- What the client sends with the sample's blob. -/
def sampleInfo : BlobMeta Bytes := ⟨[], 0, 0, 1, "push"⟩

/-- A put of two bytes stops after the first; a second put of them returns; a get follows. -/
def interruptedPut : List (BlobOp Bytes) :=
  [.begin 0 sampleInfo [1, 2], .check 0, .create 0, .write 0 1, .crash,
    .begin 1 sampleInfo [1, 2], .check 1, .finish 1]

/-- The second put skips the write, because the torn file is there. -/
theorem files_interruptedPut :
    (run BlobServer.step BlobServer.new interruptedPut).map
      (fun s => (s.files [1, 2], s.returned)) = some (some [1], [[1, 2]]) := by
  rfl

/-- After an interrupted put and a put that returned, a get returns a part of the blob. -/
theorem not_blobsIntact_interruptedPut :
    ¬ BlobsIntact (fun _ => "") (interruptedPut ++ [.get ([1, 2] : Bytes)]) := by
  intro h
  obtain ⟨s, hrun, hs⟩ := Option.map_eq_some_iff.mp files_interruptedPut
  obtain ⟨hfile, hreturned⟩ := Prod.mk.inj hs
  have hget := (h interruptedPut [1, 2] [] s rfl hrun).2 [1, 2]
    (by rw [hreturned]; exact List.mem_singleton_self _) rfl
  rw [getBlob, hfile] at hget
  exact absurd (Except.ok.inj hget) (by decide)

/-- Two puts that write at the same time, and a put of the first one's blob again. -/
def pairedPuts : List (BlobOp Bytes) :=
  [.begin 0 sampleInfo [1, 2], .begin 1 sampleInfo [3, 4], .check 0, .check 1, .create 0,
    .create 1, .write 0 1, .write 1 2, .write 0 1, .begin 2 sampleInfo [1, 2], .check 2,
    .finish 2, .finish 1, .finish 0, .get [1, 2], .get [3, 4]]

theorem along_undisturbed_pairedPuts :
    Along BlobServer.step Undisturbed BlobServer.new pairedPuts := by
  refine along_cons rfl trivial (along_cons rfl trivial (along_cons rfl trivial
    (along_cons rfl trivial (along_cons rfl ?_ (along_cons rfl ?_ (along_cons rfl trivial
    (along_cons rfl trivial (along_cons rfl trivial (along_cons rfl trivial
    (along_cons rfl trivial (along_cons rfl trivial (along_cons rfl trivial
    (along_cons rfl trivial (along_cons rfl ?_ (along_cons rfl ?_ trivial)))))))))))))))
  · -- neither file is there when it is created
    intro call _
    rfl
  · intro call hcall
    obtain rfl := Option.some.inj hcall
    rfl
  all_goals
    -- no put is left when the gets come
    rintro ⟨pid, call, k, ⟨hcall, -⟩, -⟩
    by_cases hfirst : pid = 0
    · subst hfirst
      cases hcall
    by_cases hsecond : pid = 1
    · subst hsecond
      cases hcall
    by_cases hthird : pid = 2
    · subst hthird
      cases hcall
    · simp [BlobServer.setPhase, BlobServer.setFile, BlobServer.new, hfirst, hsecond,
        hthird] at hcall

theorem blobsIntact_pairedPuts : BlobsIntact (fun _ => "") pairedPuts :=
  blobsIntact_of_writesUndisturbed Function.injective_id.injOn
    (along_iff.mp along_undisturbed_pairedPuts)

end Sample

end SafeHub
