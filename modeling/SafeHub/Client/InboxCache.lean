import Mathlib.Data.List.Nodup
import SafeHub.Client.Collab
import SafeHub.Lib.FileEdits
import SafeHub.SGit.Command
import SafeHub.Storage.Queue

/-!
# The inbox on a device

A device keeps the messages it could decrypt in a directory, one file for each, and the number of
the last message it has seen in a file beside it. A sync fetches a page of the queue after that
number, writes the messages of the page and then the number. Nothing is written atomically: a sync
that is cut off leaves some files written, one torn, and the number as it was or torn.

## Main definitions

* `InboxFiles`, `syncWrites`, `syncInbox`, `cutSync` — the files, and what a sync writes
* `readInboxCache` — the messages of the directory, in order
* `InboxOp`, `InboxWorld.step` — members send, and a device syncs

## Main results

* `readInboxCache_synced` — enough syncs bring every message, whatever was cut off before
* `readInboxCache_between` — at any time the directory reads in order, without gaps up to the number
-/

namespace SafeHub

open Std (ExtTreeMap)
open Run SGit

/-- `serde_json` on a type that is written as an object. Its text ends with the object, so a part
of it does not parse. -/
class SerdeJson (α : Type) where
  fromSlice : Bytes → Except String α
  toVec : α → Bytes
  toVecPretty : α → Bytes
  fromSlice_toVec : ∀ a, fromSlice (toVec a) = .ok a
  fromSlice_toVecPretty : ∀ a, fromSlice (toVecPretty a) = .ok a
  fromSlice_take : ∀ a n, n < (toVecPretty a).length →
    ∃ e, fromSlice ((toVecPretty a).take n) = .error e

/-- `mls_cursor.json` -/
structure MlsCursor where
  after : UInt64
  deriving DecidableEq, Repr

/-- What a device has on disk of a repository's inbox. -/
structure InboxFiles where
  /-- The files of `inbox`. -/
  messages : ExtTreeMap String Bytes compare
  /-- `mls_cursor.json` -/
  cursor : Option Bytes

/-- A device before its first sync. -/
def InboxFiles.new : InboxFiles := ⟨∅, none⟩

/-- A file that a sync writes. -/
inductive InboxWrite
  | message (name : String) (bytes : Bytes)
  | cursor (bytes : Bytes)
  deriving DecidableEq, Repr

/-- A write of the first `n` bytes. -/
def InboxWrite.torn (n : ℕ) : InboxWrite → InboxWrite
  | .message name bytes => .message name (bytes.take n)
  | .cursor bytes => .cursor (bytes.take n)

def InboxFiles.write (files : InboxFiles) : InboxWrite → InboxFiles
  | .message name bytes => { files with messages := files.messages.insert name bytes }
  | .cursor bytes => { files with cursor := some bytes }

/-! ### File names -/

/-- `{:016}.json` -/
def messageFile (seq : UInt64) : String :=
  String.ofList (seq.toNat.repr.toList.leftpad 16 '0') ++ ".json"

/-- The number in a file's name, and 0 where there is none. -/
def seqOfFile (name : String) : UInt64 :=
  (parseU64 (trimEndMatches ".json".toList name.toList)).getD 0

/-- The order in which the messages are read. -/
def byFile {M : Type} (a b : UInt64 × M) : Prop := a.1 ≤ b.1

instance {M : Type} : DecidableRel (byFile (M := M)) := fun a b =>
  inferInstanceAs (Decidable (a.1 ≤ b.1))

instance {M : Type} : Std.Total (byFile (M := M)) := ⟨fun a b => UInt64.le_total a.1 b.1⟩

instance {M : Type} : IsTrans (UInt64 × M) byFile := ⟨fun _ _ _ => UInt64.le_trans⟩

section Device

variable {M : Type} [SerdeJson M] [SerdeJson MlsCursor] (openCollab : Bytes → Option Bytes)

/-! ### Syncs -/

/-- The number of the last message seen; a file that does not parse counts as none. -/
def loadMlsCursor (files : InboxFiles) : UInt64 :=
  ((files.cursor.bind fun bytes => (SerdeJson.fromSlice bytes).toOption).map
    MlsCursor.after).getD 0

/-- The page of the queue after a number. -/
def fetchPage (queue : List StoredEnvelope) (after : UInt64) : List StoredEnvelope :=
  (queue.filter fun env => after < env.seq).take 100

/-- The largest number of a page, or the one it comes after. -/
def maxSeqAfter (envs : List StoredEnvelope) (after : UInt64) : UInt64 :=
  envs.foldl (fun maxSeq env => max maxSeq env.seq) after

/-- The message in an envelope. Welcome and commit frames do not open. -/
def openedMessage (env : StoredEnvelope) : Option (UInt64 × M) :=
  (openCollab env.payload).bind fun plain =>
    (SerdeJson.fromSlice plain).toOption.map fun msg => (env.seq, msg)

variable (M) in
/-- The messages of a queue that open. -/
def openedMessages (queue : List StoredEnvelope) : List (UInt64 × M) :=
  queue.filterMap (openedMessage openCollab)

def messageWrite (entry : UInt64 × M) : InboxWrite :=
  .message (messageFile entry.1) (SerdeJson.toVecPretty entry.2)

variable (M) in
/-- What a sync writes, one file after the other. -/
def syncWrites (envs : List StoredEnvelope) (after : UInt64) : List InboxWrite :=
  let maxSeq := maxSeqAfter envs after
  (openedMessages M openCollab envs).map messageWrite ++
    if after < maxSeq then [.cursor (SerdeJson.toVecPretty (⟨maxSeq⟩ : MlsCursor))] else []

/-- Fetch a page, decrypt its messages and keep them; the new ones are returned. -/
def InboxFiles.syncInbox (queue : List StoredEnvelope) (files : InboxFiles) :
    List (UInt64 × M) × InboxFiles :=
  let after := loadMlsCursor files
  let envs := fetchPage queue after
  (openedMessages M openCollab envs, (syncWrites M openCollab envs after).foldl .write files)

variable (M) in
/-- A sync that is cut off after some whole files and a part of the next one. -/
def cutSync (queue : List StoredEnvelope) (files : InboxFiles) (whole part : ℕ) : InboxFiles :=
  let after := loadMlsCursor files
  let writes := syncWrites M openCollab (fetchPage queue after) after
  (writes.take whole ++ (writes[whole]?.map (·.torn part)).toList).foldl .write files

/-- All messages of the directory, whose files are listed in any order. -/
def readInboxCache (listing : List (String × Bytes)) : Except String (List (UInt64 × M)) := do
  let entries ← (listing.filter fun file => endsWith ".json" file.1).mapM fun file => do
    let msg ← SerdeJson.fromSlice file.2
    return (seqOfFile file.1, msg)
  return entries.insertionSort byFile

/-! ### Runs -/

/-- The queue of a repository and one device, whose keys stay the same over a run. -/
structure InboxWorld where
  queue : List StoredEnvelope
  files : InboxFiles

/-- A new repository and a new device. -/
def InboxWorld.new : InboxWorld := ⟨[], .new⟩

inductive InboxOp
  /-- A member puts something on the queue. -/
  | enqueue (repo : RepoId) (payload : Bytes) (hint : Option String)
  | sync
  | cutSync (whole part : ℕ)

variable (M) in
/-- One step; an enqueue fails where the numbers are used up. -/
def InboxWorld.step (world : InboxWorld) : InboxOp → Option InboxWorld
  | .enqueue repo payload hint =>
    match nextSeq (D := Digest) (maxSeq (world.queue.map (·.seq))) with
    | .ok seq => some { world with
        queue := world.queue ++ [{ mlsEnqueueEnvelope repo payload hint with seq := seq }] }
    | .error _ => none
  | .sync => some { world with
      files := (InboxFiles.syncInbox (M := M) openCollab world.queue world.files).2 }
  | .cutSync whole part => some { world with
      files := SafeHub.cutSync M openCollab world.queue world.files whole part }

end Device

/-! ### File names -/

theorem endsWith_messageFile (seq : UInt64) : endsWith ".json" (messageFile seq) = true := by
  rw [endsWith, messageFile, String.toList_append]
  exact List.isSuffixOf_iff_suffix.mpr (List.suffix_append _ _)

/-- The number of a message's file is the message's. -/
theorem seqOfFile_messageFile (seq : UInt64) : seqOfFile (messageFile seq) = seq := by
  have hdigits : ∀ c ∈ seq.toNat.repr.toList.leftpad 16 '0', c.isDigit = true := by
    intro c hc
    rcases List.mem_append.mp hc with hzero | hdigit
    · rw [List.eq_of_mem_replicate hzero]
      rfl
    · rw [Nat.toList_repr] at hdigit
      exact Nat.isDigit_of_mem_toDigits (by decide) (by decide) hdigit
  have htrim : trimEndMatches ".json".toList (seq.toNat.repr.toList.leftpad 16 '0') =
      seq.toNat.repr.toList.leftpad 16 '0' := by
    rw [trimEndMatches, if_neg]
    rintro ⟨-, hsuffix⟩
    have hn := (List.isSuffixOf_iff_suffix.mp hsuffix).subset (by decide : 'n' ∈ ".json".toList)
    exact absurd (hdigits 'n' hn) (by decide)
  have hvalue : Nat.ofDigitChars 10 (seq.toNat.repr.toList.leftpad 16 '0') 0 = seq.toNat := by
    rw [List.leftpad, Nat.ofDigitChars_append, Nat.ofDigitChars_replicate_zero, Nat.mul_zero,
      Nat.toList_repr, Nat.ofDigitChars_ten_toDigits]
  have hne : seq.toNat.repr.toList.leftpad 16 '0' ≠ [] := by
    rw [← List.length_pos_iff, List.length_leftpad]
    omega
  have hsign : ∀ digits, seq.toNat.repr.toList.leftpad 16 '0' ≠ '+' :: digits := by
    intro digits hplus
    have hdigit := hdigits '+' (by rw [hplus]; exact List.mem_cons_self)
    cases hdigit
  have hparse : parseU64 (seq.toNat.repr.toList.leftpad 16 '0') = some seq := by
    generalize seq.toNat.repr.toList.leftpad 16 '0' = digits at *
    rw [parseU64]
    · rw [hvalue, UInt64.ofNat_toNat]
      exact if_pos ⟨hne, List.all_eq_true.mpr hdigits, seq.toNat_lt⟩
    · exact hsign
  have hname : (messageFile seq).toList =
      seq.toNat.repr.toList.leftpad 16 '0' ++ ".json".toList := by
    rw [messageFile, String.toList_append,
      @String.toList_ofList (seq.toNat.repr.toList.leftpad 16 '0')]
  rw [seqOfFile, hname, trimEndMatches, if_pos, List.length_append, Nat.add_sub_cancel,
    List.take_left, htrim, hparse]
  · rfl
  · exact ⟨by decide, List.isSuffixOf_iff_suffix.mpr (List.suffix_append _ _)⟩

theorem messageFile_inj {seq seq' : UInt64} : messageFile seq = messageFile seq' ↔ seq = seq' :=
  ⟨fun h => by rw [← seqOfFile_messageFile seq, h, seqOfFile_messageFile], congrArg _⟩

/-! ### The queue -/

/-- The messages are in the order of their numbers, from 1 on. -/
structure InOrder (queue : List StoredEnvelope) : Prop where
  ascending : queue.Pairwise fun a b => a.seq < b.seq
  positive : ∀ env ∈ queue, 0 < env.seq

theorem InOrder.nil : InOrder [] := ⟨.nil, nofun⟩

theorem seq_le_maxSeq {names : List UInt64} {seq : UInt64} (h : seq ∈ names) : seq ≤ maxSeq names :=
  le_foldl_max_word (.inr h)

/-- A number after the largest one is larger than all. -/
theorem InOrder.enqueue {queue : List StoredEnvelope} (h : InOrder queue) {env : StoredEnvelope}
    (hseq : nextSeq (D := Digest) (maxSeq (queue.map (·.seq))) = .ok env.seq) :
    InOrder (queue ++ [env]) := by
  have hnext : env.seq.toNat = (maxSeq (queue.map (·.seq))).toNat + 1 := by
    rw [nextSeq] at hseq
    split at hseq
    · next hlt =>
      rw [← Except.ok.inj hseq, UInt64.toNat_add]
      exact Nat.mod_eq_of_lt hlt
    · cases hseq
  refine ⟨List.pairwise_append.mpr ⟨h.ascending, List.pairwise_singleton _ _, ?_⟩, ?_⟩
  · intro earlier hmem later hlater
    obtain rfl := List.mem_singleton.mp hlater
    have hle : earlier.seq ≤ maxSeq (queue.map (·.seq)) := seq_le_maxSeq (List.mem_map_of_mem hmem)
    rw [UInt64.le_iff_toNat_le] at hle
    rw [UInt64.lt_iff_toNat_lt]
    omega
  · intro later hlater
    rcases List.mem_append.mp hlater with hmem | hlast
    · exact h.positive later hmem
    · rw [List.mem_singleton.mp hlast, UInt64.lt_iff_toNat_lt, hnext]
      exact Nat.succ_pos _

theorem maxSeqAfter_lt {envs : List StoredEnvelope} {after bound : UInt64} (hafter : after < bound)
    (henvs : ∀ env ∈ envs, env.seq < bound) : maxSeqAfter envs after < bound := by
  induction envs generalizing after with
  | nil => exact hafter
  | cons env envs ih =>
    obtain ⟨henv, hrest⟩ := List.forall_mem_cons.mp henvs
    refine ih ?_ hrest
    change (if after ≤ env.seq then env.seq else after) < bound
    split
    · exact henv
    · exact hafter

theorem le_maxSeqAfter (envs : List StoredEnvelope) (after : UInt64) :
    after ≤ maxSeqAfter envs after ∧ ∀ env ∈ envs, env.seq ≤ maxSeqAfter envs after := by
  have hfold : maxSeqAfter envs after = (envs.map (·.seq)).foldl max after := List.foldl_map.symm
  rw [hfold]
  exact ⟨le_foldl_max_word (.inl UInt64.le_rfl), fun env hmem =>
    le_foldl_max_word (.inr (List.mem_map_of_mem hmem))⟩

section Pages

variable {queue : List StoredEnvelope} {after : UInt64} {env : StoredEnvelope}

theorem mem_fetchPage (h : env ∈ fetchPage queue after) : env ∈ queue ∧ after < env.seq := by
  obtain ⟨hmem, hafter⟩ := List.mem_filter.mp (List.mem_of_mem_take h)
  exact ⟨hmem, by simpa using hafter⟩

/-- What comes after a page has larger numbers. -/
theorem InOrder.lt_of_mem_drop (h : InOrder queue)
    (hmem : env ∈ (queue.filter fun env => after < env.seq).drop 100) :
    maxSeqAfter (fetchPage queue after) after < env.seq := by
  have hsorted := h.ascending.filter (fun env => after < env.seq)
  rw [← List.take_append_drop 100 (queue.filter _), List.pairwise_append] at hsorted
  refine maxSeqAfter_lt ?_ fun earlier hearlier => hsorted.2.2 earlier hearlier env hmem
  exact by simpa using (List.mem_filter.mp (List.mem_of_mem_drop hmem)).2

/-- The queue after the last number of a page is the rest of the queue. -/
theorem InOrder.filter_after_page (h : InOrder queue) :
    (queue.filter fun env => maxSeqAfter (fetchPage queue after) after < env.seq) =
      (queue.filter fun env => after < env.seq).drop 100 := by
  obtain ⟨hafter, hpage⟩ := le_maxSeqAfter (fetchPage queue after) after
  have hlater := fun env => @InOrder.lt_of_mem_drop queue after env h
  rw [fetchPage] at *
  generalize maxSeqAfter ((queue.filter fun env => after < env.seq).take 100) after = maxSeq at *
  -- no number of the page is past it, and every later one is
  have hsplit : (queue.filter fun env => maxSeq < env.seq) =
      (queue.filter fun env => after < env.seq).filter fun env => maxSeq < env.seq := by
    rw [List.filter_filter]
    refine List.filter_congr fun env _ => ?_
    have himp : maxSeq < env.seq → after < env.seq := UInt64.lt_of_le_of_lt hafter
    grind
  rw [hsplit]
  generalize (queue.filter fun env => after < env.seq) = pending at *
  have hfront : (pending.take 100).filter (fun env => maxSeq < env.seq) = [] :=
    List.filter_eq_nil_iff.mpr fun env hmem => by simpa using hpage env hmem
  have hback : (pending.drop 100).filter (fun env => maxSeq < env.seq) = pending.drop 100 :=
    List.filter_eq_self.mpr fun env hmem => by simpa using hlater env hmem
  calc pending.filter (fun env => maxSeq < env.seq)
      = (pending.take 100 ++ pending.drop 100).filter (fun env => maxSeq < env.seq) := by
        rw [List.take_append_drop]
    _ = pending.drop 100 := by rw [List.filter_append, hfront, hback, List.nil_append]

/-- A page is what the server's directory gives, where no enqueue is at work. -/
theorem fetchQueue_eq_fetchPage [EnvelopeCodec] {s : QueueServer} (h : s.MessagesWhole)
    (hquiet : ∀ seq, after < seq → ¬ s.BeingWritten seq) {listing : List (UInt64 × Bytes)}
    (hlisting : listing.Perm s.dir.toList) :
    fetchQueue listing after 100 =
      .ok (fetchPage (s.delivered.insertionSort byDelivery) after) := by
  obtain ⟨all, hperm, hsorted, hfetch⟩ := h.fetchQueue 100 hquiet hlisting
  have hdelivered :=
    (List.perm_insertionSort byDelivery s.delivered).filter fun env => after < env.seq
  have hall : all = (s.delivered.insertionSort byDelivery).filter fun env => after < env.seq := by
    refine (hperm.trans hdelivered.symm).eq_of_pairwise ?_
      (hsorted.imp fun hlt => UInt64.le_of_lt hlt)
      ((List.pairwise_insertionSort byDelivery s.delivered).filter _)
    intro a b ha hb hle hle'
    have hnodup : (all.map (·.seq)).Nodup :=
      List.pairwise_map.mpr (hsorted.imp fun hlt => UInt64.ne_of_lt hlt)
    exact List.inj_on_of_nodup_map hnodup ha ((hperm.trans hdelivered.symm).mem_iff.mpr hb)
      (UInt64.le_antisymm hle hle')
  rw [hfetch, hall, fetchPage]

end Pages

/-! ### What the files hold -/

section Mirror

variable {M : Type} [SerdeJson M] [SerdeJson MlsCursor] {openCollab : Bytes → Option Bytes}
  {queue : List StoredEnvelope} {files : InboxFiles} {entry other : UInt64 × M}

omit [SerdeJson MlsCursor] in
theorem fst_openedMessage {env : StoredEnvelope} (h : openedMessage openCollab env = some entry) :
    entry.1 = env.seq := by
  obtain ⟨plain, -, hmap⟩ := Option.bind_eq_some_iff.mp h
  obtain ⟨msg, -, rfl⟩ := Option.map_eq_some_iff.mp hmap
  rfl

omit [SerdeJson MlsCursor] in
theorem mem_openedMessages : entry ∈ openedMessages M openCollab queue ↔
    ∃ env ∈ queue, openedMessage openCollab env = some entry :=
  List.mem_filterMap

omit [SerdeJson MlsCursor] in
/-- The messages that open are in the order of their numbers. -/
theorem InOrder.openedMessages (h : InOrder queue) :
    (openedMessages M openCollab queue).Pairwise fun a b => a.1 < b.1 := by
  refine h.ascending.filterMap _ fun env env' hlt entry hentry entry' hentry' => ?_
  rwa [fst_openedMessage hentry, fst_openedMessage hentry']

omit [SerdeJson MlsCursor] in
theorem InOrder.eq_of_fst_eq (h : InOrder queue)
    (hentry : entry ∈ SafeHub.openedMessages M openCollab queue)
    (hother : other ∈ SafeHub.openedMessages M openCollab queue) (heq : entry.1 = other.1) :
    entry = other := by
  have hnodup : ((SafeHub.openedMessages M openCollab queue).map Prod.fst).Nodup :=
    List.pairwise_map.mpr (h.openedMessages.imp fun hlt => UInt64.ne_of_lt hlt)
  exact List.inj_on_of_nodup_map hnodup hentry hother heq

variable (M openCollab) in
/-- The messages up to the number are there, and every file is a message of the queue, whole or
in part. -/
structure Mirrors (queue : List StoredEnvelope) (files : InboxFiles) : Prop where
  ordered : InOrder queue
  seen : ∀ bound, 0 < bound → (∀ env ∈ queue, env.seq < bound) → loadMlsCursor files < bound
  whole : ∀ entry ∈ openedMessages M openCollab queue, entry.1 ≤ loadMlsCursor files →
    files.messages[messageFile entry.1]? = some (SerdeJson.toVecPretty entry.2)
  part : ∀ name bytes, files.messages[name]? = some bytes →
    ∃ entry ∈ openedMessages M openCollab queue, ∃ n,
      name = messageFile entry.1 ∧ bytes = (SerdeJson.toVecPretty entry.2).take n

theorem Mirrors.new : Mirrors M openCollab [] .new where
  ordered := .nil
  seen := fun _ hpos _ => hpos
  whole := nofun
  part := by
    intro name bytes h
    simp [InboxFiles.new] at h

/-- The queue grows by a message that no device has seen. -/
theorem Mirrors.enqueue (h : Mirrors M openCollab queue files) {env : StoredEnvelope}
    (hordered : InOrder (queue ++ [env])) : Mirrors M openCollab (queue ++ [env]) files where
  ordered := hordered
  seen := fun bound hpos hbound => h.seen bound hpos fun earlier hmem =>
    hbound earlier (List.mem_append_left _ hmem)
  whole := by
    intro entry hentry hle
    have hlast := hordered.ascending
    rw [List.pairwise_append] at hlast
    have hcursor : loadMlsCursor files < env.seq :=
      h.seen env.seq (hordered.positive env (List.mem_append_right _ (List.mem_singleton_self _)))
        fun earlier hmem => hlast.2.2 earlier hmem env (List.mem_singleton_self _)
    obtain ⟨earlier, hmem, hopen⟩ := mem_openedMessages.mp hentry
    rcases List.mem_append.mp hmem with hmem | hlast
    · exact h.whole entry (mem_openedMessages.mpr ⟨earlier, hmem, hopen⟩) hle
    · rw [fst_openedMessage hopen, List.mem_singleton.mp hlast] at hle
      exact absurd (UInt64.lt_of_lt_of_le hcursor hle) (UInt64.lt_irrefl _)
  part := by
    intro name bytes hfile
    obtain ⟨entry, hentry, hpart⟩ := h.part name bytes hfile
    obtain ⟨earlier, hmem, hopen⟩ := mem_openedMessages.mp hentry
    exact ⟨entry, mem_openedMessages.mpr ⟨earlier, List.mem_append_left _ hmem, hopen⟩, hpart⟩

/-- A part of a message past the number is written. -/
theorem Mirrors.write_message (h : Mirrors M openCollab queue files)
    (hentry : entry ∈ openedMessages M openCollab queue) (hpast : loadMlsCursor files < entry.1)
    (n : ℕ) : Mirrors M openCollab queue (files.write ((messageWrite entry).torn n)) where
  ordered := h.ordered
  seen := h.seen
  whole := by
    intro other hother hle
    have hne : messageFile other.1 ≠ messageFile entry.1 := by
      rw [Ne, messageFile_inj]
      rintro heq
      exact absurd (UInt64.lt_of_lt_of_le hpast (heq ▸ hle)) (UInt64.lt_irrefl _)
    exact (TreeMaps.getElem?_insert_of_ne hne).trans (h.whole other hother hle)
  part := by
    intro name bytes hfile
    rcases eq_or_ne name (messageFile entry.1) with rfl | hne
    · obtain rfl := Option.some.inj (ExtTreeMap.getElem?_insert_self.symm.trans hfile)
      exact ⟨entry, hentry, n, rfl, rfl⟩
    · exact h.part name bytes ((TreeMaps.getElem?_insert_of_ne hne).symm.trans hfile)

omit [SerdeJson MlsCursor] in
theorem torn_length_messageWrite (entry : UInt64 × M) :
    (messageWrite entry).torn (SerdeJson.toVecPretty entry.2).length = messageWrite entry := by
  rw [messageWrite, InboxWrite.torn, List.take_length]

/-- Messages past the number are written, one after the other. -/
theorem Mirrors.write_messages {entries : List (UInt64 × M)} (h : Mirrors M openCollab queue files)
    (hentries : ∀ entry ∈ entries, entry ∈ openedMessages M openCollab queue ∧
      loadMlsCursor files < entry.1) :
    Mirrors M openCollab queue ((entries.map messageWrite).foldl .write files) ∧
      ((entries.map messageWrite).foldl .write files).cursor = files.cursor := by
  induction entries generalizing files with
  | nil => exact ⟨h, rfl⟩
  | cons entry entries ih =>
    obtain ⟨⟨hentry, hpast⟩, hrest⟩ := List.forall_mem_cons.mp hentries
    have hwrite := h.write_message hentry hpast (SerdeJson.toVecPretty entry.2).length
    rw [torn_length_messageWrite] at hwrite
    exact ih hwrite hrest

omit [SerdeJson MlsCursor] in
/-- What was whole stays so, and what is written is whole. -/
theorem Mirrors.whole_write_messages {entries : List (UInt64 × M)} (hordered : InOrder queue)
    (hentries : ∀ entry ∈ entries, entry ∈ openedMessages M openCollab queue)
    (hother : other ∈ openedMessages M openCollab queue)
    (h : files.messages[messageFile other.1]? = some (SerdeJson.toVecPretty other.2) ∨
      other ∈ entries) :
    ((entries.map messageWrite).foldl .write files).messages[messageFile other.1]? =
      some (SerdeJson.toVecPretty other.2) := by
  induction entries generalizing files with
  | nil => exact h.resolve_right List.not_mem_nil
  | cons entry entries ih =>
    obtain ⟨hentry, hrest⟩ := List.forall_mem_cons.mp hentries
    refine ih hrest ?_
    rcases eq_or_ne other entry with rfl | hne
    · exact .inl ExtTreeMap.getElem?_insert_self
    · have hname : messageFile other.1 ≠ messageFile entry.1 := by
        rw [Ne, messageFile_inj]
        exact fun heq => hne (hordered.eq_of_fst_eq hother hentry heq)
      rcases h with hfile | hmem
      · exact .inl ((TreeMaps.getElem?_insert_of_ne hname).trans hfile)
      · exact .inr ((List.mem_cons.mp hmem).resolve_left hne)

/-- The number that is read from a part of a cursor file. -/
theorem loadMlsCursor_torn (files : InboxFiles) (seq : UInt64) (n : ℕ) :
    loadMlsCursor
        (files.write ((InboxWrite.cursor (SerdeJson.toVecPretty (⟨seq⟩ : MlsCursor))).torn n)) =
      if n < (SerdeJson.toVecPretty (⟨seq⟩ : MlsCursor)).length then 0 else seq := by
  rw [loadMlsCursor, InboxWrite.torn, InboxFiles.write, Option.bind_some]
  split
  · next hn =>
    obtain ⟨e, he⟩ := SerdeJson.fromSlice_take (⟨seq⟩ : MlsCursor) n hn
    rw [he]
    rfl
  · next hn =>
    rw [List.take_of_length_le (Nat.le_of_not_lt hn), SerdeJson.fromSlice_toVecPretty]
    rfl

/-- The number is written, whole or in part, after the messages up to it. -/
theorem Mirrors.write_cursor (h : Mirrors M openCollab queue files) {seq : UInt64}
    (hseen : ∀ bound, 0 < bound → (∀ env ∈ queue, env.seq < bound) → seq < bound)
    (hwhole : ∀ entry ∈ openedMessages M openCollab queue, entry.1 ≤ seq →
      files.messages[messageFile entry.1]? = some (SerdeJson.toVecPretty entry.2)) (n : ℕ) :
    Mirrors M openCollab queue
      (files.write ((InboxWrite.cursor (SerdeJson.toVecPretty (⟨seq⟩ : MlsCursor))).torn n)) where
  ordered := h.ordered
  seen := by
    intro bound hpos hbound
    rw [loadMlsCursor_torn]
    split
    · exact hpos
    · exact hseen bound hpos hbound
  whole := by
    intro entry hentry hle
    rw [loadMlsCursor_torn] at hle
    split at hle
    · -- a torn file reads as 0, and no message has that number
      obtain ⟨env, hmem, hopen⟩ := mem_openedMessages.mp hentry
      rw [fst_openedMessage hopen] at hle
      exact absurd (UInt64.lt_of_lt_of_le (h.ordered.positive env hmem) hle) (UInt64.lt_irrefl _)
    · exact hwhole entry hentry hle
  part := h.part

end Mirror

/-! ### Runs -/

section Syncs

variable {M : Type} [SerdeJson M] [SerdeJson MlsCursor] {openCollab : Bytes → Option Bytes}
  {queue : List StoredEnvelope} {files : InboxFiles} {entry : UInt64 × M} {after : UInt64}

omit [SerdeJson MlsCursor] in
theorem mem_openedMessages_fetchPage
    (h : entry ∈ openedMessages M openCollab (fetchPage queue after)) :
    entry ∈ openedMessages M openCollab queue ∧ after < entry.1 := by
  obtain ⟨env, hmem, hopen⟩ := mem_openedMessages.mp h
  obtain ⟨hmem, hafter⟩ := mem_fetchPage hmem
  exact ⟨mem_openedMessages.mpr ⟨env, hmem, hopen⟩, fst_openedMessage hopen ▸ hafter⟩

omit [SerdeJson MlsCursor] in
/-- A page leaves out no message up to its last number. -/
theorem InOrder.mem_page (h : InOrder queue)
    (hentry : entry ∈ SafeHub.openedMessages M openCollab queue)
    (hpast : after < entry.1) (hle : entry.1 ≤ maxSeqAfter (fetchPage queue after) after) :
    entry ∈ SafeHub.openedMessages M openCollab (fetchPage queue after) := by
  obtain ⟨env, hmem, hopen⟩ := mem_openedMessages.mp hentry
  rw [fst_openedMessage hopen] at hpast hle
  refine mem_openedMessages.mpr ⟨env, ?_, hopen⟩
  have hpending : env ∈ queue.filter fun env => after < env.seq :=
    List.mem_filter.mpr ⟨hmem, by simpa using hpast⟩
  rw [← List.take_append_drop 100 (queue.filter _)] at hpending
  refine (List.mem_append.mp hpending).resolve_right fun hdrop => ?_
  exact absurd (UInt64.lt_of_lt_of_le (h.lt_of_mem_drop hdrop) hle) (UInt64.lt_irrefl _)

/-- When a page is written, all messages up to its last number are. -/
theorem Mirrors.whole_page (h : Mirrors M openCollab queue files)
    (hentry : entry ∈ openedMessages M openCollab queue)
    (hle : entry.1 ≤ maxSeqAfter (fetchPage queue (loadMlsCursor files)) (loadMlsCursor files)) :
    (((openedMessages M openCollab (fetchPage queue (loadMlsCursor files))).map
      messageWrite).foldl .write files).messages[messageFile entry.1]? =
        some (SerdeJson.toVecPretty entry.2) := by
  refine Mirrors.whole_write_messages h.ordered
    (fun other hother => (mem_openedMessages_fetchPage hother).1) hentry ?_
  by_cases hpast : loadMlsCursor files < entry.1
  · exact .inr (h.ordered.mem_page hentry hpast hle)
  · exact .inl (h.whole entry hentry (UInt64.not_lt.mp hpast))

theorem Mirrors.write_page (h : Mirrors M openCollab queue files) :
    Mirrors M openCollab queue (((openedMessages M openCollab (fetchPage queue
      (loadMlsCursor files))).map messageWrite).foldl .write files) :=
  (h.write_messages fun _ hentry => mem_openedMessages_fetchPage hentry).1

/-- A page and a part of the number. -/
theorem Mirrors.write_page_cursor (h : Mirrors M openCollab queue files) (n : ℕ) :
    Mirrors M openCollab queue ((((openedMessages M openCollab (fetchPage queue
      (loadMlsCursor files))).map messageWrite).foldl .write files).write
        ((InboxWrite.cursor (SerdeJson.toVecPretty (⟨maxSeqAfter (fetchPage queue
          (loadMlsCursor files)) (loadMlsCursor files)⟩ : MlsCursor))).torn n)) :=
  h.write_page.write_cursor
    (fun bound hpos hbound => maxSeqAfter_lt (h.seen bound hpos hbound) fun env hmem =>
      hbound env (mem_fetchPage hmem).1)
    (fun _ hentry hle => h.whole_page hentry hle) n

theorem torn_length_cursor (seq : UInt64) :
    (InboxWrite.cursor (SerdeJson.toVecPretty (⟨seq⟩ : MlsCursor))).torn
      (SerdeJson.toVecPretty (⟨seq⟩ : MlsCursor)).length =
        .cursor (SerdeJson.toVecPretty (⟨seq⟩ : MlsCursor)) := by
  rw [InboxWrite.torn, List.take_length]

theorem Mirrors.syncInbox (h : Mirrors M openCollab queue files) :
    Mirrors M openCollab queue (InboxFiles.syncInbox (M := M) openCollab queue files).2 := by
  rw [InboxFiles.syncInbox, syncWrites, List.foldl_append]
  dsimp only
  split
  · have hwrite := h.write_page_cursor (SerdeJson.toVecPretty (⟨maxSeqAfter (fetchPage queue
      (loadMlsCursor files)) (loadMlsCursor files)⟩ : MlsCursor)).length
    rwa [torn_length_cursor] at hwrite
  · exact h.write_page

/-- Wherever a sync is cut off, no message up to the number is missing. -/
theorem Mirrors.cutSync (h : Mirrors M openCollab queue files) (whole part : ℕ) :
    Mirrors M openCollab queue (cutSync M openCollab queue files whole part) := by
  have hpage := fun entry (hentry : entry ∈ openedMessages M openCollab (fetchPage queue
    (loadMlsCursor files))) => mem_openedMessages_fetchPage hentry
  have hcursor := h.write_page_cursor
  have hmessages := h.write_page
  rw [SafeHub.cutSync, syncWrites]
  generalize openedMessages M openCollab (fetchPage queue (loadMlsCursor files)) = entries at *
  generalize maxSeqAfter (fetchPage queue (loadMlsCursor files)) (loadMlsCursor files) = maxSeq at *
  rcases lt_or_ge whole entries.length with hlt | hge
  · -- in the middle of the messages
    have hlength : whole < (entries.map messageWrite).length := by rwa [List.length_map]
    rw [List.take_append_of_le_length hlength.le, List.getElem?_append_left hlength,
      List.getElem?_map, List.getElem?_eq_getElem hlt, List.foldl_append, ← List.map_take]
    obtain ⟨hfront, hsame⟩ := h.write_messages fun entry hentry =>
      hpage entry (List.mem_of_mem_take hentry)
    obtain ⟨hentry, hpast⟩ := hpage entries[whole] (List.getElem_mem hlt)
    refine hfront.write_message hentry ?_ part
    rwa [loadMlsCursor, hsame]
  · -- after the messages
    have hlength : (entries.map messageWrite).length ≤ whole := by rwa [List.length_map]
    rw [List.take_append, List.take_of_length_le hlength, List.getElem?_append_right hlength,
      List.append_assoc, List.foldl_append]
    generalize whole - (entries.map messageWrite).length = rest
    split
    · cases rest with
      | zero => exact hcursor part
      | succ rest =>
        have hwrite := hcursor (SerdeJson.toVecPretty (⟨maxSeq⟩ : MlsCursor)).length
        rw [torn_length_cursor] at hwrite
        simpa using hwrite
    · simpa using hmessages

/-- What is still to be fetched after a sync. -/
theorem Mirrors.pending_syncInbox (h : Mirrors M openCollab queue files) :
    (queue.filter fun env =>
        loadMlsCursor (InboxFiles.syncInbox (M := M) openCollab queue files).2 < env.seq) =
      (queue.filter fun env => loadMlsCursor files < env.seq).drop 100 := by
  have hrest := @InOrder.filter_after_page queue (loadMlsCursor files) h.ordered
  obtain ⟨hle, -⟩ := le_maxSeqAfter (fetchPage queue (loadMlsCursor files)) (loadMlsCursor files)
  have hsame : ∀ written : InboxFiles, written.cursor = files.cursor →
      loadMlsCursor written = loadMlsCursor files := fun written heq => by
    rw [loadMlsCursor, heq, loadMlsCursor]
  obtain ⟨-, hcursor⟩ := h.write_messages fun _ hentry =>
    mem_openedMessages_fetchPage hentry
  rw [← hrest, InboxFiles.syncInbox, syncWrites, List.foldl_append]
  dsimp only
  generalize maxSeqAfter (fetchPage queue (loadMlsCursor files)) (loadMlsCursor files) = maxSeq at *
  split
  · have hload := loadMlsCursor_torn (((openedMessages M openCollab (fetchPage queue
      (loadMlsCursor files))).map messageWrite).foldl .write files) maxSeq
      (SerdeJson.toVecPretty (⟨maxSeq⟩ : MlsCursor)).length
    rw [torn_length_cursor, if_neg (Nat.lt_irrefl _)] at hload
    rw [List.foldl_cons, List.foldl_nil, hload]
  · next hlt =>
    have heq : maxSeq = loadMlsCursor files :=
      UInt64.le_antisymm (UInt64.not_lt.mp hlt) hle
    rw [List.foldl_nil, heq, hsame _ hcursor]

end Syncs

section Reads

variable {M : Type} [SerdeJson M] [SerdeJson MlsCursor] {openCollab : Bytes → Option Bytes}
  {queue : List StoredEnvelope} {files : InboxFiles} {world : InboxWorld} {ops : List InboxOp}
  {listing : List (String × Bytes)} {entries : List (UInt64 × M)}

theorem Mirrors.step {next : InboxWorld} (h : Mirrors M openCollab world.queue world.files)
    {op : InboxOp} (hstep : InboxWorld.step M openCollab world op = some next) :
    Mirrors M openCollab next.queue next.files := by
  cases op with
  | enqueue repo payload hint =>
    rw [InboxWorld.step] at hstep
    split at hstep
    · next seq hseq =>
      obtain rfl := Option.some.inj hstep
      exact h.enqueue (h.ordered.enqueue hseq)
    · cases hstep
  | sync =>
    obtain rfl := Option.some.inj hstep
    exact h.syncInbox
  | cutSync whole part =>
    obtain rfl := Option.some.inj hstep
    exact h.cutSync whole part

/-- In every run the files mirror the queue. -/
theorem mirrors_of_run (hrun : run (InboxWorld.step M openCollab) .new ops = some world) :
    Mirrors M openCollab world.queue world.files :=
  run_invariant (P := fun world => Mirrors M openCollab world.queue world.files)
    (fun _ _ _ h hstep => h.step hstep) Mirrors.new hrun

/-- Syncs alone fetch page after page. -/
theorem Mirrors.run_syncs (h : Mirrors M openCollab world.queue world.files) (n : ℕ) :
    ∃ files, run (InboxWorld.step M openCollab) world (List.replicate n .sync) =
        some ⟨world.queue, files⟩ ∧ Mirrors M openCollab world.queue files ∧
      (world.queue.filter fun env => loadMlsCursor files < env.seq) =
        (world.queue.filter fun env => loadMlsCursor world.files < env.seq).drop (100 * n) := by
  induction n generalizing world with
  | zero => exact ⟨world.files, rfl, h, rfl⟩
  | succ n ih =>
    obtain ⟨files, hrun, hfiles, hpending⟩ := @ih
      ⟨world.queue, (InboxFiles.syncInbox (M := M) openCollab world.queue world.files).2⟩
      h.syncInbox
    refine ⟨files, hrun, hfiles, hpending.trans ?_⟩
    rw [h.pending_syncInbox, List.drop_drop]
    congr 1
    omega

/-! ### Reading the directory -/

/-- A message as its file has it. -/
def messageEntryFile (entry : UInt64 × M) : String × Bytes :=
  (messageFile entry.1, SerdeJson.toVecPretty entry.2)

/-- The messages whose files are there. -/
def cachedMessages (openCollab : Bytes → Option Bytes) (queue : List StoredEnvelope)
    (files : InboxFiles) : List (UInt64 × M) :=
  (openedMessages M openCollab queue).filter fun entry =>
    (files.messages[messageFile entry.1]?).isSome

/-- Where all files are whole, they are those of the messages. -/
theorem Mirrors.toList_perm (h : Mirrors M openCollab queue files)
    (hwhole : ∀ entry ∈ openedMessages M openCollab queue, ∀ bytes,
      files.messages[messageFile entry.1]? = some bytes → bytes = SerdeJson.toVecPretty entry.2) :
    files.messages.toList.Perm
      ((cachedMessages openCollab queue files).map (messageEntryFile (M := M))) := by
  have hnodup : ((openedMessages M openCollab queue).map (messageEntryFile (M := M))).Nodup := by
    refine List.pairwise_map.mpr (h.ordered.openedMessages.imp fun hlt heq => ?_)
    exact UInt64.ne_of_lt hlt (messageFile_inj.mp (congrArg Prod.fst heq))
  refine (List.perm_ext_iff_of_nodup TreeMaps.nodup_map_fst_toList.of_map (hnodup.sublist
    (List.filter_sublist.map (messageEntryFile (M := M))))).mpr ?_
  rintro ⟨name, bytes⟩
  rw [ExtTreeMap.mem_toList_iff_getElem?_eq_some, List.mem_map]
  constructor
  · intro hfile
    obtain ⟨entry, hentry, -, rfl, -⟩ := h.part name bytes hfile
    refine ⟨entry, List.mem_filter.mpr ⟨hentry, by rw [hfile]; rfl⟩, ?_⟩
    rw [messageEntryFile, hwhole entry hentry bytes hfile]
  · rintro ⟨entry, hmem, heq⟩
    obtain ⟨hentry, hsome⟩ := List.mem_filter.mp hmem
    obtain ⟨rfl, rfl⟩ := Prod.mk.inj heq
    obtain ⟨bytes, hfile⟩ := Option.isSome_iff_exists.mp hsome
    rw [hfile, hwhole entry hentry bytes hfile]

/-- Whole files are read in the order of the queue. -/
theorem Mirrors.readInboxCache (h : Mirrors M openCollab queue files)
    (hwhole : ∀ entry ∈ openedMessages M openCollab queue, ∀ bytes,
      files.messages[messageFile entry.1]? = some bytes → bytes = SerdeJson.toVecPretty entry.2)
    (hlisting : listing.Perm files.messages.toList) :
    readInboxCache listing = .ok (cachedMessages (M := M) openCollab queue files) := by
  set cached := cachedMessages (M := M) openCollab queue files with hcached
  have hfiles : listing.Perm (cached.map messageEntryFile) := hlisting.trans (h.toList_perm hwhole)
  have hall : listing.filter (fun file => endsWith ".json" file.1) = listing := by
    refine List.filter_eq_self.mpr fun file hmem => ?_
    obtain ⟨entry, -, rfl⟩ := List.mem_map.mp (hfiles.mem_iff.mp hmem)
    exact endsWith_messageFile entry.1
  have hdecoded : List.Forall₂ (fun (file : String × Bytes) (entry : UInt64 × M) =>
      (do let msg ← SerdeJson.fromSlice file.2
          return (seqOfFile file.1, msg)) = Except.ok entry)
      (cached.map messageEntryFile) cached := by
    rw [List.forall₂_map_left_iff, List.forall₂_same]
    intro entry _
    rw [messageEntryFile, SerdeJson.fromSlice_toVecPretty, seqOfFile_messageFile]
    rfl
  obtain ⟨out, hout, hperm⟩ := List.perm_comp_forall₂ hfiles hdecoded
  -- the numbers are distinct, so there is one order
  have hsorted : out.insertionSort byFile = cached := by
    refine ((List.perm_insertionSort byFile out).trans hperm).eq_of_pairwise ?_
      (List.pairwise_insertionSort byFile out) ?_
    · intro a b ha hb hle hle'
      have hsame : a.1 = b.1 := UInt64.le_antisymm hle hle'
      have hmem : ∀ c ∈ cached, c ∈ openedMessages M openCollab queue := fun c hc =>
        (List.mem_filter.mp hc).1
      exact h.ordered.eq_of_fst_eq
        (hmem a (hperm.mem_iff.mp ((List.perm_insertionSort byFile out).mem_iff.mp ha)))
        (hmem b hb) hsame
    · exact (h.ordered.openedMessages.filter _).imp fun hlt => UInt64.le_of_lt hlt
  rw [SafeHub.readInboxCache, hall, mapM_eq_ok_iff.mpr hout]
  exact congrArg Except.ok hsorted

/-- A directory that reads has no torn file. -/
theorem Mirrors.whole_of_readInboxCache (h : Mirrors M openCollab queue files)
    (hlisting : listing.Perm files.messages.toList)
    (hread : SafeHub.readInboxCache listing = .ok entries) :
    ∀ entry ∈ openedMessages M openCollab queue, ∀ bytes,
      files.messages[messageFile entry.1]? = some bytes →
        bytes = SerdeJson.toVecPretty entry.2 := by
  intro entry hentry bytes hfile
  obtain ⟨other, hother, n, hname, rfl⟩ := h.part _ bytes hfile
  obtain rfl := h.ordered.eq_of_fst_eq hentry hother (messageFile_inj.mp hname)
  refine List.take_of_length_le (Nat.le_of_not_lt fun hlt => ?_)
  -- a part of a message does not parse
  obtain ⟨e, he⟩ := SerdeJson.fromSlice_take entry.2 n hlt
  obtain ⟨out, hout, -⟩ := bind_eq_ok_iff.mp hread
  have hmem : (messageFile entry.1, (SerdeJson.toVecPretty entry.2).take n) ∈
      listing.filter fun file => endsWith ".json" file.1 :=
    List.mem_filter.mpr ⟨hlisting.mem_iff.mpr
      (ExtTreeMap.mem_toList_iff_getElem?_eq_some.mpr hfile), endsWith_messageFile entry.1⟩
  obtain ⟨found, hfound⟩ := exists_mapM_eq_ok_iff.mp ⟨out, hout⟩ _ hmem
  rw [he] at hfound
  cases hfound

end Reads

/-! ### The inbox of a device -/

section Inbox

variable {M : Type} [SerdeJson M] [SerdeJson MlsCursor] {openCollab : Bytes → Option Bytes}
  {world synced : InboxWorld} {ops : List InboxOp} {listing : List (String × Bytes)}

/-- Once there is nothing after the number, the directory has every message. -/
theorem Mirrors.readInboxCache_of_seen {queue : List StoredEnvelope} {files : InboxFiles}
    (h : Mirrors M openCollab queue files)
    (hseen : (queue.filter fun env => loadMlsCursor files < env.seq) = [])
    (hlisting : listing.Perm files.messages.toList) :
    SafeHub.readInboxCache listing = .ok (openedMessages M openCollab queue) := by
  have hwhole : ∀ entry ∈ openedMessages M openCollab queue,
      files.messages[messageFile entry.1]? = some (SerdeJson.toVecPretty entry.2) := by
    intro entry hentry
    obtain ⟨env, hmem, hopen⟩ := mem_openedMessages.mp hentry
    have hnot : ¬ loadMlsCursor files < env.seq := by
      simpa using List.filter_eq_nil_iff.mp hseen env hmem
    exact h.whole entry hentry (fst_openedMessage hopen ▸ UInt64.not_lt.mp hnot)
  rw [h.readInboxCache (fun entry hentry bytes hfile =>
    Option.some.inj (hfile.symm.trans (hwhole entry hentry))) hlisting, cachedMessages]
  congr 1
  exact List.filter_eq_self.mpr fun entry hentry => by rw [hwhole entry hentry]; rfl

/-- Each sync sees another page. -/
theorem Mirrors.readInboxCache_of_syncs (h : Mirrors M openCollab world.queue world.files)
    {n : ℕ} (hn : world.queue.length ≤ 100 * n)
    (hsyncs : run (InboxWorld.step M openCollab) world (List.replicate n .sync) = some synced)
    (hlisting : listing.Perm synced.files.messages.toList) :
    SafeHub.readInboxCache listing = .ok (openedMessages M openCollab world.queue) := by
  obtain ⟨files, hrun, hmirrors, hpending⟩ := h.run_syncs n
  obtain rfl := Option.some.inj (hrun.symm.trans hsyncs)
  refine hmirrors.readInboxCache_of_seen ?_ hlisting
  rw [hpending]
  exact List.drop_of_length_le ((List.length_filter_le _ _).trans hn)

/-- After any run, with syncs cut off anywhere, enough whole syncs give every message of the queue
that opens, once and in order. -/
theorem readInboxCache_synced (hrun : run (InboxWorld.step M openCollab) .new ops = some world)
    {n : ℕ} (hn : world.queue.length ≤ 100 * n)
    (hsyncs : run (InboxWorld.step M openCollab) world (List.replicate n .sync) = some synced)
    (hlisting : listing.Perm synced.files.messages.toList) :
    readInboxCache listing = .ok (openedMessages M openCollab world.queue) :=
  (mirrors_of_run hrun).readInboxCache_of_syncs hn hsyncs hlisting

/-- At any time, a directory that reads gives messages of the queue in order, and all of them up to
the number. -/
theorem readInboxCache_between (hrun : run (InboxWorld.step M openCollab) .new ops = some world)
    (hlisting : listing.Perm world.files.messages.toList) {entries : List (UInt64 × M)}
    (hread : readInboxCache listing = .ok entries) :
    entries.Sublist (openedMessages M openCollab world.queue) ∧
      ((openedMessages M openCollab world.queue).filter fun entry =>
        entry.1 ≤ loadMlsCursor world.files).Sublist entries := by
  have hmirrors := mirrors_of_run hrun
  have hcached := hmirrors.readInboxCache (hmirrors.whole_of_readInboxCache hlisting hread) hlisting
  obtain rfl := Except.ok.inj (hcached.symm.trans hread)
  refine ⟨List.filter_sublist, ?_⟩
  rw [cachedMessages]
  have hsame : (openedMessages M openCollab world.queue).filter (fun entry =>
      entry.1 ≤ loadMlsCursor world.files) =
      ((openedMessages M openCollab world.queue).filter fun entry =>
        (world.files.messages[messageFile entry.1]?).isSome).filter fun entry =>
          entry.1 ≤ loadMlsCursor world.files := by
    rw [List.filter_filter]
    refine List.filter_congr fun entry hentry => ?_
    by_cases hle : entry.1 ≤ loadMlsCursor world.files
    · simp [hle, hmirrors.whole entry hentry hle]
    · simp [hle]
  rw [hsame]
  exact List.filter_sublist

end Inbox

/-! ### A sync that is cut off -/

section Sample

open Framing

/-- Codecs stand in for JSON. -/
@[reducible]
def codecJson {α : Type} (codec : FileEdits.Codec α) : SerdeJson α where
  toVec := codec.encode
  toVecPretty := codec.encode
  fromSlice := codec.decode
  fromSlice_toVec := codec.decode_encode
  fromSlice_toVecPretty := codec.decode_encode
  fromSlice_take := codec.decode_take

theorem write_list_ne_nil {α : Type} (code : Code α) (as : List α) : code.list.write as ≠ [] :=
  List.length_pos_iff.mp (Nat.zero_lt_of_lt (code.length_lt_writeList as))

abbrev codedMessage : SerdeJson String :=
  codecJson (.ofCode Code.string fun s => write_list_ne_nil Code.char s.toList)

abbrev codedCursor : SerdeJson MlsCursor :=
  codecJson (.ofCode ((Code.byte.list.through u64BE readU64BE readU64BE_u64BE).through
    MlsCursor.after MlsCursor.mk fun _ => rfl) fun cursor =>
      write_list_ne_nil Code.byte (u64BE cursor.after))

attribute [local instance] codedMessage codedCursor

/-- Sealed messages start with a zero, other frames do not. -/
def openZero : Bytes → Option Bytes
  | 0 :: plain => some plain
  | _ => none

/-- Two messages and a frame; the first sync stops within the second message's file. -/
def cutOffRun : List InboxOp :=
  [.enqueue queueRepo (0 :: Code.string.write "one") none, .enqueue queueRepo [7] none,
    .enqueue queueRepo (0 :: Code.string.write "two") none, .cutSync 1 2]

theorem exists_cutOffRun : ∃ world,
    run (InboxWorld.step String openZero) .new cutOffRun = some world ∧
    world.queue.length = 3 ∧
      openedMessages String openZero world.queue = [(1, "one"), (3, "two")] :=
  ⟨_, rfl, rfl, by decide⟩

theorem readInboxCache_cutOffRun : ∃ synced : InboxWorld,
    (∃ world, run (InboxWorld.step String openZero) .new cutOffRun = some world ∧
      InboxWorld.step String openZero world .sync = some synced) ∧
    readInboxCache synced.files.messages.toList = .ok [((1 : UInt64), "one"), (3, "two")] := by
  obtain ⟨world, hrun, hlength, hopened⟩ := exists_cutOffRun
  refine ⟨_, ⟨world, hrun, rfl⟩, ?_⟩
  rw [← hopened]
  exact readInboxCache_synced hrun (n := 1) (by rw [hlength]; decide) rfl (List.Perm.refl _)

/-- The first sync stops after the first message's file. -/
def stoppedRun : List InboxOp :=
  [.enqueue queueRepo (0 :: Code.string.write "one") none, .enqueue queueRepo [7] none,
    .enqueue queueRepo (0 :: Code.string.write "two") none, .cutSync 0 100]

theorem readInboxCache_messageEntryFile (entry : UInt64 × String) :
    readInboxCache [messageEntryFile entry] = .ok [entry] := by
  rw [readInboxCache, List.filter_singleton, messageEntryFile, endsWith_messageFile, cond_true,
    List.mapM_cons, SerdeJson.fromSlice_toVecPretty, seqOfFile_messageFile]
  rfl

theorem exists_stoppedRun : ∃ world, run (InboxWorld.step String openZero) .new stoppedRun =
    some world ∧ world.files.messages.toList = [messageEntryFile ((1 : UInt64), "one")] :=
  ⟨_, rfl, by decide⟩

theorem readInboxCache_stoppedRun : ∃ world, run (InboxWorld.step String openZero) .new stoppedRun =
    some world ∧ [((1 : UInt64), "one")].Sublist (openedMessages String openZero world.queue) ∧
      ((openedMessages String openZero world.queue).filter fun entry =>
        entry.1 ≤ loadMlsCursor world.files).Sublist [((1 : UInt64), "one")] := by
  obtain ⟨world, hrun, hfiles⟩ := exists_stoppedRun
  refine ⟨world, hrun, readInboxCache_between hrun (List.Perm.refl _) ?_⟩
  rw [hfiles, readInboxCache_messageEntryFile]

end Sample

end SafeHub
