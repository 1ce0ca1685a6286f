import SafeHub.Storage.Error
import SafeHub.Types.Canon
import SafeHub.Client.Error
import Mathlib.Data.List.Induction
import Mathlib.Data.List.Sort
import Mathlib.Data.List.Perm.Basic
import Std.Data.ExtTreeMap.Lemmas

/-!
# The head log on disk

Each repository has a directory with a tip file and one log file per sequence number.
An append checks the tip, writes the log file and then the tip file, each by a temporary
file and a rename; readers consult the tip file and the log files separately. Heads are
read in the canonical encoding, or in the JSON an earlier version wrote.

## Main definitions

* `HeadsDir` — the files of one repository
* `tipOf`, `since` — the readers
* `planAppend`, `casAppend` — the checks and the writes of an append
* `HeadLogInvariant` — the files hold a numbered and linked list of heads

## Main results

* `headLogInvariant_runCalls` — the files hold the accepted heads after any calls
-/

namespace SafeHub

open Std (ExtTreeMap)

/-- JSON of a head, as an earlier version stored it. -/
class LegacyHeads (D : Type) where
  parse : Bytes → Except String (RefHead D)

/-- No head of an earlier version. -/
abbrev noLegacyHeads (D : Type) : LegacyHeads D := ⟨fun _ => .error "expected value"⟩

/-- The files of one repository's head log. -/
structure HeadsDir where
  /-- `tip.bin` -/
  tipBin : Option Bytes
  /-- `tip.json`, of an earlier version -/
  tipJson : Option Bytes
  /-- `log/{seq}.bin` -/
  logBin : ExtTreeMap UInt64 Bytes compare
  /-- `log/{seq}.json`, of an earlier version -/
  logJson : ExtTreeMap UInt64 Bytes compare

/-- A repository without heads. -/
def HeadsDir.empty : HeadsDir := ⟨none, none, ∅, ∅⟩

/-- The log files with their numbers. A directory is read in no particular order. -/
def HeadsDir.entries (dir : HeadsDir) : List (UInt64 × Bytes) :=
  dir.logBin.toList ++ dir.logJson.toList

section Store

variable {D : Type} [Sha512 D] [DigestBytes D] [LegacyHeads D]

/-- Decode a stored head: canonical bytes first, then JSON. -/
def decodeHeadBytes (bytes : Bytes) : Except (StorageError D) (RefHead D) :=
  match decodeRefHead bytes with
  | .ok head => .ok head
  | .error _ =>
    match LegacyHeads.parse bytes with
    | .ok head => .ok head
    | .error e => .error (.other s!"decode RefHead: {e}")

/-- The current tip. -/
def tipOf (dir : HeadsDir) : Except (StorageError D) (Option (RefHead D)) :=
  match dir.tipBin with
  | some bytes => (decodeHeadBytes bytes).map some
  | none =>
    match dir.tipJson with
    | some bytes => (decodeHeadBytes bytes).map some
    | none => .ok none

/-- The order heads are listed in. -/
def bySeq {D : Type} (a b : RefHead D) : Prop := a.seq ≤ b.seq

instance {D : Type} : DecidableRel (bySeq (D := D)) := fun a b =>
  inferInstanceAs (Decidable (a.seq ≤ b.seq))

instance {D : Type} : Std.Total (bySeq (D := D)) := ⟨fun a b => UInt64.le_total a.seq b.seq⟩

instance {D : Type} : IsTrans (RefHead D) bySeq := ⟨fun _ _ _ => UInt64.le_trans⟩

/-- The heads after a sequence number, from the log files as the directory lists them. -/
def since (listing : List (UInt64 × Bytes)) (after : UInt64) :
    Except (StorageError D) (List (RefHead D)) := do
  let out ← (listing.filter fun entry => after < entry.1).mapM fun entry => decodeHeadBytes entry.2
  return out.insertionSort bySeq

/-! ### Appending -/

/-- Canonical bytes of a head; a field of `2 ^ 32` bytes or more panics. -/
def canonicalBytes (head : RefHead D) : Except (StorageError D) Bytes :=
  if head.Encodable then .ok (encodeRefHead head)
  else .error (.panicked "opaque length fits u32")

/-- The sequence number after `seq`; past the last 64-bit number the addition overflows. -/
def nextSeq (seq : UInt64) : Except (StorageError D) UInt64 :=
  if seq.toNat + 1 < 2 ^ 64 then .ok (seq + 1)
  else .error (.panicked "attempt to add with overflow")

/-- The hash an append has to build on. -/
def expectedPrev (current : Option (RefHead D)) : Except (StorageError D) (HeadHash D) :=
  match current with
  | some head => (canonicalBytes head).map Sha512.digest
  | none => .ok Sha512.zero

/-- The sequence check. -/
def checkSeq (current : Option (RefHead D)) (head : RefHead D) : Except (StorageError D) Unit :=
  match current with
  | some cur => do
    let next ← nextSeq cur.seq
    if head.seq ≠ next then .error (.other s!"seq must be {next}, got {head.seq}") else .ok ()
  | none => if head.seq ≠ 1 then .error (.other "genesis seq must be 1") else .ok ()

/-- The compare-and-swap check. -/
def checkPrev [DecidableEq D] (expected : HeadHash D) (head : RefHead D) :
    Except (StorageError D) Unit :=
  if head.prevHeadHash ≠ expected then .error (.casConflict expected) else .ok ()

/-- One atomic change of a repository's files. -/
inductive FileWrite
  /-- Write `log/{seq}.bin` through a temporary file. -/
  | log (seq : UInt64) (body : Bytes)
  /-- Write `tip.bin` through a temporary file. -/
  | tip (body : Bytes)
  /-- Remove `tip.json`. -/
  | dropJson
  deriving DecidableEq, Repr

/-- Apply one change. -/
def HeadsDir.write (dir : HeadsDir) : FileWrite → HeadsDir
  | .log seq body => { dir with logBin := dir.logBin.insert seq body }
  | .tip body => { dir with tipBin := some body }
  | .dropJson => { dir with tipJson := none }

/-- The changes an append makes, in order. -/
def appendWrites (seq : UInt64) (body : Bytes) : List FileWrite :=
  [.log seq body, .tip body, .dropJson]

/-- Check an append; what it returns, and the changes it makes. -/
def planAppend [DecidableEq D] (dir : HeadsDir) (head : RefHead D) :
    Except (StorageError D) (HeadHash D × List FileWrite) := do
  let current ← tipOf dir
  let expected ← expectedPrev current
  checkPrev expected head
  checkSeq current head
  let body ← canonicalBytes head
  return (Sha512.digest body, appendWrites head.seq body)

/-- The head directories of all repositories. -/
abbrev HeadStore := RepoId → HeadsDir

/-- Compare-and-swap append: its result, and the files after it. -/
def casAppend [DecidableEq D] (store : HeadStore) (head : RefHead D) :
    Except (StorageError D) (HeadHash D) × HeadStore :=
  match planAppend (store head.repoId) head with
  | .error e => (.error e, store)
  | .ok (hash, writes) =>
    (.ok hash, Function.update store head.repoId
      (writes.foldl HeadsDir.write (store head.repoId)))

/-! ### What the files hold -/

/-- The hash the next head has to carry as its predecessor. -/
def lastHash (log : List (RefHead D)) : HeadHash D :=
  (log.getLast?.map RefHead.hash).getD Sha512.zero

/-- A list of heads, numbered from one and linked by hash. -/
inductive Chained : List (RefHead D) → Prop
  | nil : Chained []
  | concat {log : List (RefHead D)} {head : RefHead D} : Chained log → head.Encodable →
    head.prevHeadHash = lastHash log → head.seq.toNat = log.length + 1 → Chained (log ++ [head])

/-- The conditions an append has to meet, as the store checks them. -/
def Accepts (log : List (RefHead D)) (head : RefHead D) : Prop :=
  head.Encodable ∧ head.prevHeadHash = lastHash log ∧ head.seq.toNat = log.length + 1

instance [DecidableEq D] (log : List (RefHead D)) (head : RefHead D) :
    Decidable (Accepts log head) :=
  inferInstanceAs (Decidable (_ ∧ _ ∧ _))

/-- The log file of a head. -/
def logEntry (head : RefHead D) : UInt64 × Bytes := (head.seq, encodeRefHead head)

/-- The log files of a directory are those of a list of heads. -/
structure LogHolds (dir : HeadsDir) (log : List (RefHead D)) : Prop where
  logBin : ∀ seq bytes, dir.logBin[seq]? = some bytes ↔ ∃ head ∈ log, logEntry head = (seq, bytes)
  logJson : dir.logJson = ∅

/-- The files of a directory are those of a chained list of heads. -/
structure Holds (dir : HeadsDir) (log : List (RefHead D)) : Prop extends LogHolds dir log where
  chained : Chained log
  tipBin : dir.tipBin = log.getLast?.map encodeRefHead
  tipJson : dir.tipJson = none

end Store

section Chains

variable {D : Type} [Sha512 D] {log : List (RefHead D)} {head : RefHead D}

theorem Chained.encodable (h : Chained log) : ∀ head ∈ log, head.Encodable := by
  induction h with
  | nil => exact fun _ hmem => absurd hmem List.not_mem_nil
  | concat _ hlast _ _ ih =>
    intro head hmem
    rcases List.mem_append.mp hmem with hmem | hmem
    · exact ih head hmem
    · rw [List.mem_singleton.mp hmem]
      exact hlast

/-- The sequence numbers are one, two and so on. -/
theorem Chained.seqs (h : Chained log) :
    log.map (fun head => head.seq.toNat) = List.range' 1 log.length := by
  induction h with
  | nil => rfl
  | @concat log head _ _ _ hseq ih =>
    rw [List.map_append, ih, List.map_singleton, hseq, List.length_append, List.length_singleton,
      List.range'_concat, one_mul, add_comm 1]

/-- The predecessors are the zero digest and the hashes of all heads but the last. -/
theorem Chained.links (h : Chained log) :
    log.map RefHead.prevHeadHash = (Sha512.zero :: log.map RefHead.hash).dropLast := by
  induction h with
  | nil => rfl
  | @concat log head _ _ hprev _ ih =>
    have hlast : lastHash log = (Sha512.zero :: log.map RefHead.hash).getLast (by simp) := by
      apply Option.some_inj.mp
      rw [← List.getLast?_eq_some_getLast, List.getLast?_cons, List.getLast?_map, lastHash]
    calc (log ++ [head]).map RefHead.prevHeadHash
      _ = (Sha512.zero :: log.map RefHead.hash).dropLast ++ [lastHash log] := by
        rw [List.map_append, ih, List.map_singleton, hprev]
      _ = Sha512.zero :: log.map RefHead.hash := by
        rw [hlast, List.dropLast_append_getLast]
      _ = (Sha512.zero :: (log ++ [head]).map RefHead.hash).dropLast := by
        rw [List.map_append, List.map_singleton, ← List.cons_append, List.dropLast_concat]

theorem Chained.seq_le (h : Chained log) : ∀ head ∈ log, head.seq.toNat ≤ log.length := by
  intro head hmem
  have hrange : head.seq.toNat ∈ List.range' 1 log.length := by
    rw [← h.seqs]
    exact List.mem_map_of_mem hmem
  have hbounds := List.mem_range'_1.mp hrange
  omega

theorem Chained.pairwise (h : Chained log) : log.Pairwise fun a b => a.seq < b.seq := by
  induction h with
  | nil => exact List.Pairwise.nil
  | concat hlog _ _ hseq ih =>
    refine List.pairwise_append.mpr ⟨ih, List.pairwise_singleton _ _, fun a ha b hb => ?_⟩
    have hle := hlog.seq_le a ha
    rw [List.mem_singleton.mp hb, UInt64.lt_iff_toNat_lt, hseq]
    omega

omit [Sha512 D] in
/-- In ascending order a sequence number names one head. -/
theorem eq_of_seq_of_pairwise (h : log.Pairwise fun head next => head.seq < next.seq)
    {a b : RefHead D} (ha : a ∈ log) (hb : b ∈ log) (hseq : a.seq = b.seq) : a = b := by
  have hnodup : (log.map RefHead.seq).Nodup :=
    List.pairwise_map.mpr (h.imp fun hlt => UInt64.ne_of_lt hlt)
  exact List.inj_on_of_nodup_map hnodup ha hb hseq

theorem Chained.eq_of_seq_eq (h : Chained log) {a b : RefHead D} (ha : a ∈ log) (hb : b ∈ log)
    (hseq : a.seq = b.seq) : a = b :=
  eq_of_seq_of_pairwise h.pairwise ha hb hseq

/-- The heads after a sequence number are a suffix. -/
theorem Chained.filter_eq_drop (h : Chained log) (after : UInt64) :
    log.filter (fun head => after < head.seq) = log.drop after.toNat := by
  induction h with
  | nil => simp
  | @concat log head hlog _ _ hseq ih =>
    rw [List.filter_append, ih]
    by_cases hafter : after.toNat ≤ log.length
    · have hkept : after < head.seq := by
        rw [UInt64.lt_iff_toNat_lt, hseq]
        omega
      rw [List.drop_append_of_le_length hafter, List.filter_cons_of_pos (by simpa using hkept),
        List.filter_nil]
    · have hdropped : ¬ after < head.seq := by
        rw [UInt64.lt_iff_toNat_lt, hseq]
        omega
      rw [List.filter_cons_of_neg (by simpa using hdropped), List.filter_nil, List.append_nil,
        List.drop_eq_nil_of_le (by omega), List.drop_eq_nil_of_le (by simp; omega)]

theorem Chained.take (h : Chained log) (n : ℕ) : Chained (log.take n) := by
  induction h with
  | nil =>
    rw [List.take_nil]
    exact .nil
  | @concat log head hlog hencodable hprev hseq ih =>
    by_cases hn : n ≤ log.length
    · rwa [List.take_append_of_le_length hn]
    · rw [List.take_of_length_le (by rw [List.length_append, List.length_singleton]; omega)]
      exact hlog.concat hencodable hprev hseq

/-- A head stands at the place of its number. -/
theorem Chained.getElem?_eq_some_iff (h : Chained log) {k : ℕ} :
    log[k]? = some head ↔ head ∈ log ∧ head.seq.toNat = k + 1 := by
  have hplace : ∀ k head, log[k]? = some head → head.seq.toNat = k + 1 := by
    intro k head hk
    have hseq := congrArg (·[k]?) h.seqs
    rw [List.getElem?_map, hk, Option.map_some] at hseq
    have hlt := (List.getElem?_eq_some_iff.mp hk).1
    rw [List.getElem?_range' hlt, Option.some_inj] at hseq
    omega
  constructor
  · intro hk
    exact ⟨List.mem_of_getElem? hk, hplace k head hk⟩
  · intro ⟨hmem, hseq⟩
    obtain ⟨k', hk'⟩ := List.mem_iff_getElem?.mp hmem
    have hsame : k' = k := by
      have hseq' := hplace k' head hk'
      omega
    rwa [← hsame]

/-- The first heads of a log are those with small numbers. -/
theorem Chained.mem_take_iff (h : Chained log) {n : ℕ} :
    head ∈ log.take n ↔ head ∈ log ∧ head.seq.toNat ≤ n := by
  constructor
  · intro hmem
    obtain ⟨k, hk⟩ := List.mem_iff_getElem?.mp hmem
    rw [List.getElem?_take] at hk
    split_ifs at hk with hlt
    obtain ⟨hin, hseq⟩ := h.getElem?_eq_some_iff.mp hk
    exact ⟨hin, by omega⟩
  · intro ⟨hmem, hle⟩
    obtain ⟨k, hk⟩ := List.mem_iff_getElem?.mp hmem
    have hseq := (h.getElem?_eq_some_iff.mp hk).2
    have htake : (log.take n)[k]? = some head := by
      rw [List.getElem?_take, if_pos (by omega), hk]
    exact List.mem_of_getElem? htake

end Chains

section Readers

variable {D : Type} [Sha512 D] {dir : HeadsDir} {log : List (RefHead D)} {head : RefHead D}

/-- A directory lists every file once. -/
theorem nodup_toList (files : ExtTreeMap UInt64 Bytes compare) : files.toList.Nodup :=
  ExtTreeMap.ordered_keys_toList.imp fun hlt heq => by simp [heq] at hlt

/-- The directory lists one file per head. -/
theorem LogHolds.entries_perm (h : LogHolds dir log) (hlog : Chained log) :
    dir.entries.Perm (log.map logEntry) := by
  have hentries : dir.entries = dir.logBin.toList := by
    rw [HeadsDir.entries, h.logJson]
    simp
  rw [hentries]
  refine (List.perm_ext_iff_of_nodup ?_ ?_).mpr fun entry => ?_
  · exact nodup_toList dir.logBin
  · exact List.pairwise_map.mpr (hlog.pairwise.imp fun hlt heq =>
      UInt64.ne_of_lt hlt (congrArg Prod.fst heq))
  · rw [← Prod.mk.eta (p := entry), ExtTreeMap.mem_toList_iff_getElem?_eq_some, h.logBin]
    exact List.mem_map.symm

variable [DigestBytes D] [LegacyHeads D]

theorem decodeHeadBytes_encodeRefHead (h : head.Encodable) :
    decodeHeadBytes (encodeRefHead head) = .ok head := by
  rw [decodeHeadBytes, decodeRefHead_encodeRefHead h]

/-- A listing of log files that decode to the heads they are named for. -/
structure ListsHeads (listing : List (UInt64 × Bytes)) (log : List (RefHead D)) : Prop where
  ascending : log.Pairwise fun head next => head.seq < next.seq
  files : ∃ entries, listing.Perm entries ∧ List.Forall₂
    (fun entry head => entry.1 = head.seq ∧ decodeHeadBytes entry.2 = .ok head) entries log

/-- Reading the log files, in whatever order the directory lists them, gives the heads after
the sequence number in order. -/
theorem ListsHeads.since_eq_ok {listing : List (UInt64 × Bytes)} (h : ListsHeads listing log)
    (after : UInt64) : since listing after = .ok (log.filter fun head => after < head.seq) := by
  obtain ⟨entries, hlisting, hfiles⟩ := h.files
  have hdecoded : List.Forall₂ (fun entry head => decodeHeadBytes entry.2 = .ok head)
      (entries.filter fun entry => after < entry.1)
      (log.filter fun head => after < head.seq) := by
    refine (List.rel_filter (fun entry head hentry => ?_) hfiles).imp fun _ _ hentry => hentry.2
    simp only [hentry.1]
  obtain ⟨out, hout, hperm⟩ := List.perm_comp_forall₂ (hlisting.filter _) hdecoded
  -- sorting by number is canonical, as numbers are distinct
  have hsorted : out.insertionSort bySeq = log.filter fun head => after < head.seq := by
    have hpairwise := h.ascending.filter fun head => after < head.seq
    have hall := (List.perm_insertionSort bySeq out).trans hperm
    refine hall.eq_of_pairwise ?_ (List.pairwise_insertionSort bySeq out)
      (hpairwise.imp fun hlt => UInt64.le_of_lt hlt)
    intro a b ha hb hab hba
    exact eq_of_seq_of_pairwise hpairwise (hall.subset ha) hb (UInt64.le_antisymm hab hba)
  rw [since, mapM_eq_ok_iff.mpr hout]
  change Except.ok _ = _
  rw [hsorted]

theorem Chained.listsHeads (hlog : Chained log) {listing : List (UInt64 × Bytes)}
    (hlisting : listing.Perm (log.map logEntry)) : ListsHeads listing log where
  ascending := hlog.pairwise
  files := by
    refine ⟨log.map logEntry, hlisting, ?_⟩
    rw [List.forall₂_map_left_iff, List.forall₂_same]
    exact fun head hmem => ⟨rfl, decodeHeadBytes_encodeRefHead (hlog.encodable head hmem)⟩

/-- The heads after a sequence number, read from the log files of a chain. -/
theorem since_eq_ok (hlog : Chained log) {listing : List (UInt64 × Bytes)}
    (hlisting : listing.Perm (log.map logEntry)) (after : UInt64) :
    since listing after = .ok (log.drop after.toNat) := by
  rw [(hlog.listsHeads hlisting).since_eq_ok, hlog.filter_eq_drop]

/-- The tip file holds the last head. -/
theorem Holds.tipOf (h : Holds dir log) : tipOf dir = .ok log.getLast? := by
  rw [SafeHub.tipOf, h.tipBin, h.tipJson]
  cases hlast : log.getLast? with
  | none => rfl
  | some head =>
    have hmem := List.mem_of_getLast? hlast
    change (decodeHeadBytes _).map some = _
    rw [decodeHeadBytes_encodeRefHead (h.chained.encodable head hmem)]
    rfl

/-- Reading all of a directory's log files. -/
theorem Holds.since (h : Holds dir log) {listing : List (UInt64 × Bytes)}
    (hlisting : listing.Perm dir.entries) (after : UInt64) :
    since listing after = .ok (log.drop after.toNat) :=
  since_eq_ok h.chained (hlisting.trans (h.toLogHolds.entries_perm h.chained)) after

end Readers

section Appends

variable {D : Type} [Sha512 D] {log : List (RefHead D)} {head : RefHead D} {dir : HeadsDir}

/-- The log file of the next head adds it to the list. -/
theorem LogHolds.write_log (h : LogHolds dir log) (hlog : Chained log)
    (hseq : head.seq.toNat = log.length + 1) :
    LogHolds (dir.write (.log head.seq (encodeRefHead head))) (log ++ [head]) where
  logJson := h.logJson
  logBin := by
    intro seq bytes
    change (dir.logBin.insert head.seq (encodeRefHead head))[seq]? = _ ↔ _
    rw [ExtTreeMap.getElem?_insert]
    by_cases hnew : head.seq = seq
    · -- the list has no head with this number yet
      have hfresh : ∀ other ∈ log, logEntry other ≠ (seq, bytes) := by
        intro other hmem hentry
        have hle := hlog.seq_le other hmem
        rw [show other.seq = head.seq from (congrArg Prod.fst hentry).trans hnew.symm] at hle
        omega
      rw [if_pos (by simp [hnew])]
      constructor
      · intro hbytes
        exact ⟨head, by simp, Prod.ext hnew (Option.some_inj.mp hbytes)⟩
      · intro ⟨other, hmem, hentry⟩
        rcases List.mem_append.mp hmem with hold | hlast
        · exact absurd hentry (hfresh other hold)
        · rw [← List.mem_singleton.mp hlast]
          exact congrArg (fun entry => some entry.2) hentry
    · -- every other number is as before
      rw [if_neg (by simp [hnew]), h.logBin]
      constructor
      · intro ⟨other, hmem, hentry⟩
        exact ⟨other, List.mem_append_left _ hmem, hentry⟩
      · intro ⟨other, hmem, hentry⟩
        rcases List.mem_append.mp hmem with hold | hlast
        · exact ⟨other, hold, hentry⟩
        · rw [List.mem_singleton.mp hlast] at hentry
          exact absurd (congrArg Prod.fst hentry) hnew

theorem holds_empty : Holds HeadsDir.empty ([] : List (RefHead D)) where
  chained := .nil
  tipBin := rfl
  tipJson := rfl
  logJson := rfl
  logBin := by simp [HeadsDir.empty]

/-- An append that passes its checks adds its head to the list. -/
theorem Holds.append (h : Holds dir log) (hencodable : head.Encodable)
    (hprev : head.prevHeadHash = lastHash log) (hseq : head.seq.toNat = log.length + 1) :
    Holds ((appendWrites head.seq (encodeRefHead head)).foldl HeadsDir.write dir)
      (log ++ [head]) where
  chained := h.chained.concat hencodable hprev hseq
  tipBin := by
    rw [List.getLast?_concat]
    rfl
  tipJson := rfl
  toLogHolds :=
    have hlog := h.toLogHolds.write_log h.chained hseq
    ⟨hlog.logBin, hlog.logJson⟩

theorem canonicalBytes_eq_ok_iff {body : Bytes} :
    canonicalBytes head = .ok body ↔ head.Encodable ∧ body = encodeRefHead head := by
  rw [canonicalBytes]
  split_ifs with h
  · exact ⟨fun hok => ⟨h, (Except.ok.inj hok).symm⟩, fun hbody => congrArg _ hbody.2.symm⟩
  · exact iff_of_false (by simp) fun hbody => h hbody.1

omit [Sha512 D] in
theorem checkPrev_eq_ok_iff [DecidableEq D] {expected : HeadHash D} :
    checkPrev expected head = .ok () ↔ head.prevHeadHash = expected := by
  rw [checkPrev]
  split_ifs with h
  · exact iff_of_false (by simp) h
  · exact iff_of_true rfl (not_not.mp h)

theorem expectedPrev_eq_ok (h : Chained log) : expectedPrev log.getLast? = .ok (lastHash log) := by
  cases hlast : log.getLast? with
  | none => rw [expectedPrev, lastHash, hlast]; rfl
  | some cur =>
    have hencodable := h.encodable cur (List.mem_of_getLast? hlast)
    rw [expectedPrev, canonicalBytes, if_pos hencodable, lastHash, hlast]
    rfl

theorem Chained.seq_of_getLast? (h : Chained log) {cur : RefHead D}
    (hlast : log.getLast? = some cur) :
    cur.seq.toNat = log.length := by
  cases h with
  | nil => cases hlast
  | concat _ _ _ hseq =>
    rw [List.getLast?_concat] at hlast
    rw [← Option.some_inj.mp hlast, hseq, List.length_append, List.length_singleton]

/-- The sequence check passes the number after the last. -/
theorem checkSeq_eq_ok_iff (h : Chained log) :
    checkSeq log.getLast? head = .ok () ↔ head.seq.toNat = log.length + 1 := by
  cases hlast : log.getLast? with
  | none =>
    have hone : head.seq = 1 ↔ head.seq.toNat = 1 := UInt64.toNat_inj.symm
    rw [List.getLast?_eq_none_iff.mp hlast, checkSeq, List.length_nil, zero_add, ← hone]
    split_ifs with hseq
    · exact iff_of_false (by simp) hseq
    · exact iff_of_true rfl (not_not.mp hseq)
  | some cur =>
    have hcur := h.seq_of_getLast? hlast
    have hbound := head.seq.toNat_lt
    rw [checkSeq, bind_eq_ok_iff, ← hcur]
    constructor
    · intro ⟨next, hnext, hcheck⟩
      rw [nextSeq] at hnext
      split_ifs at hnext hcheck with hfits heq
      rw [not_not.mp heq, ← Except.ok.inj hnext, UInt64.toNat_add, UInt64.toNat_one,
        Nat.mod_eq_of_lt hfits]
    · intro heq
      -- the number after the last fits, because it is the head's
      have hfits : cur.seq.toNat + 1 < 2 ^ 64 := by omega
      refine ⟨cur.seq + 1, if_pos hfits, if_neg (not_not.mpr ?_)⟩
      rw [← UInt64.toNat_inj, heq, UInt64.toNat_add, UInt64.toNat_one, Nat.mod_eq_of_lt hfits]

variable [DecidableEq D] [DigestBytes D] [LegacyHeads D]

theorem casAppend_of_plan {store : HeadStore} {hash : HeadHash D} {writes : List FileWrite}
    (hplan : planAppend (store head.repoId) head = .ok (hash, writes)) :
    casAppend store head = (.ok hash, Function.update store head.repoId
      (writes.foldl HeadsDir.write (store head.repoId))) := by
  rw [casAppend, hplan]

/-- Which appends pass the checks on files that hold a chained list. -/
theorem planAppend_eq_ok_iff (h : Holds dir log) {hash : HeadHash D} {writes : List FileWrite} :
    planAppend dir head = .ok (hash, writes) ↔
      (head.Encodable ∧ head.prevHeadHash = lastHash log ∧ head.seq.toNat = log.length + 1) ∧
        hash = head.hash ∧ writes = appendWrites head.seq (encodeRefHead head) := by
  rw [planAppend, h.tipOf]
  change (expectedPrev log.getLast? >>= _) = _ ↔ _
  rw [expectedPrev_eq_ok h.chained]
  change (checkPrev (lastHash log) head >>= fun _ => checkSeq log.getLast? head >>= fun _ =>
    canonicalBytes head >>= fun body => .ok (Sha512.digest body, appendWrites head.seq body)) = _ ↔
    _
  constructor
  · intro hplan
    obtain ⟨_, hprev, hplan⟩ := bind_eq_ok_iff.mp hplan
    obtain ⟨_, hseq, hplan⟩ := bind_eq_ok_iff.mp hplan
    obtain ⟨body, hbody, hreturn⟩ := bind_eq_ok_iff.mp hplan
    obtain ⟨hencodable, rfl⟩ := canonicalBytes_eq_ok_iff.mp hbody
    obtain ⟨rfl, rfl⟩ := Prod.mk.inj (Except.ok.inj hreturn)
    exact ⟨⟨hencodable, checkPrev_eq_ok_iff.mp hprev, (checkSeq_eq_ok_iff h.chained).mp hseq⟩, rfl,
      rfl⟩
  · intro ⟨⟨hencodable, hprev, hseq⟩, hhash, hwrites⟩
    rw [hhash, hwrites]
    exact bind_eq_ok_iff.mpr ⟨(), checkPrev_eq_ok_iff.mpr hprev, bind_eq_ok_iff.mpr
      ⟨(), (checkSeq_eq_ok_iff h.chained).mpr hseq, bind_eq_ok_iff.mpr
        ⟨_, canonicalBytes_eq_ok_iff.mpr ⟨hencodable, rfl⟩, rfl⟩⟩⟩

/-- The store accepts the heads that its checks pass. -/
theorem accepts_iff_exists_planAppend (h : Holds dir log) :
    Accepts log head ↔ ∃ hash writes, planAppend dir head = .ok (hash, writes) := by
  simp only [planAppend_eq_ok_iff h]
  constructor
  · intro haccepts
    exact ⟨_, _, haccepts, rfl, rfl⟩
  · intro ⟨_, _, haccepts, _⟩
    exact haccepts

end Appends

/-! ### Runs of calls -/

/-- A call of the head log. -/
inductive HeadCall (D : Type)
  | append (head : RefHead D)
  | tip (repo : RepoId)
  | since (repo : RepoId) (after : UInt64)

/-- The head directories, and the heads accepted so far per repository. -/
structure ServedHeads (D : Type) where
  store : HeadStore
  accepted : RepoId → List (RefHead D)

/-- A fresh store. -/
def ServedHeads.new {D : Type} : ServedHeads D := ⟨fun _ => .empty, fun _ => []⟩

/-- The files hold what a log of the accepted heads should: numbered and linked heads, of
which the tip is the last, and every suffix of which can be read. -/
structure HeadLogInvariant {D : Type} [Sha512 D] [DigestBytes D] [LegacyHeads D] (dir : HeadsDir)
    (log : List (RefHead D)) : Prop where
  seqs : log.map (fun head => head.seq.toNat) = List.range' 1 log.length
  links : log.map RefHead.prevHeadHash = (Sha512.zero :: log.map RefHead.hash).dropLast
  tip : tipOf dir = .ok log.getLast?
  since : ∀ listing, listing.Perm dir.entries →
    ∀ after, since listing after = .ok (log.drop after.toNat)

section Runs

variable {D : Type} [Sha512 D] [DigestBytes D] [LegacyHeads D]

theorem Holds.headLogInvariant {dir : HeadsDir} {log : List (RefHead D)} (h : Holds dir log) :
    HeadLogInvariant dir log where
  seqs := h.chained.seqs
  links := h.chained.links
  tip := h.tipOf
  since := fun _ => h.since

variable [DecidableEq D]

/-- Serve one call. -/
def ServedHeads.call (s : ServedHeads D) : HeadCall D → ServedHeads D
  | .append head =>
    match casAppend s.store head with
    | (.ok _, store) => {
        store := store
        accepted := Function.update s.accepted head.repoId (s.accepted head.repoId ++ [head]) }
    | (.error _, store) => { s with store := store }
  | .tip _ => s
  | .since _ _ => s

/-- The state after a sequence of calls on a fresh store. -/
def runCalls (calls : List (HeadCall D)) : ServedHeads D := calls.foldl ServedHeads.call .new

variable {s : ServedHeads D}

/-- What an append does: nothing, or the writes of a head that passed its checks. -/
theorem casAppend_cases (hs : ∀ repo, Holds (s.store repo) (s.accepted repo)) (head : RefHead D) :
    (∃ e, casAppend s.store head = (.error e, s.store)) ∨
      ∃ dir, casAppend s.store head =
          (.ok head.hash, Function.update s.store head.repoId dir) ∧
        Holds dir (s.accepted head.repoId ++ [head]) := by
  rw [casAppend]
  cases hplan : planAppend (s.store head.repoId) head with
  | error e => exact .inl ⟨e, rfl⟩
  | ok result =>
    obtain ⟨hash, writes⟩ := result
    obtain ⟨⟨hencodable, hprev, hseq⟩, rfl, rfl⟩ :=
      (planAppend_eq_ok_iff (hs head.repoId)).mp hplan
    exact .inr ⟨_, rfl, (hs head.repoId).append hencodable hprev hseq⟩

/-- Every call keeps the files in step with the accepted heads. -/
theorem holds_call (hs : ∀ repo, Holds (s.store repo) (s.accepted repo)) (call : HeadCall D)
    (repo : RepoId) : Holds ((s.call call).store repo) ((s.call call).accepted repo) := by
  cases call with
  | tip => exact hs repo
  | since => exact hs repo
  | append head =>
    rw [ServedHeads.call]
    rcases casAppend_cases hs head with ⟨e, hrejected⟩ | ⟨dir, haccepted, hdir⟩
    · rw [hrejected]
      exact hs repo
    · rw [haccepted]
      by_cases hrepo : repo = head.repoId
      · subst hrepo
        simpa using hdir
      · simpa [Function.update_of_ne hrepo] using hs repo

theorem holds_runCalls (calls : List (HeadCall D)) (repo : RepoId) :
    Holds ((runCalls calls).store repo) ((runCalls calls).accepted repo) := by
  induction calls using List.reverseRecOn generalizing repo with
  | nil => exact holds_empty
  | append_singleton calls call ih =>
    rw [runCalls, List.foldl_concat]
    exact holds_call ih call repo

/-- After any calls on a fresh store, the files of every repository hold exactly the
accepted heads, numbered from one and linked by hash; and the next append returns the hash
of the new tip, or changes nothing. -/
theorem headLogInvariant_runCalls (calls : List (HeadCall D)) :
    (∀ repo, HeadLogInvariant ((runCalls calls).store repo) ((runCalls calls).accepted repo)) ∧
      ∀ head : RefHead D, match casAppend (runCalls calls).store head with
        | (.ok hash, store) =>
          tipOf (store head.repoId) = .ok (some head) ∧ head.hash = hash
        | (.error _, store) => store = (runCalls calls).store := by
  refine ⟨fun repo => (holds_runCalls calls repo).headLogInvariant, fun head => ?_⟩
  rcases casAppend_cases (holds_runCalls calls) head with ⟨e, hrejected⟩ | ⟨dir, haccepted, hdir⟩
  · rw [hrejected]
  · rw [haccepted]
    refine ⟨?_, rfl⟩
    rw [Function.update_self, hdir.tipOf, List.getLast?_concat]

end Runs

end SafeHub
