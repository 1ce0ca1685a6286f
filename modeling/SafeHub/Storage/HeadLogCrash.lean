import SafeHub.Storage.HeadLog

/-!
# Interrupted appends

An append makes its changes one after the other. When the process stops or a write fails
in between, the first ones stay. Between the log file and the tip file the readers
disagree: the log lists a head that is not the tip, and the next append takes its number.

## Main definitions

* `cutAppend` — an append stopped after some of its changes
* `AppendsAtomic` — what readers may see over a run with interruptions
* `NeverTorn` — no append that passes its checks stops between log file and tip file

## Main results

* `appendsAtomic_iff` — appends are atomic in exactly the runs without a torn append
-/

namespace SafeHub

open Std (ExtTreeMap)

/-- A call that writes: an append that ends, or one stopped after some of its changes. -/
inductive AppendCall (D : Type)
  | complete (head : RefHead D)
  | cut (head : RefHead D) (writes : ℕ)

section Definitions

variable {D : Type} [Sha512 D] [DigestBytes D] [LegacyHeads D] [DecidableEq D]

/-- The files after an append of which only the first changes are made. -/
def cutAppend (store : HeadStore) (head : RefHead D) (writes : ℕ) : HeadStore :=
  match planAppend (store head.repoId) head with
  | .error _ => store
  | .ok (_, all) => Function.update store head.repoId
      ((all.take writes).foldl HeadsDir.write (store head.repoId))

/-- The files after a call. -/
def applyCall (store : HeadStore) : AppendCall D → HeadStore
  | .complete head => (casAppend store head).2
  | .cut head writes => cutAppend store head writes

/-- The files after a sequence of calls on a fresh store. -/
def storeAfter (calls : List (AppendCall D)) : HeadStore :=
  calls.foldl applyCall fun _ => HeadsDir.empty

/-- The append passes its checks and stops between its log file and its tip file. -/
def Torn (store : HeadStore) (head : RefHead D) (writes : ℕ) : Prop :=
  writes = 1 ∧ ∃ plan, planAppend (store head.repoId) head = .ok plan

/-- No append of the run is torn. -/
def NeverTorn (calls : List (AppendCall D)) : Prop :=
  ∀ front head writes back, calls = front ++ .cut head writes :: back →
    ¬ Torn (storeAfter front) head writes

end Definitions

section Views

variable (D : Type) [Sha512 D] [DigestBytes D] [LegacyHeads D]

/-- The two directories read alike. -/
structure SameView (dir dir' : HeadsDir) : Prop where
  tip : (tipOf dir : Except (StorageError D) _) = tipOf dir'
  since : ∀ listing listing', listing.Perm dir.entries → listing'.Perm dir'.entries →
    ∀ after, (since listing after : Except (StorageError D) _) = since listing' after

variable {D}

/-- The readers may list the head. -/
def Listed (dir : HeadsDir) (head : RefHead D) : Prop :=
  ∃ listing after heads, listing.Perm dir.entries ∧ since listing after = .ok heads ∧ head ∈ heads

variable [DecidableEq D]

/-- What calls may do to the readers' view: an interrupted append leaves it as it was or as
the whole append makes it, and a head that was listed is not replaced under its number. -/
structure AppendsAtomic (calls : List (AppendCall D)) : Prop where
  atomic : ∀ front head writes back, calls = front ++ .cut head writes :: back → ∀ repo,
    SameView D (cutAppend (storeAfter front) head writes repo) (storeAfter front repo) ∨
      SameView D (cutAppend (storeAfter front) head writes repo)
        ((casAppend (storeAfter front) head).2 repo)
  kept : ∀ front mid back, calls = front ++ mid ++ back → ∀ repo (head head' : RefHead D),
    Listed (storeAfter front repo) head → Listed (storeAfter (front ++ mid) repo) head' →
      head.seq = head'.seq → head = head'

end Views

section Files

variable {D : Type} [Sha512 D] {store : HeadStore} {logs : RepoId → List (RefHead D)}
  {dir : HeadsDir} {log : List (RefHead D)} {head : RefHead D} {writes : ℕ}

/-- Both files of an append are enough: the rest of its changes does not show. -/
theorem Holds.append_take (h : Holds dir log) (hencodable : head.Encodable)
    (hprev : head.prevHeadHash = lastHash log) (hseq : head.seq.toNat = log.length + 1)
    (hwrites : 2 ≤ writes) :
    Holds (((appendWrites head.seq (encodeRefHead head)).take writes).foldl HeadsDir.write dir)
      (log ++ [head]) := by
  have hfull := h.append hencodable hprev hseq
  by_cases hall : 3 ≤ writes
  · rw [List.take_of_length_le hall]
    exact hfull
  · obtain rfl : writes = 2 := by omega
    exact {
      chained := hfull.chained
      tipBin := hfull.tipBin
      tipJson := h.tipJson
      logJson := hfull.logJson
      logBin := hfull.logBin }

/-- Replacing one directory by one with a longer list. -/
theorem holds_update (hs : ∀ repo, Holds (store repo) (logs repo)) {repo : RepoId}
    (hdir : Holds dir log) (other : RepoId) :
    Holds (Function.update store repo dir other) (Function.update logs repo log other) := by
  by_cases hother : other = repo
  · subst hother
    simpa using hdir
  · simpa [Function.update_of_ne hother] using hs other

omit [Sha512 D] in
theorem grows_update (repo : RepoId) (head : RefHead D) (other : RepoId) :
    logs other <+: Function.update logs repo (logs repo ++ [head]) other := by
  by_cases hother : other = repo
  · subst hother
    simp
  · simp [Function.update_of_ne hother]

end Files

section Reading

variable {D : Type} [Sha512 D] [DigestBytes D] [LegacyHeads D] {dir dir' : HeadsDir}
  {log : List (RefHead D)} {head : RefHead D}

theorem SameView.refl (dir : HeadsDir) (hlog : Holds dir log) : SameView D dir dir where
  tip := rfl
  since := by
    intro listing listing' h h' after
    rw [hlog.since h, hlog.since h']

/-- Directories with the same heads read alike. -/
theorem Holds.sameView (h : Holds dir log) (h' : Holds dir' log) : SameView D dir dir' where
  tip := by rw [h.tipOf, h'.tipOf]
  since := by
    intro listing listing' hlisting hlisting' after
    rw [h.since hlisting, h'.since hlisting']

theorem Holds.mem_of_listed (h : Holds dir log) (hlisted : Listed dir head) : head ∈ log := by
  obtain ⟨listing, after, heads, hlisting, hsince, hmem⟩ := hlisted
  rw [h.since hlisting] at hsince
  rw [← Except.ok.inj hsince] at hmem
  exact List.mem_of_mem_drop hmem

end Reading

section Runs

variable {D : Type} [Sha512 D] [DigestBytes D] [LegacyHeads D] [DecidableEq D]
  {store : HeadStore} {logs : RepoId → List (RefHead D)} {head : RefHead D} {writes : ℕ}

theorem cutAppend_of_plan {hash : HeadHash D} {all : List FileWrite}
    (hplan : planAppend (store head.repoId) head = .ok (hash, all)) :
    cutAppend store head writes = Function.update store head.repoId
      ((all.take writes).foldl HeadsDir.write (store head.repoId)) := by
  rw [cutAppend, hplan]

/-- What an interrupted append leaves behind on files that hold chained lists. -/
theorem cutAppend_cases (hs : ∀ repo, Holds (store repo) (logs repo)) (head : RefHead D)
    (writes : ℕ) :
    cutAppend store head writes = store ∨ Torn store head writes ∨
      ∃ dir dir', Holds dir (logs head.repoId ++ [head]) ∧
        Holds dir' (logs head.repoId ++ [head]) ∧
        cutAppend store head writes = Function.update store head.repoId dir ∧
        (casAppend store head).2 = Function.update store head.repoId dir' := by
  rw [cutAppend, casAppend]
  cases hplan : planAppend (store head.repoId) head with
  | error e => exact .inl rfl
  | ok result =>
    obtain ⟨hash, all⟩ := result
    obtain ⟨⟨hencodable, hprev, hseq⟩, -, rfl⟩ := (planAppend_eq_ok_iff (hs head.repoId)).mp hplan
    by_cases hnone : writes = 0
    · subst hnone
      exact .inl (Function.update_eq_self _ _)
    · by_cases hone : writes = 1
      · exact .inr (.inl ⟨hone, _, hplan⟩)
      · exact .inr (.inr ⟨_, _, (hs head.repoId).append_take hencodable hprev hseq (by omega),
          (hs head.repoId).append hencodable hprev hseq, rfl, rfl⟩)

/-- A call that is not torn keeps files that hold chained lists, and only extends them. -/
theorem holds_applyCall (hs : ∀ repo, Holds (store repo) (logs repo)) (call : AppendCall D)
    (hcall : ∀ head writes, call = .cut head writes → ¬ Torn store head writes) :
    ∃ logs' : RepoId → List (RefHead D),
      (∀ repo, Holds (applyCall store call repo) (logs' repo)) ∧
        ∀ repo, logs repo <+: logs' repo := by
  have hsame : ∃ logs' : RepoId → List (RefHead D), (∀ repo, Holds (store repo) (logs' repo)) ∧
      ∀ repo, logs repo <+: logs' repo :=
    ⟨logs, hs, fun _ => List.prefix_rfl⟩
  cases call with
  | complete head =>
    rcases casAppend_cases (s := ⟨store, logs⟩) hs head with ⟨e, hrejected⟩ | ⟨dir, hok, hdir⟩
    · rw [applyCall, hrejected]
      exact hsame
    · rw [applyCall, hok]
      exact ⟨_, holds_update hs hdir, grows_update head.repoId head⟩
  | cut head writes =>
    rw [applyCall]
    rcases cutAppend_cases hs head writes with hnone | htorn | ⟨dir, dir', hdir, _, hcut, _⟩
    · rw [hnone]
      exact hsame
    · exact absurd htorn (hcall head writes rfl)
    · rw [hcut]
      exact ⟨_, holds_update hs hdir, grows_update head.repoId head⟩

/-- A torn append shows: the log lists a head that is not the tip. -/
theorem not_sameView_of_torn (hs : ∀ repo, Holds (store repo) (logs repo))
    (htorn : Torn store head writes) :
    ¬ (SameView D (cutAppend store head writes head.repoId) (store head.repoId) ∨
      SameView D (cutAppend store head writes head.repoId)
        ((casAppend store head).2 head.repoId)) := by
  obtain ⟨rfl, ⟨hash, all⟩, hplan⟩ := htorn
  have hold := hs head.repoId
  obtain ⟨⟨hencodable, hprev, hseq⟩, -, rfl⟩ := (planAppend_eq_ok_iff hold).mp hplan
  -- cut after the first of its two writes: the log file is there, the tip file is old
  have hcut : cutAppend store head 1 head.repoId =
      (store head.repoId).write (.log head.seq (encodeRefHead head)) := by
    rw [cutAppend_of_plan hplan, Function.update_self]
    rfl
  have hnew := hold.append hencodable hprev hseq
  have hcas : (casAppend store head).2 head.repoId =
      (appendWrites head.seq (encodeRefHead head)).foldl HeadsDir.write (store head.repoId) := by
    rw [casAppend_of_plan hplan]
    exact Function.update_self _ _ _
  have hlisted := (hold.toLogHolds.write_log hold.chained hseq).entries_perm hnew.chained
  have hfresh : head ∉ logs head.repoId := by
    intro hmem
    have hle := hold.chained.seq_le head hmem
    omega
  rw [hcut, hcas]
  rintro (hview | hview)
  · -- against the state before: a head too many is listed
    have hsince := hview.since _ _ (List.Perm.refl _) (List.Perm.refl _) 0
    rw [since_eq_ok hnew.chained hlisted, hold.since (List.Perm.refl _)] at hsince
    have hlength := congrArg List.length (Except.ok.inj hsince)
    simp at hlength
  · -- against the state after: the tip is not the last head
    have htip := hview.tip
    rw [hnew.tipOf, List.getLast?_concat] at htip
    change tipOf (store head.repoId) = _ at htip
    rw [hold.tipOf] at htip
    exact hfresh (List.mem_of_getLast? (Except.ok.inj htip))

variable {calls front mid : List (AppendCall D)}

theorem storeAfter_concat (call : AppendCall D) :
    storeAfter (calls ++ [call]) = applyCall (storeAfter calls) call := by
  rw [storeAfter, List.foldl_concat, ← storeAfter]

theorem NeverTorn.of_append (h : NeverTorn (front ++ mid)) : NeverTorn front := by
  intro before head writes back heq
  apply h before head writes (back ++ mid)
  rw [heq, List.append_assoc, List.cons_append]

/-- Calls without a torn append keep files that hold chained lists, and only extend them. -/
theorem NeverTorn.holds_append (h : NeverTorn (front ++ mid))
    (hs : ∀ repo, Holds (storeAfter front repo) (logs repo)) :
    ∃ logs' : RepoId → List (RefHead D),
      (∀ repo, Holds (storeAfter (front ++ mid) repo) (logs' repo)) ∧
        ∀ repo, logs repo <+: logs' repo := by
  induction mid using List.reverseRecOn with
  | nil =>
    rw [List.append_nil]
    exact ⟨logs, hs, fun _ => List.prefix_rfl⟩
  | append_singleton mid call ih =>
    rw [← List.append_assoc] at h ⊢
    obtain ⟨logs', hholds, hgrows⟩ := ih h.of_append
    have hcall : ∀ head writes, call = .cut head writes →
        ¬ Torn (storeAfter (front ++ mid)) head writes := by
      rintro head writes rfl
      exact h _ head writes [] rfl
    obtain ⟨logs'', hholds', hgrows'⟩ := holds_applyCall hholds call hcall
    rw [storeAfter_concat]
    exact ⟨logs'', hholds', fun repo => (hgrows repo).trans (hgrows' repo)⟩

theorem NeverTorn.holds (h : NeverTorn calls) :
    ∃ logs : RepoId → List (RefHead D), ∀ repo, Holds (storeAfter calls repo) (logs repo) := by
  have hnew : ∀ repo, Holds (storeAfter ([] : List (AppendCall D)) repo) ([] : List (RefHead D)) :=
    fun _ => holds_empty
  have hcalls : NeverTorn ([] ++ calls) := h
  obtain ⟨logs, hholds, _⟩ := hcalls.holds_append hnew
  exact ⟨logs, hholds⟩

/-- Without a torn append, the readers see every append whole or not at all. -/
theorem appendsAtomic_of_neverTorn (h : NeverTorn calls) : AppendsAtomic calls where
  atomic := by
    intro front head writes back heq repo
    rw [heq] at h
    obtain ⟨logs, hs⟩ := h.of_append.holds
    -- a cut append has written nothing, or everything that readers look at
    rcases cutAppend_cases hs head writes with hnone | htorn | ⟨dir, dir', hdir, hdir', hcut, hcas⟩
    · rw [hnone]
      exact .inl (.refl _ (hs repo))
    · exact absurd htorn (h front head writes back rfl)
    · rw [hcut, hcas]
      by_cases hrepo : repo = head.repoId
      · subst hrepo
        rw [Function.update_self, Function.update_self]
        exact .inr (hdir.sameView hdir')
      · rw [Function.update_of_ne hrepo]
        exact .inl (.refl _ (hs repo))
  kept := by
    intro front mid back heq repo head head' hlisted hlisted' hseq
    rw [heq] at h
    have hmid := h.of_append
    obtain ⟨logs, hs⟩ := hmid.of_append.holds
    obtain ⟨logs', hs', hgrows⟩ := hmid.holds_append hs
    have hmem := (hgrows repo).subset ((hs repo).mem_of_listed hlisted)
    exact (hs' repo).chained.eq_of_seq_eq hmem ((hs' repo).mem_of_listed hlisted') hseq

/-- Over every run of appends and interrupted appends, the readers see every append whole or
not at all, and no listed head is replaced, exactly when no append that passes its checks
stops between its log file and its tip file. -/
theorem appendsAtomic_iff : AppendsAtomic calls ↔ NeverTorn calls := by
  refine ⟨fun h => ?_, appendsAtomic_of_neverTorn⟩
  intro front head writes back heq htorn
  induction hlength : front.length using Nat.strong_induction_on generalizing front head writes back
  rename_i n ih
  -- the calls before the first torn append keep the files in order
  have hfront : NeverTorn front := by
    intro before head' writes' rest hsplit htorn'
    refine ih before.length ?_ before head' writes' (rest ++ .cut head writes :: back) ?_ htorn' rfl
    · rw [← hlength, hsplit, List.length_append, List.length_cons]
      omega
    · rw [heq, hsplit, List.append_assoc, List.cons_append]
  obtain ⟨logs, hs⟩ := hfront.holds
  exact not_sameView_of_torn hs htorn (h.atomic front head writes back heq head.repoId)

end Runs

section Sample

attribute [local instance] leadingSha512 leadingDigestBytes

attribute [local instance] noLegacyHeads

/-- A first head of the repository, with the given sealed refs. -/
def sampleFirstHead (encRefs : Bytes) : RefHead Digest where
  repoId := Vector.replicate 32 5
  seq := 1
  encRefs := encRefs
  bundleRoot := Sha512.zero
  dekWrap := [1]
  prevHeadHash := Sha512.zero
  mlsEpoch := 0
  epochTag := List.replicate 32 3
  nonFf := false
  pusherSig := [4]
  adminCosig := none

/-- The repository of the sample. -/
def tornRepo : RepoId := Vector.replicate 32 5

/-- The directory after the first append stopped between its two files. -/
def tornDir : HeadsDir :=
  HeadsDir.empty.write (.log 1 (encodeRefHead (sampleFirstHead [1])))

theorem repoId_sampleFirstHead (encRefs : Bytes) :
    (sampleFirstHead encRefs).repoId = tornRepo := rfl

theorem encodable_sampleFirstHead (b : UInt8) : (sampleFirstHead [b]).Encodable := by
  constructor <;> simp [sampleFirstHead]

theorem chained_sampleFirstHead (b : UInt8) : Chained [sampleFirstHead [b]] :=
  Chained.concat .nil (encodable_sampleFirstHead b) rfl rfl

theorem planAppend_sampleFirstHead (b : UInt8) :
    planAppend HeadsDir.empty (sampleFirstHead [b]) =
      .ok ((sampleFirstHead [b]).hash, appendWrites 1 (encodeRefHead (sampleFirstHead [b]))) :=
  (planAppend_eq_ok_iff holds_empty).mpr ⟨⟨encodable_sampleFirstHead b, rfl, rfl⟩, rfl, rfl⟩

theorem storeAfter_sampleTorn :
    storeAfter [.cut (sampleFirstHead [1]) 1] tornRepo = tornDir := by
  rw [storeAfter, List.foldl_cons, List.foldl_nil, applyCall,
    cutAppend_of_plan (planAppend_sampleFirstHead 1)]
  exact Function.update_self _ _ _

/-- The torn append leaves a log file that the tip does not know. -/
theorem logHolds_tornDir : LogHolds tornDir [sampleFirstHead [1]] := by
  have hwrite : LogHolds (HeadsDir.empty.write (.log (sampleFirstHead [1]).seq
      (encodeRefHead (sampleFirstHead [1])))) ([] ++ [sampleFirstHead [1]]) :=
    holds_empty.toLogHolds.write_log .nil rfl
  exact hwrite

/-- The next append writes the log file again. -/
theorem holds_sampleOverwritten :
    Holds (storeAfter [.cut (sampleFirstHead [1]) 1, .complete (sampleFirstHead [2])] tornRepo)
      [sampleFirstHead [2]] := by
  have hplan : planAppend (storeAfter [.cut (sampleFirstHead [1]) 1]
      (sampleFirstHead [2]).repoId) (sampleFirstHead [2]) =
        .ok ((sampleFirstHead [2]).hash,
          appendWrites 1 (encodeRefHead (sampleFirstHead [2]))) := by
    rw [repoId_sampleFirstHead, storeAfter_sampleTorn]
    exact planAppend_sampleFirstHead 2
  have hdir : storeAfter [.cut (sampleFirstHead [1]) 1, .complete (sampleFirstHead [2])]
      tornRepo = (appendWrites 1 (encodeRefHead (sampleFirstHead [2]))).foldl HeadsDir.write
        tornDir := by
    change (casAppend (storeAfter [.cut (sampleFirstHead [1]) 1]) (sampleFirstHead [2])).2
      tornRepo = _
    rw [casAppend_of_plan hplan, ← storeAfter_sampleTorn]
    exact Function.update_self tornRepo _ (storeAfter [.cut (sampleFirstHead [1]) 1])
  rw [hdir]
  exact {
    chained := chained_sampleFirstHead 2
    tipBin := rfl
    tipJson := rfl
    logJson := rfl
    logBin := by
      intro seq bytes
      change ((HeadsDir.empty.logBin.insert 1 _).insert 1 _)[seq]? = _ ↔ _
      rw [ExtTreeMap.getElem?_insert, ExtTreeMap.getElem?_insert]
      by_cases hone : (1 : UInt64) = seq
      · rw [if_pos (by simp [hone])]
        simp [logEntry, sampleFirstHead, hone]
      · rw [if_neg (by simp [hone]), if_neg (by simp [hone])]
        simp [HeadsDir.empty, logEntry, sampleFirstHead, hone] }

/-- A torn append followed by another append: the log lists the first one's head, which is
not the tip, and then the second one's head under the same number. -/
theorem appends_not_atomic :
    let calls : List (AppendCall Digest) :=
      [.cut (sampleFirstHead [1]) 1, .complete (sampleFirstHead [2])]
    tipOf (storeAfter (calls.take 1) tornRepo) = .ok (none : Option (RefHead Digest)) ∧
      Listed (storeAfter (calls.take 1) tornRepo) (sampleFirstHead [1]) ∧
      Listed (storeAfter calls tornRepo) (sampleFirstHead [2]) ∧
      (sampleFirstHead [1]).seq = (sampleFirstHead [2]).seq ∧
      sampleFirstHead [1] ≠ sampleFirstHead [2] ∧ ¬ AppendsAtomic calls := by
  intro calls
  have htake : calls.take 1 = [.cut (sampleFirstHead [1]) 1] := rfl
  have htorn : Listed (storeAfter (calls.take 1) tornRepo) (sampleFirstHead [1]) := by
    refine ⟨_, 0, _, .refl _, ?_, List.mem_singleton_self _⟩
    rw [htake, storeAfter_sampleTorn]
    exact since_eq_ok (chained_sampleFirstHead 1)
      (logHolds_tornDir.entries_perm (chained_sampleFirstHead 1)) 0
  have hover : Listed (storeAfter calls tornRepo) (sampleFirstHead [2]) :=
    ⟨_, 0, _, .refl _, holds_sampleOverwritten.since (.refl _) 0, List.mem_singleton_self _⟩
  have hne : sampleFirstHead [1] ≠ sampleFirstHead [2] := by
    intro heq
    exact absurd (congrArg RefHead.encRefs heq) (by decide)
  refine ⟨?_, htorn, hover, rfl, hne, fun h => ?_⟩
  · rw [htake, storeAfter_sampleTorn]
    rfl
  · exact hne (h.kept [_] [_] [] rfl tornRepo _ _ htorn hover rfl)

end Sample

end SafeHub
