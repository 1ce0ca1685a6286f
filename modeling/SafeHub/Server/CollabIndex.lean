import SafeHub.Lib.FileEdits
import SafeHub.Lib.Framing
import SafeHub.Lib.Numbered

/-!
# The collaboration index

For its web pages the host keeps the issues and pull requests of a repository in one plaintext
JSON file. A request to open one, to comment on it or to close it reads the file, edits the index
and writes the file again, and holds nothing in between. The clock and the random identifiers are
part of a request; the JSON codec is a parameter.

## Main definitions

* `CollabIndex` — issues and pull requests, and the counters that number them
* `IndexRequest.edit` — the index after a request, and its answer
* `IndexRequest.Recorded` — a request that has succeeded is in the index

## Main results

* `collabIndex_complete` — nothing is lost and no number is given out twice if every request
  writes over what it has read
* `collabIndex_lost_issue` — two issues with one number, of which one is lost
-/

namespace SafeHub

open FileEdits FixedWidth Framing Numbered Run

structure CommentRecord where
  id : String
  author : String
  body : String
  createdAt : String
  deriving DecidableEq, Repr

structure IssueRecord where
  id : UInt64
  title : String
  body : String
  /-- `open` or `closed`. -/
  state : String
  author : String
  createdAt : String
  comments : List CommentRecord
  deriving DecidableEq, Repr

structure PullRequestRecord where
  id : UInt64
  title : String
  body : String
  /-- `open`, `closed` or `merged`. -/
  state : String
  author : String
  base : String
  head : String
  createdAt : String
  comments : List CommentRecord
  deriving DecidableEq, Repr

structure CollabIndex where
  issues : List IssueRecord
  pulls : List PullRequestRecord
  nextIssue : UInt64
  nextPr : UInt64
  deriving DecidableEq, Repr

namespace CollabIndex

/-- The index while there is no file. -/
def fresh : CollabIndex := ⟨[], [], 1, 1⟩

def createIssue (idx : CollabIndex) (author title body now : String) : CollabIndex × IssueRecord :=
  let rec_ : IssueRecord := ⟨idx.nextIssue, title, body, "open", author, now, []⟩
  ({ idx with nextIssue := idx.nextIssue + 1, issues := idx.issues ++ [rec_] }, rec_)

def createPr (idx : CollabIndex) (author title body base head now : String) :
    CollabIndex × PullRequestRecord :=
  let rec_ : PullRequestRecord := ⟨idx.nextPr, title, body, "open", author, base, head, now, []⟩
  ({ idx with nextPr := idx.nextPr + 1, pulls := idx.pulls ++ [rec_] }, rec_)

/-- Change the issue with a number. -/
def modifyIssue (idx : CollabIndex) (id : UInt64) (f : IssueRecord → IssueRecord) :
    Except String (CollabIndex × IssueRecord) :=
  match modifyFirst (fun i => i.id == id) f idx.issues with
  | none => .error "issue not found"
  | some (issues, out) => .ok ({ idx with issues := issues }, out)

/-- Change the pull request with a number. -/
def modifyPr (idx : CollabIndex) (id : UInt64) (f : PullRequestRecord → PullRequestRecord) :
    Except String (CollabIndex × PullRequestRecord) :=
  match modifyFirst (fun i => i.id == id) f idx.pulls with
  | none => .error "pr not found"
  | some (pulls, out) => .ok ({ idx with pulls := pulls }, out)

def setIssueState (idx : CollabIndex) (id : UInt64) (state : String) :
    Except String (CollabIndex × IssueRecord) :=
  idx.modifyIssue id fun issue => { issue with state := state }

def setPrState (idx : CollabIndex) (id : UInt64) (state : String) :
    Except String (CollabIndex × PullRequestRecord) :=
  idx.modifyPr id fun pr => { pr with state := state }

def commentIssue (idx : CollabIndex) (id : UInt64) (comment : CommentRecord) :
    Except String (CollabIndex × IssueRecord) :=
  idx.modifyIssue id fun issue => { issue with comments := issue.comments ++ [comment] }

def commentPr (idx : CollabIndex) (id : UInt64) (comment : CommentRecord) :
    Except String (CollabIndex × PullRequestRecord) :=
  idx.modifyPr id fun pr => { pr with comments := pr.comments ++ [comment] }

end CollabIndex

/-- A request on the index, with what it draws. -/
inductive IndexRequest
  | createIssue (author title body now : String)
  | createPr (author title body base head now : String)
  | setIssueState (id : UInt64) (state : String)
  | setPrState (id : UInt64) (state : String)
  | commentIssue (id : UInt64) (author body uuid now : String)
  | commentPr (id : UInt64) (author body uuid now : String)
  deriving DecidableEq, Repr

/-- The record a request returns. -/
inductive IndexAnswer
  | issue (rec_ : IssueRecord)
  | pull (rec_ : PullRequestRecord)
  deriving DecidableEq, Repr

/-- The kinds of records that are numbered, each by its own counter. -/
inductive IndexKind
  | issue
  | pull
  deriving DecidableEq, Repr

def answerIssue (p : CollabIndex × IssueRecord) : CollabIndex × IndexAnswer := (p.1, .issue p.2)

def answerPull (p : CollabIndex × PullRequestRecord) : CollabIndex × IndexAnswer :=
  (p.1, .pull p.2)

namespace IndexRequest

/-- The index after a request, and its answer. -/
def edit (req : IndexRequest) (idx : CollabIndex) : Except String (CollabIndex × IndexAnswer) :=
  match req with
  | .createIssue author title body now =>
    .ok (answerIssue (idx.createIssue author title body now))
  | .createPr author title body base head now =>
    .ok (answerPull (idx.createPr author title body base head now))
  | .setIssueState id state => (idx.setIssueState id state).map answerIssue
  | .setPrState id state => (idx.setPrState id state).map answerPull
  | .commentIssue id author body uuid now =>
    (idx.commentIssue id ⟨uuid, author, body, now⟩).map answerIssue
  | .commentPr id author body uuid now =>
    (idx.commentPr id ⟨uuid, author, body, now⟩).map answerPull

/-- The number that a request has given to a new record. -/
def number (req : IndexRequest) (answer : IndexAnswer) : Option (IndexKind × UInt64) :=
  match req, answer with
  | .createIssue .., .issue rec_ => some (.issue, rec_.id)
  | .createPr .., .pull rec_ => some (.pull, rec_.id)
  | _, _ => none

/-- A record that was created, or a comment, is in the index. -/
def Recorded (req : IndexRequest) (answer : IndexAnswer) (idx : CollabIndex) : Prop :=
  match req with
  | .createIssue author title body now => ∃ i ∈ idx.issues, i.author = author ∧ i.title = title ∧
      i.body = body ∧ i.createdAt = now ∧ req.number answer = some (.issue, i.id)
  | .createPr author title body base head now => ∃ p ∈ idx.pulls, p.author = author ∧
      p.title = title ∧ p.body = body ∧ p.base = base ∧ p.head = head ∧ p.createdAt = now ∧
      req.number answer = some (.pull, p.id)
  | .commentIssue id author body uuid now =>
    ∃ i ∈ idx.issues, i.id = id ∧ ⟨uuid, author, body, now⟩ ∈ i.comments
  | .commentPr id author body uuid now =>
    ∃ p ∈ idx.pulls, p.id = id ∧ ⟨uuid, author, body, now⟩ ∈ p.comments
  | .setIssueState _ _ | .setPrState _ _ => True

/-- The counter that a request draws a number from is not at its end. -/
def Drawable (req : IndexRequest) (idx : CollabIndex) : Prop :=
  match req with
  | .createIssue .. => idx.nextIssue.toNat + 1 < 2 ^ 64
  | .createPr .. => idx.nextPr.toNat + 1 < 2 ^ 64
  | _ => True

end IndexRequest

/-! ### A byte form of the index -/

namespace CollabIndex

def wordCode : Code UInt64 :=
  Code.byte.list.through (fun n => leBytes 8 n.toNat) (fun bytes => UInt64.ofNat (readLE bytes))
    fun n => by
      have hlt : n.toNat < 256 ^ 8 := n.toNat_lt
      rw [readLE_leBytes, Nat.mod_eq_of_lt hlt, UInt64.ofNat_toNat]

def commentCode : Code CommentRecord :=
  (Code.string.pair (Code.string.pair (Code.string.pair Code.string))).through
    (fun c => (c.id, c.author, c.body, c.createdAt)) (fun p => ⟨p.1, p.2.1, p.2.2.1, p.2.2.2⟩)
    fun _ => rfl

def issueCode : Code IssueRecord :=
  (wordCode.pair (Code.string.pair (Code.string.pair (Code.string.pair (Code.string.pair
    (Code.string.pair commentCode.list)))))).through
    (fun i => (i.id, i.title, i.body, i.state, i.author, i.createdAt, i.comments))
    (fun p => ⟨p.1, p.2.1, p.2.2.1, p.2.2.2.1, p.2.2.2.2.1, p.2.2.2.2.2.1, p.2.2.2.2.2.2⟩)
    fun _ => rfl

def pullCode : Code PullRequestRecord :=
  (wordCode.pair (Code.string.pair (Code.string.pair (Code.string.pair (Code.string.pair
    (Code.string.pair (Code.string.pair (Code.string.pair commentCode.list)))))))).through
    (fun p => (p.id, p.title, p.body, p.state, p.author, p.base, p.head, p.createdAt, p.comments))
    (fun p => ⟨p.1, p.2.1, p.2.2.1, p.2.2.2.1, p.2.2.2.2.1, p.2.2.2.2.2.1, p.2.2.2.2.2.2.1,
      p.2.2.2.2.2.2.2.1, p.2.2.2.2.2.2.2.2⟩)
    fun _ => rfl

def indexCode : Code CollabIndex :=
  (issueCode.list.pair (pullCode.list.pair (wordCode.pair wordCode))).through
    (fun idx => (idx.issues, idx.pulls, idx.nextIssue, idx.nextPr))
    (fun p => ⟨p.1, p.2.1, p.2.2.1, p.2.2.2⟩) fun _ => rfl

/-- The fields of the index, one after the other. -/
def framed : Codec CollabIndex :=
  .ofCode indexCode fun idx => List.append_ne_nil_of_left_ne_nil
    (List.length_pos_iff.mp (Nat.zero_lt_of_lt (Code.length_lt_writeList issueCode idx.issues))) _

end CollabIndex

/-! ### What a request makes of the index -/

/-- The numbers of the records of each kind are different and below their counter. -/
structure CollabIndex.WellNumbered (idx : CollabIndex) : Prop where
  issues : Numbers (idx.issues.map (·.id)) idx.nextIssue
  pulls : Numbers (idx.pulls.map (·.id)) idx.nextPr

def CollabIndex.Holds (idx : CollabIndex) : IndexKind × UInt64 → Prop
  | (.issue, id) => id ∈ idx.issues.map (·.id)
  | (.pull, id) => id ∈ idx.pulls.map (·.id)

/-- What can become of an issue: its state changes, and it gets comments. -/
structure IssueRecord.Becomes (old new : IssueRecord) : Prop where
  id : new.id = old.id
  title : new.title = old.title
  body : new.body = old.body
  author : new.author = old.author
  createdAt : new.createdAt = old.createdAt
  comments : old.comments ⊆ new.comments

/-- What can become of a pull request. -/
structure PullRequestRecord.Becomes (old new : PullRequestRecord) : Prop where
  id : new.id = old.id
  title : new.title = old.title
  body : new.body = old.body
  author : new.author = old.author
  base : new.base = old.base
  head : new.head = old.head
  createdAt : new.createdAt = old.createdAt
  comments : old.comments ⊆ new.comments

/-- An index that has all of another. -/
structure CollabIndex.Extends (old new : CollabIndex) : Prop where
  issues : Grows IssueRecord.Becomes old.issues new.issues
  pulls : Grows PullRequestRecord.Becomes old.pulls new.pulls

instance (req : IndexRequest) (idx : CollabIndex) : Decidable (req.Drawable idx) :=
  match req with
  | .createIssue .. => inferInstanceAs (Decidable (idx.nextIssue.toNat + 1 < 2 ^ 64))
  | .createPr .. => inferInstanceAs (Decidable (idx.nextPr.toNat + 1 < 2 ^ 64))
  | .setIssueState .. | .setPrState .. | .commentIssue .. | .commentPr .. => .isTrue trivial

variable {idx new : CollabIndex} {req : IndexRequest} {answer : IndexAnswer} {id : UInt64}

theorem IssueRecord.Becomes.refl (i : IssueRecord) : i.Becomes i :=
  ⟨rfl, rfl, rfl, rfl, rfl, List.Subset.refl _⟩

theorem PullRequestRecord.Becomes.refl (p : PullRequestRecord) : p.Becomes p :=
  ⟨rfl, rfl, rfl, rfl, rfl, rfl, rfl, List.Subset.refl _⟩

namespace CollabIndex

theorem WellNumbered.fresh : CollabIndex.fresh.WellNumbered := ⟨.nil, .nil⟩

theorem WellNumbered.createIssue (h : idx.WellNumbered) (hnext : idx.nextIssue.toNat + 1 < 2 ^ 64)
    (author title body now : String) :
    (idx.createIssue author title body now).1.WellNumbered where
  issues := by
    rw [CollabIndex.createIssue, List.map_append]
    exact h.issues.concat hnext
  pulls := h.pulls

theorem WellNumbered.createPr (h : idx.WellNumbered) (hnext : idx.nextPr.toNat + 1 < 2 ^ 64)
    (author title body base head now : String) :
    (idx.createPr author title body base head now).1.WellNumbered where
  issues := h.issues
  pulls := by
    rw [CollabIndex.createPr, List.map_append]
    exact h.pulls.concat hnext

theorem extends_createIssue (idx : CollabIndex) (author title body now : String) :
    idx.Extends (idx.createIssue author title body now).1 :=
  ⟨.concat IssueRecord.Becomes.refl _ _, .refl PullRequestRecord.Becomes.refl _⟩

theorem extends_createPr (idx : CollabIndex) (author title body base head now : String) :
    idx.Extends (idx.createPr author title body base head now).1 :=
  ⟨.refl IssueRecord.Becomes.refl _, .concat PullRequestRecord.Becomes.refl _ _⟩

/-- A change of an issue that is found. -/
theorem modifyIssue_eq_ok {f : IssueRecord → IssueRecord} {out : IssueRecord}
    (h : idx.modifyIssue id f = .ok (new, out)) (hf : ∀ i : IssueRecord, i.Becomes (f i)) :
    (idx.WellNumbered → new.WellNumbered) ∧ idx.Extends new ∧
      ∃ i, i.id = id ∧ out = f i ∧ out ∈ new.issues := by
  rw [modifyIssue] at h
  split at h
  · cases h
  next issues out' hmodify =>
    obtain ⟨rfl, rfl⟩ := Prod.mk.inj (Except.ok.inj h)
    refine ⟨fun hwell => ⟨?_, hwell.pulls⟩, ⟨.of_modifyFirst hmodify IssueRecord.Becomes.refl hf,
      .refl PullRequestRecord.Becomes.refl _⟩, ?_⟩
    · dsimp only
      rw [map_modifyFirst hmodify fun i => (hf i).id]
      exact hwell.issues
    · obtain ⟨hmem, i, hi, hout⟩ := mem_modifyFirst hmodify
      exact ⟨i, beq_iff_eq.mp hi, hout, hmem⟩

/-- A change of a pull request that is found. -/
theorem modifyPr_eq_ok {f : PullRequestRecord → PullRequestRecord} {out : PullRequestRecord}
    (h : idx.modifyPr id f = .ok (new, out)) (hf : ∀ p : PullRequestRecord, p.Becomes (f p)) :
    (idx.WellNumbered → new.WellNumbered) ∧ idx.Extends new ∧
      ∃ p, p.id = id ∧ out = f p ∧ out ∈ new.pulls := by
  rw [modifyPr] at h
  split at h
  · cases h
  next pulls out' hmodify =>
    obtain ⟨rfl, rfl⟩ := Prod.mk.inj (Except.ok.inj h)
    refine ⟨fun hwell => ⟨hwell.issues, ?_⟩, ⟨.refl IssueRecord.Becomes.refl _,
      .of_modifyFirst hmodify PullRequestRecord.Becomes.refl hf⟩, ?_⟩
    · dsimp only
      rw [map_modifyFirst hmodify fun p => (hf p).id]
      exact hwell.pulls
    · obtain ⟨hmem, p, hp, hout⟩ := mem_modifyFirst hmodify
      exact ⟨p, beq_iff_eq.mp hp, hout, hmem⟩

end CollabIndex

/-- What a request does to the index: it keeps what is there and adds its own, under a number that
no record has. -/
structure IndexRequest.EditSpec (req : IndexRequest) (idx new : CollabIndex)
    (answer : IndexAnswer) : Prop where
  wellNumbered : new.WellNumbered
  extended : idx.Extends new
  recorded : req.Recorded answer new
  unused : ∀ n, req.number answer = some n → ¬idx.Holds n

theorem exists_of_map_eq_ok {α β : Type} {x : Except String α} {f : α → β} {b : β}
    (h : x.map f = .ok b) : ∃ a, x = .ok a ∧ f a = b := by
  cases x with
  | error e => cases h
  | ok a => exact ⟨a, rfl, Except.ok.inj h⟩

/-- A request that changes one issue. -/
theorem IndexRequest.EditSpec.of_modifyIssue {f : IssueRecord → IssueRecord}
    (h : (idx.modifyIssue id f).map answerIssue = .ok (new, answer)) (hwell : idx.WellNumbered)
    (hf : ∀ i : IssueRecord, i.Becomes (f i)) (hnumber : req.number answer = none)
    (hrecorded : ∀ i, i.id = id → f i ∈ new.issues → req.Recorded answer new) :
    req.EditSpec idx new answer := by
  obtain ⟨⟨changed, out⟩, hmodify, heq⟩ := exists_of_map_eq_ok h
  obtain ⟨rfl, rfl⟩ := Prod.mk.inj heq
  obtain ⟨hnumbered, hextends, i, hi, rfl, hmem⟩ := CollabIndex.modifyIssue_eq_ok hmodify hf
  refine ⟨hnumbered hwell, hextends, hrecorded i hi hmem, fun n hn => ?_⟩
  rw [hnumber] at hn
  cases hn

/-- A request that changes one pull request. -/
theorem IndexRequest.EditSpec.of_modifyPr {f : PullRequestRecord → PullRequestRecord}
    (h : (idx.modifyPr id f).map answerPull = .ok (new, answer)) (hwell : idx.WellNumbered)
    (hf : ∀ p : PullRequestRecord, p.Becomes (f p)) (hnumber : req.number answer = none)
    (hrecorded : ∀ p, p.id = id → f p ∈ new.pulls → req.Recorded answer new) :
    req.EditSpec idx new answer := by
  obtain ⟨⟨changed, out⟩, hmodify, heq⟩ := exists_of_map_eq_ok h
  obtain ⟨rfl, rfl⟩ := Prod.mk.inj heq
  obtain ⟨hnumbered, hextends, p, hp, rfl, hmem⟩ := CollabIndex.modifyPr_eq_ok hmodify hf
  refine ⟨hnumbered hwell, hextends, hrecorded p hp hmem, fun n hn => ?_⟩
  rw [hnumber] at hn
  cases hn

theorem IndexRequest.edit_spec (h : req.edit idx = .ok (new, answer)) (hwell : idx.WellNumbered)
    (hdraw : req.Drawable idx) : req.EditSpec idx new answer := by
  cases req with
  | createIssue author title body now =>
    -- the counter is a number that no issue has
    obtain ⟨rfl, rfl⟩ := Prod.mk.inj (Except.ok.inj h)
    refine ⟨hwell.createIssue hdraw .., idx.extends_createIssue .., ?_, ?_⟩
    · exact ⟨_, List.mem_append_right _ (List.mem_singleton_self _), rfl, rfl, rfl, rfl, rfl⟩
    · rintro _ ⟨⟩
      exact hwell.issues.next_not_mem
  | createPr author title body base head now =>
    obtain ⟨rfl, rfl⟩ := Prod.mk.inj (Except.ok.inj h)
    refine ⟨hwell.createPr hdraw .., idx.extends_createPr .., ?_, ?_⟩
    · exact ⟨_, List.mem_append_right _ (List.mem_singleton_self _), rfl, rfl, rfl, rfl, rfl, rfl,
        rfl⟩
    · rintro _ ⟨⟩
      exact hwell.pulls.next_not_mem
  | setIssueState id state =>
    -- a change of state is none of what `Becomes` keeps
    refine .of_modifyIssue h hwell (fun i => ?_) rfl fun _ _ _ => trivial
    exact ⟨rfl, rfl, rfl, rfl, rfl, List.Subset.refl _⟩
  | setPrState id state =>
    refine .of_modifyPr h hwell (fun p => ?_) rfl fun _ _ _ => trivial
    exact ⟨rfl, rfl, rfl, rfl, rfl, rfl, rfl, List.Subset.refl _⟩
  | commentIssue id author body uuid now =>
    refine .of_modifyIssue h hwell (fun i => ?_) rfl fun i hi hmem => ⟨_, hmem, hi, ?_⟩
    · exact ⟨rfl, rfl, rfl, rfl, rfl, List.subset_append_left _ _⟩
    · exact List.mem_append_right _ (List.mem_singleton_self _)
  | commentPr id author body uuid now =>
    refine .of_modifyPr h hwell (fun p => ?_) rfl fun p hp hmem => ⟨_, hmem, hp, ?_⟩
    · exact ⟨rfl, rfl, rfl, rfl, rfl, rfl, rfl, List.subset_append_left _ _⟩
    · exact List.mem_append_right _ (List.mem_singleton_self _)

/-- What is in the index stays. -/
theorem IndexRequest.Recorded.mono (h : req.Recorded answer idx) (hextends : idx.Extends new) :
    req.Recorded answer new := by
  cases req with
  | createIssue author title body now =>
    obtain ⟨i, hi, hauthor, htitle, hbody, hnow, hnumber⟩ := h
    obtain ⟨j, hj, hbecomes⟩ := hextends.issues i hi
    exact ⟨j, hj, hbecomes.author.trans hauthor, hbecomes.title.trans htitle,
      hbecomes.body.trans hbody, hbecomes.createdAt.trans hnow, hbecomes.id ▸ hnumber⟩
  | createPr author title body base head now =>
    obtain ⟨p, hp, hauthor, htitle, hbody, hbase, hhead, hnow, hnumber⟩ := h
    obtain ⟨q, hq, hbecomes⟩ := hextends.pulls p hp
    exact ⟨q, hq, hbecomes.author.trans hauthor, hbecomes.title.trans htitle,
      hbecomes.body.trans hbody, hbecomes.base.trans hbase, hbecomes.head.trans hhead,
      hbecomes.createdAt.trans hnow, hbecomes.id ▸ hnumber⟩
  | setIssueState id state => trivial
  | setPrState id state => trivial
  | commentIssue id author body uuid now =>
    obtain ⟨i, hi, hid, hcomment⟩ := h
    obtain ⟨j, hj, hbecomes⟩ := hextends.issues i hi
    exact ⟨j, hj, hbecomes.id.trans hid, hbecomes.comments hcomment⟩
  | commentPr id author body uuid now =>
    obtain ⟨p, hp, hid, hcomment⟩ := h
    obtain ⟨q, hq, hbecomes⟩ := hextends.pulls p hp
    exact ⟨q, hq, hbecomes.id.trans hid, hbecomes.comments hcomment⟩

/-- A number that was given to a record is the number of one. -/
theorem IndexRequest.Recorded.holds (h : req.Recorded answer idx) {n : IndexKind × UInt64}
    (hn : req.number answer = some n) : idx.Holds n := by
  cases req with
  | createIssue author title body now =>
    obtain ⟨i, hi, -, -, -, -, hnumber⟩ := h
    rw [hnumber] at hn
    obtain rfl := Option.some.inj hn
    exact List.mem_map_of_mem hi
  | createPr author title body base head now =>
    obtain ⟨p, hp, -, -, -, -, -, -, hnumber⟩ := h
    rw [hnumber] at hn
    obtain rfl := Option.some.inj hn
    exact List.mem_map_of_mem hp
  | _ => cases hn

/-! ### Requests on one index -/

variable {ι : Type}

/-- The requests that have succeeded are in the index, and no number is given out twice. -/
structure CollabIndex.Accounts (req : ι → IndexRequest) (idx : CollabIndex)
    (answer : ι → Option IndexAnswer) : Prop where
  wellNumbered : idx.WellNumbered
  recorded : ∀ i a, answer i = some a → (req i).Recorded a idx
  distinct : ∀ i j a b n, i ≠ j → answer i = some a → answer j = some b →
    (req i).number a = some n → (req j).number b ≠ some n

variable [DecidableEq ι]

/-- One more request takes effect. -/
theorem CollabIndex.kept_accounts (req : ι → IndexRequest) :
    Kept (fun i => (req i).edit) (fun i => (req i).Drawable) (CollabIndex.Accounts req) := by
  intro idx answers i new a h hi hdraw hedit
  have hspec := (req i).edit_spec hedit h.wellNumbered hdraw
  refine ⟨hspec.wellNumbered, ?_, fun j k b c n hjk hb hc hn => ?_⟩
  · -- what was recorded before stays
    refine forall_update_some (fun j b hb => ?_) i hspec.recorded
    exact (h.recorded j b hb).mono hspec.extended
  · by_cases hj : j = i
    · subst hj
      rw [Function.update_self] at hb
      rw [Function.update_of_ne hjk.symm] at hc
      obtain rfl := Option.some.inj hb
      -- the number is new, so it is not that of an earlier record
      intro hm
      exact hspec.unused n hn ((h.recorded k c hc).holds hm)
    · rw [Function.update_of_ne hj] at hb
      by_cases hk : k = i
      · subst hk
        rw [Function.update_self] at hc
        obtain rfl := Option.some.inj hc
        intro hm
        exact hspec.unused n hm ((h.recorded j b hb).holds hn)
      · rw [Function.update_of_ne hk] at hc
        exact h.distinct j k b c n hjk hb hc hn

/-- One file access of a request. -/
def indexStep (codec : Codec CollabIndex) (req : ι → IndexRequest) :
    State CollabIndex IndexAnswer ι → ι × Access → Option (State CollabIndex IndexAnswer ι) :=
  step codec .fresh fun i => (req i).edit

/-- A request begins to write only if the file is what it has read, a write that has begun does
not fail, and a number is drawn only from a counter that does not overflow. -/
def IndexFits (codec : Codec CollabIndex) (req : ι → IndexRequest) :
    State CollabIndex IndexAnswer ι → ι × Access → Prop :=
  Fits codec .fresh fun i => (req i).Drawable

instance (codec : Codec CollabIndex) (req : ι → IndexRequest)
    (s : State CollabIndex IndexAnswer ι) (op : ι × Access) :
    Decidable (IndexFits codec req s op) :=
  inferInstanceAs (Decidable (Fits codec .fresh (fun i => (req i).Drawable) s op))

/-- In every run of requests whose steps fit, whenever no request is in the middle of a write, the
index has every issue, pull request and comment of a request that succeeded, and no two records of
a kind and no two successful requests have one number. -/
theorem collabIndex_complete (codec : Codec CollabIndex) (req : ι → IndexRequest)
    {file : Option Bytes} {s : State CollabIndex IndexAnswer ι} {ops : List (ι × Access)}
    (hload : load codec .fresh file = .ok idx) (hwell : idx.WellNumbered)
    (hfits : Along (indexStep codec req) (IndexFits codec req) (.start file) ops)
    (hrun : run (indexStep codec req) (.start file) ops = some s) (hquiet : s.Quiet) :
    ∃ final, load codec .fresh s.file = .ok final ∧ final.Accounts req s.answer := by
  refine run_kept (CollabIndex.kept_accounts req) ⟨hwell, ?_, ?_⟩ hload hfits hrun hquiet
  · intro i a ha
    cases ha
  · intro i j a b n hij ha
    cases ha

/-- Alice opens an issue, and Bob comments on it. -/
def openAndComment : Bool → IndexRequest
  | false => .createIssue "alice" "leak" "of memory" "t0"
  | true => .commentIssue 1 "bob" "confirmed" "u1" "t1"

/-- One request after the other. -/
def separateAccesses : List (Bool × Access) :=
  [(false, .go 0), (false, .go 0), (false, .go 999), (true, .go 0), (true, .go 0), (true, .go 999)]

theorem collabIndex_complete_comment :
    ∃ s, run (indexStep CollabIndex.framed openAndComment) (.start none) separateAccesses = some s ∧
      (s.answer true).isSome ∧
      ∃ final, load CollabIndex.framed CollabIndex.fresh s.file = .ok final ∧
        final.Accounts openAndComment s.answer := by
  have hend : (run (indexStep CollabIndex.framed openAndComment) (.start none) separateAccesses).any
      (fun s => (s.answer true).isSome ∧ ∀ i, ¬(s.phase i).Writes) = true := by
    decide +kernel
  obtain ⟨s, hrun, hs⟩ := (Option.any_eq_true ..).mp hend
  obtain ⟨hanswer, hquiet⟩ := of_decide_eq_true hs
  exact ⟨s, hrun, hanswer, collabIndex_complete CollabIndex.framed openAndComment rfl .fresh
    (by decide +kernel) hrun hquiet⟩

/-- Alice and Bob open an issue each. -/
def openTwo : Bool → IndexRequest
  | false => .createIssue "alice" "leak" "of memory" "t0"
  | true => .createIssue "bob" "typo" "in the manual" "t1"

/-- The second request reads before the first writes. -/
def mixedAccesses : List (Bool × Access) :=
  [(false, .go 0), (true, .go 0), (false, .go 0), (false, .go 999), (true, .go 0), (true, .go 999)]

/-- Both succeed and answer an issue with number 1, and Bob's is all that the index has in the
end. -/
theorem collabIndex_lost_issue :
    ∃ s, run (indexStep CollabIndex.framed openTwo) (.start none) mixedAccesses = some s ∧
      s.answer false = some (.issue ⟨1, "leak", "of memory", "open", "alice", "t0", []⟩) ∧
      s.answer true = some (.issue ⟨1, "typo", "in the manual", "open", "bob", "t1", []⟩) ∧
      load CollabIndex.framed CollabIndex.fresh s.file =
        .ok ⟨[⟨1, "typo", "in the manual", "open", "bob", "t1", []⟩], [], 2, 1⟩ ∧
      ¬∃ final, load CollabIndex.framed CollabIndex.fresh s.file = .ok final ∧
        final.Accounts openTwo s.answer := by
  have hend : (run (indexStep CollabIndex.framed openTwo) (.start none) mixedAccesses).any (fun s =>
      s.answer false = some (.issue ⟨1, "leak", "of memory", "open", "alice", "t0", []⟩) ∧
      s.answer true = some (.issue ⟨1, "typo", "in the manual", "open", "bob", "t1", []⟩) ∧
      load CollabIndex.framed CollabIndex.fresh s.file =
        .ok ⟨[⟨1, "typo", "in the manual", "open", "bob", "t1", []⟩], [], 2, 1⟩) = true := by
    decide +kernel
  obtain ⟨s, hrun, hs⟩ := (Option.any_eq_true ..).mp hend
  obtain ⟨halice, hbob, hload⟩ := of_decide_eq_true hs
  refine ⟨s, hrun, halice, hbob, hload, ?_⟩
  intro ⟨final, _, haccounts⟩
  exact haccounts.distinct false true _ _ (.issue, 1) (by decide) halice hbob rfl rfl

end SafeHub
