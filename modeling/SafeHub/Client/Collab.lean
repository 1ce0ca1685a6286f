import Mathlib.Algebra.Group.Nat.Defs
import Mathlib.Data.List.Induction
import SafeHub.Lib.Overlay
import SafeHub.Lib.TreeMaps

/-!
# Issues and pull requests from the inbox

Members send issues, pull requests and comments as messages on the delivery queue, and each member
folds the messages of its inbox into the latest state. A message that changes a record carries all
its attributes; an empty one leaves what the record has.

## Main definitions

* `CollabMessage`, `foldCollabInbox` — the messages and what they are folded into
* `IssueOp`, `PrOp` — the commands that change a record, and the messages they send
* `nextCollabNumber` — the number of a new record

## Main results

* `fieldsAt_foldMessage` — what a message does to the attributes of a record
* `lt_nextCollabNumber` — a new number is above those it is made from
-/

namespace SafeHub

open Std (ExtTreeMap LawfulEqCmp)
open Overlay

/-- A message of the inbox. Of the kinds that the fold passes over, nothing is kept. -/
inductive CollabMessage
  | pullRequest (id headRef baseRef title body state : String)
  | issue (id title body state : String)
  | review (prId verdict body : String)
  | comment (targetKind targetId body : String)
  | other
  deriving DecidableEq, Repr

structure FoldedIssue where
  id : String
  title : String
  body : String
  state : String
  comments : List String
  deriving DecidableEq, Repr

structure FoldedPr where
  id : String
  title : String
  body : String
  state : String
  headRef : String
  baseRef : String
  comments : List String
  reviews : List (String × String)
  deriving DecidableEq, Repr

/-- The latest state of all records, in the order of their ids. -/
structure Folded where
  issues : ExtTreeMap String FoldedIssue compare
  prs : ExtTreeMap String FoldedPr compare

namespace Folded

def empty : Folded := ⟨∅, ∅⟩

/-- Take in one message. -/
def foldMessage (f : Folded) : CollabMessage → Folded
  | .issue id title body state =>
    let e := f.issues[id]?.getD ⟨id, title, body, state, []⟩
    { f with issues := f.issues.insert id { e with
        title := overlay "" e.title title
        body := overlay "" e.body body
        state := overlay "" e.state state } }
  | .pullRequest id headRef baseRef title body state =>
    let e := f.prs[id]?.getD ⟨id, title, body, state, headRef, baseRef, [], []⟩
    { f with prs := f.prs.insert id { e with
        title := overlay "" e.title title
        body := overlay "" e.body body
        state := overlay "" e.state state
        headRef := overlay "" e.headRef headRef
        baseRef := overlay "" e.baseRef baseRef } }
  | .comment targetKind targetId body =>
    if targetKind = "issue" then
      { f with issues := f.issues.modify targetId fun i =>
          { i with comments := i.comments ++ [body] } }
    else if targetKind = "pr" then
      { f with prs := f.prs.modify targetId fun p => { p with comments := p.comments ++ [body] } }
    else f
  | .review prId verdict body =>
    { f with prs := f.prs.modify prId fun p =>
        { p with reviews := p.reviews ++ [(verdict, body)] } }
  | .other => f

/-- The issues, in the order of their ids. -/
def issueList (f : Folded) : List FoldedIssue := f.issues.toList.map Prod.snd

/-- The pull requests, in the order of their ids. -/
def prList (f : Folded) : List FoldedPr := f.prs.toList.map Prod.snd

/-- The issue of an argument, an id with or without a mark before it. -/
def findIssue (f : Folded) (arg : String) : Option FoldedIssue :=
  f.issueList.find? fun i => i.id == arg || "#" ++ i.id == arg

/-- The pull request of an argument. -/
def findPr (f : Folded) (arg : String) : Option FoldedPr :=
  f.prList.find? fun p => p.id == arg || "#" ++ p.id == arg

end Folded

/-- Reduce inbox messages to the latest state of issues and pull requests. -/
def foldCollabInbox (messages : List CollabMessage) : Folded :=
  messages.foldl Folded.foldMessage .empty

/-! ### Commands that change a record -/

/-- A change of an issue. -/
inductive IssueOp
  /-- Close or reopen. -/
  | setState (state : String)
  | edit (title body : Option String)
  deriving DecidableEq, Repr

/-- A change of a pull request. -/
inductive PrOp
  /-- Close, reopen or merge. -/
  | setState (state : String)
  | edit (title body base head : Option String)
  deriving DecidableEq, Repr

/-- The message of a change, from the issue as the sender has it. -/
def IssueOp.message (issue : FoldedIssue) : IssueOp → CollabMessage
  | .setState state => .issue issue.id issue.title "" state
  | .edit title body =>
    .issue issue.id (title.getD issue.title) (body.getD issue.body) issue.state

/-- The message of a change, from the pull request as the sender has it. -/
def PrOp.message (pr : FoldedPr) : PrOp → CollabMessage
  | .setState state => .pullRequest pr.id pr.headRef pr.baseRef pr.title "" state
  | .edit title body base head =>
    .pullRequest pr.id (head.getD pr.headRef) (base.getD pr.baseRef) (title.getD pr.title)
      (body.getD pr.body) pr.state

/-! ### Numbers of new records -/

/-- A 64-bit number: digits, with a plus sign before them or none. -/
def parseU64 (text : List Char) : Option UInt64 :=
  let digits := match text with
    | '+' :: digits => digits
    | digits => digits
  if digits ≠ [] ∧ digits.all Char.isDigit ∧ Nat.ofDigitChars 10 digits 0 < 2 ^ 64 then
    some (UInt64.ofNat (Nat.ofDigitChars 10 digits 0))
  else none

/-- The number in an id, from its first digit on. -/
def numberOf (id : String) : UInt64 :=
  ((parseU64 (id.toList.dropWhile fun c => !c.isDigit)).or (parseU64 id.toList)).getD 0

/-- Next numeric id. The addition wraps in a release build. -/
def nextCollabNumber (ids : List String) : UInt64 := (ids.map numberOf).foldl max 0 + 1

/-- A number as an id. -/
def idOfNumber (n : UInt64) : String := n.toNat.repr

theorem numberOf_idOfNumber (n : UInt64) : numberOf (idOfNumber n) = n := by
  -- a decimal starts with a digit, so nothing is trimmed and there is no sign
  have hdigits : ∀ c ∈ Nat.toDigits 10 n.toNat, c.isDigit = true := fun c hc =>
    Nat.isDigit_of_mem_toDigits (by decide) (by decide) hc
  have hdrop : (Nat.toDigits 10 n.toNat).dropWhile (fun c => !c.isDigit) =
      Nat.toDigits 10 n.toNat := by
    cases hlist : Nat.toDigits 10 n.toNat with
    | nil => rfl
    | cons c rest =>
      rw [List.dropWhile_cons_of_neg]
      rw [hdigits c (by rw [hlist]; exact List.mem_cons_self)]
      decide
  have hsign : ∀ digits, Nat.toDigits 10 n.toNat ≠ '+' :: digits := by
    intro digits hplus
    have hdigit := hdigits '+' (by rw [hplus]; exact List.mem_cons_self)
    cases hdigit
  have hparse : parseU64 (Nat.toDigits 10 n.toNat) = some n := by
    rw [parseU64, Nat.ofDigitChars_ten_toDigits, UInt64.ofNat_toNat]
    · exact if_pos ⟨Nat.toDigits_ne_nil, List.all_eq_true.mpr hdigits, n.toNat_lt⟩
    · exact hsign
  rw [numberOf, idOfNumber, Nat.toList_repr, hdrop, hparse]
  rfl

theorem le_foldl_max_word {n start : UInt64} {numbers : List UInt64} (h : n ≤ start ∨ n ∈ numbers) :
    n ≤ numbers.foldl max start := by
  induction numbers generalizing start with
  | nil => exact h.resolve_right List.not_mem_nil
  | cons first numbers ih =>
    refine ih ?_
    rw [show max start first = if start ≤ first then first else start from rfl]
    rcases h with h | h
    · refine .inl ?_
      split_ifs with hle
      · exact UInt64.le_trans h hle
      · exact h
    · rcases List.mem_cons.mp h with rfl | h
      · refine .inl ?_
        split_ifs with hle
        · exact UInt64.le_refl n
        · exact (UInt64.le_total start n).resolve_left hle
      · exact .inr h

/-- The number after those of some ids is above them, unless they have the last one. -/
theorem lt_nextCollabNumber {ids : List String}
    (hlast : ((ids.map numberOf).foldl max 0).toNat + 1 < 2 ^ 64) :
    (ids.map numberOf).foldl max 0 < nextCollabNumber ids := by
  rw [UInt64.lt_iff_toNat_lt, nextCollabNumber, UInt64.toNat_add, UInt64.toNat_one,
    Nat.mod_eq_of_lt hlast]
  exact Nat.lt_succ_self _

/-! ### Attributes -/

inductive CollabKind
  | issue
  | pr
  deriving DecidableEq, Repr

inductive CollabField
  | title
  | body
  | state
  | headRef
  | baseRef
  deriving DecidableEq, Repr

/-- The attributes of an issue, which has no refs. -/
def FoldedIssue.fields (i : FoldedIssue) : CollabField → String
  | .title => i.title
  | .body => i.body
  | .state => i.state
  | .headRef | .baseRef => ""

def FoldedPr.fields (p : FoldedPr) : CollabField → String
  | .title => p.title
  | .body => p.body
  | .state => p.state
  | .headRef => p.headRef
  | .baseRef => p.baseRef

/-- The attributes of a record. -/
def Folded.fieldsAt (f : Folded) : CollabKind → String → Option (CollabField → String)
  | .issue, id => f.issues[id]?.map FoldedIssue.fields
  | .pr, id => f.prs[id]?.map FoldedPr.fields

/-- The record whose attributes a message carries. -/
def CollabMessage.target : CollabMessage → Option (CollabKind × String)
  | .issue id _ _ _ => some (.issue, id)
  | .pullRequest id _ _ _ _ _ => some (.pr, id)
  | _ => none

/-- The attributes that a message carries. -/
def CollabMessage.fields : CollabMessage → CollabField → String
  | .issue _ title body state, field =>
    match field with
    | .title => title
    | .body => body
    | .state => state
    | .headRef | .baseRef => ""
  | .pullRequest _ headRef baseRef title body state, field =>
    match field with
    | .title => title
    | .body => body
    | .state => state
    | .headRef => headRef
    | .baseRef => baseRef
  | _, _ => ""

section Folding

variable {f : Folded} {m : CollabMessage} {messages more : List CollabMessage}
  {kind : CollabKind} {id : String}

theorem foldCollabInbox_append :
    foldCollabInbox (messages ++ more) = more.foldl Folded.foldMessage (foldCollabInbox messages) :=
  List.foldl_append

theorem foldCollabInbox_concat :
    foldCollabInbox (messages ++ [m]) = (foldCollabInbox messages).foldMessage m :=
  foldCollabInbox_append

/-- A message lays its attributes over those of its record. -/
theorem Folded.fieldsAt_foldMessage (h : m.target = some (kind, id)) :
    (f.foldMessage m).fieldsAt kind id =
      some (lay "" ((f.fieldsAt kind id).getD m.fields) m.fields) := by
  cases m with
  | issue id' title body state =>
    obtain ⟨rfl, rfl⟩ := Prod.mk.inj (Option.some.inj h)
    rw [Folded.foldMessage, Folded.fieldsAt, ExtTreeMap.getElem?_insert_self, Option.map_some,
      Folded.fieldsAt]
    congr 1
    funext field
    cases f.issues[id']? <;> cases field <;> rfl
  | pullRequest id' headRef baseRef title body state =>
    obtain ⟨rfl, rfl⟩ := Prod.mk.inj (Option.some.inj h)
    rw [Folded.foldMessage, Folded.fieldsAt, ExtTreeMap.getElem?_insert_self, Option.map_some,
      Folded.fieldsAt]
    congr 1
    funext field
    cases f.prs[id']? <;> cases field <;> rfl
  | _ => cases h

/-- Changing another record leaves the attributes. -/
theorem map_insert_of_ne {β : Type} {map : ExtTreeMap String β compare} {key : String} {rec : β}
    {fields : β → CollabField → String} (h : key ≠ id) :
    (map.insert key rec)[id]?.map fields = map[id]?.map fields := by
  rw [TreeMaps.getElem?_insert_of_ne h.symm]

/-- Changing what is not an attribute leaves the attributes. -/
theorem map_modify_of_fields {β : Type} {map : ExtTreeMap String β compare} {key : String}
    {change : β → β} {fields : β → CollabField → String}
    (h : ∀ rec, fields (change rec) = fields rec) :
    (map.modify key change)[id]?.map fields = map[id]?.map fields := by
  rw [ExtTreeMap.getElem?_modify]
  split_ifs with hkey
  · rw [LawfulEqCmp.eq_of_compare hkey, Option.map_map]
    congr 1
    funext rec
    exact h rec
  · rfl

/-- Other messages leave the attributes of a record. -/
theorem Folded.fieldsAt_foldMessage_of_ne (h : m.target ≠ some (kind, id)) :
    (f.foldMessage m).fieldsAt kind id = f.fieldsAt kind id := by
  cases m with
  | issue id' title body state =>
    cases kind with
    | pr => rfl
    | issue => exact map_insert_of_ne fun hid => h (by rw [CollabMessage.target, hid])
  | pullRequest id' headRef baseRef title body state =>
    cases kind with
    | issue => rfl
    | pr => exact map_insert_of_ne fun hid => h (by rw [CollabMessage.target, hid])
  | review prId verdict body =>
    cases kind with
    | issue => rfl
    | pr => exact map_modify_of_fields fun _ => rfl
  | comment targetKind targetId body =>
    rw [Folded.foldMessage]
    split_ifs
    · cases kind with
      | issue => exact map_modify_of_fields fun _ => rfl
      | pr => rfl
    · cases kind with
      | issue => rfl
      | pr => exact map_modify_of_fields fun _ => rfl
    · rfl
  | other => rfl

/-! ### Records and their ids -/

/-- Records are kept under their ids. -/
structure Folded.Keyed (f : Folded) : Prop where
  issues : ∀ (id : String) (issue : FoldedIssue), f.issues[id]? = some issue → issue.id = id
  prs : ∀ (id : String) (pr : FoldedPr), f.prs[id]? = some pr → pr.id = id

theorem keyed_insert {β : Type} {map : ExtTreeMap String β compare} {key : String} {rec : β}
    {idOf : β → String} (h : ∀ (id : String) (rec : β), map[id]? = some rec → idOf rec = id)
    (hrec : idOf rec = key) :
    ∀ (id : String) (rec' : β), (map.insert key rec)[id]? = some rec' → idOf rec' = id := by
  intro id rec' hrec'
  rw [ExtTreeMap.getElem?_insert] at hrec'
  split_ifs at hrec' with hkey
  · rw [← Option.some.inj hrec', hrec]
    exact LawfulEqCmp.eq_of_compare hkey
  · exact h id rec' hrec'

theorem keyed_modify {β : Type} {map : ExtTreeMap String β compare} {key : String}
    {change : β → β} {idOf : β → String}
    (h : ∀ (id : String) (rec : β), map[id]? = some rec → idOf rec = id)
    (hchange : ∀ rec, idOf (change rec) = idOf rec) :
    ∀ (id : String) (rec : β), (map.modify key change)[id]? = some rec → idOf rec = id := by
  intro id rec hrec
  rw [ExtTreeMap.getElem?_modify] at hrec
  split_ifs at hrec with hkey
  · obtain ⟨old, hold, rfl⟩ := Option.map_eq_some_iff.mp hrec
    rw [hchange, h key old hold]
    exact LawfulEqCmp.eq_of_compare hkey
  · exact h id rec hrec

theorem Folded.Keyed.foldMessage (h : f.Keyed) (m : CollabMessage) : (f.foldMessage m).Keyed := by
  cases m with
  | issue id title body state =>
    refine ⟨keyed_insert h.issues ?_, h.prs⟩
    cases hissue : f.issues[id]? with
    | none => rfl
    | some issue => exact h.issues id issue hissue
  | pullRequest id headRef baseRef title body state =>
    refine ⟨h.issues, keyed_insert h.prs ?_⟩
    cases hpr : f.prs[id]? with
    | none => rfl
    | some pr => exact h.prs id pr hpr
  | review prId verdict body => exact ⟨h.issues, keyed_modify h.prs fun _ => rfl⟩
  | comment targetKind targetId body =>
    rw [Folded.foldMessage]
    split_ifs
    · exact ⟨keyed_modify h.issues fun _ => rfl, h.prs⟩
    · exact ⟨h.issues, keyed_modify h.prs fun _ => rfl⟩
    · exact h
  | other => exact h

theorem keyed_foldCollabInbox (messages : List CollabMessage) :
    (foldCollabInbox messages).Keyed := by
  induction messages using List.reverseRecOn with
  | nil =>
    constructor
    all_goals
      intro id rec hrec
      rw [foldCollabInbox, List.foldl_nil, Folded.empty, ExtTreeMap.getElem?_empty] at hrec
      cases hrec
  | append_singleton messages m ih =>
    rw [foldCollabInbox_concat]
    exact ih.foldMessage m

/-- A record of a map whose keys are ids is under its own. -/
theorem getElem?_of_mem_records {β : Type} {map : ExtTreeMap String β compare} {rec : β}
    {idOf : β → String} (h : ∀ (id : String) (rec : β), map[id]? = some rec → idOf rec = id)
    (hrec : rec ∈ map.toList.map Prod.snd) : map[idOf rec]? = some rec := by
  obtain ⟨entry, hentry, rfl⟩ := List.mem_map.mp hrec
  have hget := ExtTreeMap.mem_toList_iff_getElem?_eq_some.mp hentry
  rwa [h _ _ hget]

/-- The ids of the records are the keys. -/
theorem mem_map_records_iff {β : Type} {map : ExtTreeMap String β compare} {idOf : β → String}
    (h : ∀ (id : String) (rec : β), map[id]? = some rec → idOf rec = id) :
    id ∈ (map.toList.map Prod.snd).map idOf ↔ (map[id]?).isSome := by
  constructor
  · intro hid
    obtain ⟨rec, hrec, rfl⟩ := List.mem_map.mp hid
    exact Option.isSome_of_eq_some (getElem?_of_mem_records h hrec)
  · intro hsome
    obtain ⟨rec, hrec⟩ := Option.isSome_iff_exists.mp hsome
    refine List.mem_map.mpr ⟨rec, List.mem_map.mpr ⟨(id, rec), ?_, rfl⟩, h id rec hrec⟩
    exact ExtTreeMap.mem_toList_iff_getElem?_eq_some.mpr hrec

/-- A found issue is the one of its id. -/
theorem Folded.Keyed.of_findIssue (h : f.Keyed) {arg : String} {issue : FoldedIssue}
    (hfind : f.findIssue arg = some issue) : f.issues[issue.id]? = some issue :=
  getElem?_of_mem_records h.issues (List.mem_of_find?_eq_some hfind)

/-- A found pull request is the one of its id. -/
theorem Folded.Keyed.of_findPr (h : f.Keyed) {arg : String} {pr : FoldedPr}
    (hfind : f.findPr arg = some pr) : f.prs[pr.id]? = some pr :=
  getElem?_of_mem_records h.prs (List.mem_of_find?_eq_some hfind)

/-- There is a record once there is a message to it. -/
theorem isSome_fieldsAt_iff : ((foldCollabInbox messages).fieldsAt kind id).isSome ↔
    ∃ m ∈ messages, m.target = some (kind, id) := by
  induction messages using List.reverseRecOn with
  | nil =>
    refine iff_of_false ?_ (by simp)
    cases kind <;>
      rw [foldCollabInbox, List.foldl_nil, Folded.empty, Folded.fieldsAt,
        ExtTreeMap.getElem?_empty] <;> simp
  | append_singleton messages m ih =>
    rw [foldCollabInbox_concat]
    by_cases htarget : m.target = some (kind, id)
    · rw [Folded.fieldsAt_foldMessage htarget]
      exact iff_of_true rfl ⟨m, by simp, htarget⟩
    · rw [Folded.fieldsAt_foldMessage_of_ne htarget, ih]
      simp [or_and_right, exists_or, htarget]

/-- Messages to other records leave the attributes of a record. -/
theorem fieldsAt_append_of_ne (h : ∀ m ∈ more, m.target ≠ some (kind, id)) :
    (foldCollabInbox (messages ++ more)).fieldsAt kind id =
      (foldCollabInbox messages).fieldsAt kind id := by
  induction more using List.reverseRecOn with
  | nil => rw [List.append_nil]
  | append_singleton more m ih =>
    rw [← List.append_assoc, foldCollabInbox_concat,
      Folded.fieldsAt_foldMessage_of_ne (h m (by simp))]
    exact ih fun m' hm' => h m' (List.mem_append_left _ hm')

end Folding

end SafeHub
