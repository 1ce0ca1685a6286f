import SafeHub.Client.Collab

/-!
# Two changes of one record

Two members change different attributes of an issue or a pull request: one changes its state, the
other edits it. Each builds its message from its own inbox cache, and the queue has the messages
one after the other, with what others send between and behind them.

## Main definitions

* `RecordOp.carry` — which attributes a change gives, repeats and leaves blank
* `TwoEdits` — two changes of one record
* `TwoEdits.BothEffects` — the record has both effects in the end
* `TwoEdits.Unspoiled` — the second message does not bring back what the first has changed

## Main results

* `bothEffects_iff` — when both effects are there
* `not_bothEffects_stale` — an edit that reopens, and a close that renames
-/

namespace SafeHub

open Overlay

inductive RecordOp
  | issue (op : IssueOp)
  | pr (op : PrOp)
  deriving DecidableEq, Repr

namespace RecordOp

def kind : RecordOp → CollabKind
  | .issue _ => .issue
  | .pr _ => .pr

/-- Whether an operation closes, reopens or merges. -/
def ChangesState : RecordOp → Prop
  | .issue (.setState _) | .pr (.setState _) => True
  | .issue (.edit _ _) | .pr (.edit _ _ _ _) => False

/-- The message that is sent from an inbox cache, if it has the record of the argument. -/
def send (cache : List CollabMessage) (arg : String) : RecordOp → Option CollabMessage
  | .issue op => ((foldCollabInbox cache).findIssue arg).map fun issue => op.message issue
  | .pr op => ((foldCollabInbox cache).findPr arg).map fun pr => op.message pr

/-- What an operation does with each attribute. -/
def carry : RecordOp → CollabField → Carry String
  | .issue (.setState state), field =>
    match field with
    | .state => .given state
    | .title => .seen
    | .body | .headRef | .baseRef => .blank
  | .issue (.edit title body), field =>
    match field with
    | .title => .ofOption title
    | .body => .ofOption body
    | .state => .seen
    | .headRef | .baseRef => .blank
  | .pr (.setState state), field =>
    match field with
    | .state => .given state
    | .title | .headRef | .baseRef => .seen
    | .body => .blank
  | .pr (.edit title body base head), field =>
    match field with
    | .title => .ofOption title
    | .body => .ofOption body
    | .headRef => .ofOption head
    | .baseRef => .ofOption base
    | .state => .seen

end RecordOp

variable {op op' : RecordOp} {cache : List CollabMessage} {arg : String} {m : CollabMessage}

/-- The messages are those of the operations, from the record of the cache. -/
theorem RecordOp.send_eq_some (h : op.send cache arg = some m) :
    ∃ id view, m.target = some (op.kind, id) ∧
      (foldCollabInbox cache).fieldsAt op.kind id = some view ∧
      m.fields = message "" op.carry view := by
  have hkeyed := keyed_foldCollabInbox cache
  cases op with
  | issue op =>
    obtain ⟨issue, hfind, rfl⟩ := Option.map_eq_some_iff.mp h
    refine ⟨issue.id, issue.fields, ?_, ?_, ?_⟩
    · cases op <;> rfl
    · rw [RecordOp.kind, Folded.fieldsAt, hkeyed.of_findIssue hfind, Option.map_some]
    · funext field
      cases op with
      | setState state => cases field <;> rfl
      | edit title body => cases field <;> first | rfl | exact (Carry.value_ofOption _).symm
  | pr op =>
    obtain ⟨pr, hfind, rfl⟩ := Option.map_eq_some_iff.mp h
    refine ⟨pr.id, pr.fields, ?_, ?_, ?_⟩
    · cases op <;> rfl
    · rw [RecordOp.kind, Folded.fieldsAt, hkeyed.of_findPr hfind, Option.map_some]
    · funext field
      cases op with
      | setState state => cases field <;> rfl
      | edit title body base head =>
        cases field <;> first | rfl | exact (Carry.value_ofOption _).symm

/-- A change of the state gives no other attribute, and an edit does not give the state. -/
theorem RecordOp.given_state_iff {field : CollabField} {value : String}
    (h : op.carry field = .given value) : op.ChangesState ↔ field = .state := by
  cases op with
  | issue op => cases op <;> cases field <;> simp_all [RecordOp.carry, RecordOp.ChangesState]
  | pr op => cases op <;> cases field <;> simp_all [RecordOp.carry, RecordOp.ChangesState]

/-! ### Two changes -/

/-- Two changes of one record, of which one changes its state and the other edits it, in the order
of their messages on the queue. A cache has some of the messages before, of any age. -/
structure TwoEdits where
  base : List CollabMessage
  /-- What others send between the two messages. -/
  mid : List CollabMessage
  /-- What others send behind them. -/
  rest : List CollabMessage
  firstOp : RecordOp
  secondOp : RecordOp
  firstCache : List CollabMessage
  secondCache : List CollabMessage
  firstArg : String
  secondArg : String
  first : CollabMessage
  second : CollabMessage
  firstAge : firstCache.Sublist base
  secondAge : secondCache.Sublist (base ++ first :: mid)
  firstSent : firstOp.send firstCache firstArg = some first
  secondSent : secondOp.send secondCache secondArg = some second
  same : second.target = first.target
  different : ¬ (firstOp.ChangesState ↔ secondOp.ChangesState)
  midOthers : ∀ m ∈ mid, m.target ≠ first.target
  restOthers : ∀ m ∈ rest, m.target ≠ first.target

namespace TwoEdits

variable (e : TwoEdits) {id : String} {record view view' : CollabField → String}

def queue : List CollabMessage := e.base ++ e.first :: e.mid ++ e.second :: e.rest

/-- The record has both effects in the end. -/
def BothEffects : Prop :=
  ∃ id fields, e.first.target = some (e.firstOp.kind, id) ∧
    (foldCollabInbox e.queue).fieldsAt e.firstOp.kind id = some fields ∧
    HasEffect e.firstOp.carry fields ∧ HasEffect e.secondOp.carry fields

/-- What the first operation sets, the second message leaves blank, or the second sender has seen it
as it is set (or empty). What is set to the empty text was empty, and the first message does not
fill it. -/
def Unspoiled : Prop :=
  ∀ id record view view', e.first.target = some (e.firstOp.kind, id) →
    (foldCollabInbox e.base).fieldsAt e.firstOp.kind id = some record →
    (foldCollabInbox e.firstCache).fieldsAt e.firstOp.kind id = some view →
    (foldCollabInbox e.secondCache).fieldsAt e.firstOp.kind id = some view' →
    Overlay.Unspoiled "" e.firstOp.carry e.secondOp.carry record view view'

/-- The operations give different attributes. -/
theorem disjoint : ∀ field value value', e.firstOp.carry field = .given value →
    e.secondOp.carry field ≠ .given value' := by
  intro field value value' h h'
  exact e.different ((RecordOp.given_state_iff h).trans (RecordOp.given_state_iff h').symm)

/-- What both senders and the queue have of the record. -/
theorem views : ∃ id record view view', e.first.target = some (e.firstOp.kind, id) ∧
    (foldCollabInbox e.base).fieldsAt e.firstOp.kind id = some record ∧
    (foldCollabInbox e.firstCache).fieldsAt e.firstOp.kind id = some view ∧
    (foldCollabInbox e.secondCache).fieldsAt e.firstOp.kind id = some view' ∧
    e.first.fields = message "" e.firstOp.carry view ∧
    e.second.fields = message "" e.secondOp.carry view' := by
  obtain ⟨id, view, htarget, hview, hfirst⟩ := RecordOp.send_eq_some e.firstSent
  obtain ⟨id', view', htarget', hview', hsecond⟩ := RecordOp.send_eq_some e.secondSent
  obtain ⟨hkind, rfl⟩ := Prod.mk.inj
    (Option.some.inj (htarget'.symm.trans (e.same.trans htarget)))
  -- what the first sender has of the record, the queue has too
  have hrecord : ((foldCollabInbox e.base).fieldsAt e.firstOp.kind id').isSome := by
    obtain ⟨m, hm, hmtarget⟩ := isSome_fieldsAt_iff.mp (Option.isSome_of_eq_some hview)
    exact isSome_fieldsAt_iff.mpr ⟨m, e.firstAge.subset hm, hmtarget⟩
  obtain ⟨record, hrecord⟩ := Option.isSome_iff_exists.mp hrecord
  rw [hkind] at hview'
  exact ⟨id', record, view, view', htarget, hrecord, hview, hview', hfirst, hsecond⟩

/-- What the fold makes of the two messages. -/
theorem fieldsAt_queue (htarget : e.first.target = some (e.firstOp.kind, id))
    (hrecord : (foldCollabInbox e.base).fieldsAt e.firstOp.kind id = some record) :
    (foldCollabInbox e.queue).fieldsAt e.firstOp.kind id =
      some (lay "" (lay "" record e.first.fields) e.second.fields) := by
  have hmid : (foldCollabInbox (e.base ++ e.first :: e.mid)).fieldsAt e.firstOp.kind id =
      some (lay "" record e.first.fields) := by
    rw [List.append_cons, fieldsAt_append_of_ne fun m hm => htarget ▸ e.midOthers m hm,
      foldCollabInbox_concat, Folded.fieldsAt_foldMessage htarget, hrecord, Option.getD_some]
  rw [queue, List.append_cons, fieldsAt_append_of_ne fun m hm => htarget ▸ e.restOthers m hm,
    foldCollabInbox_concat, Folded.fieldsAt_foldMessage (e.same.trans htarget), hmid,
    Option.getD_some]

/-- Both effects are there in the end exactly where neither message spoils the other. -/
theorem bothEffects_iff : e.BothEffects ↔ e.Unspoiled := by
  obtain ⟨id, record, view, view', htarget, hrecord, hview, hview', hfirst, hsecond⟩ := e.views
  have hqueue := e.fieldsAt_queue htarget hrecord
  rw [hfirst, hsecond] at hqueue
  have hiff := hasEffect_lay_lay_iff "" record view view' e.disjoint
  constructor
  · rintro ⟨id', fields, htarget', hfields, hboth⟩ id'' record' view₁ view₂ htarget'' hrecord' h₁ h₂
    have hid : ∀ other, e.first.target = some (e.firstOp.kind, other) → other = id :=
      fun other h => (Prod.mk.inj (Option.some.inj (h.symm.trans htarget))).2
    obtain rfl := hid id' htarget'
    obtain rfl := hid id'' htarget''
    obtain rfl := Option.some.inj (hrecord'.symm.trans hrecord)
    obtain rfl := Option.some.inj (h₁.symm.trans hview)
    obtain rfl := Option.some.inj (h₂.symm.trans hview')
    obtain rfl := Option.some.inj (hfields.symm.trans hqueue)
    exact hiff.mp hboth
  · intro h
    exact ⟨id, _, htarget, hqueue, hiff.mpr (h id record view view' htarget hrecord hview hview')⟩

end TwoEdits

section Sample

/-- An issue, as it was created. -/
def sampleIssue : CollabMessage := .issue "1" "crash on start" "" "open"

/-- The issue is closed, and renamed by a member who has not seen that. -/
def closeThenRename : TwoEdits where
  base := [sampleIssue]
  mid := []
  rest := []
  firstOp := .issue (.setState "closed")
  secondOp := .issue (.edit (some "crash at start") none)
  firstCache := [sampleIssue]
  secondCache := [sampleIssue]
  firstArg := "1"
  secondArg := "#1"
  first := .issue "1" "crash on start" "" "closed"
  second := .issue "1" "crash at start" "" "open"
  firstAge := List.Sublist.refl _
  secondAge := by decide
  firstSent := by decide +kernel
  secondSent := by decide +kernel
  same := rfl
  different := by simp [RecordOp.ChangesState]
  midOthers := by simp
  restOthers := by simp

/-- The issue is renamed, and closed by a member who has not seen that. -/
def renameThenClose : TwoEdits := { closeThenRename with
  firstOp := .issue (.edit (some "crash at start") none)
  secondOp := .issue (.setState "closed")
  first := .issue "1" "crash at start" "" "open"
  second := .issue "1" "crash on start" "" "closed"
  secondAge := by decide
  firstSent := by decide +kernel
  secondSent := by decide +kernel
  same := rfl
  different := by simp [RecordOp.ChangesState]
  midOthers := by simp [closeThenRename]
  restOthers := by simp [closeThenRename] }

/-- The edit opens the issue again, and the close takes back its title. -/
theorem not_bothEffects_stale : ¬ closeThenRename.BothEffects ∧ ¬ renameThenClose.BothEffects := by
  have hfolded : ((foldCollabInbox closeThenRename.queue).fieldsAt .issue "1").map (· .state) =
        some "open" ∧
      ((foldCollabInbox renameThenClose.queue).fieldsAt .issue "1").map (· .title) =
        some "crash on start" := by
    decide +kernel
  constructor
  · rintro ⟨id, fields, htarget, hfields, heffect, -⟩
    obtain rfl : "1" = id := (Prod.mk.inj (Option.some.inj htarget)).2
    have hstate := (congrArg (Option.map (· .state)) hfields).symm.trans hfolded.1
    rw [Option.map_some, heffect .state "closed" rfl] at hstate
    exact absurd hstate (by decide)
  · rintro ⟨id, fields, htarget, hfields, heffect, -⟩
    obtain rfl : "1" = id := (Prod.mk.inj (Option.some.inj htarget)).2
    have htitle := (congrArg (Option.map (· .title)) hfields).symm.trans hfolded.2
    rw [Option.map_some, heffect .title "crash at start" rfl] at htitle
    exact absurd htitle (by decide)

end Sample

end SafeHub
