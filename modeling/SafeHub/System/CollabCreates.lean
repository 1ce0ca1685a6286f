import Mathlib.Data.List.Nodup
import Mathlib.Data.List.Perm.Subperm
import SafeHub.Client.Collab
import SafeHub.Lib.Run

/-!
# Concurrent creation

Members create issues and pull requests. Each gives its record the number after the highest in its
own inbox cache and sends it to the queue. Comments, reviews and labels, also those of a new issue,
are messages of their own and may come anywhere between.

## Main definitions

* `CreateOp` — the create commands, and the messages they send
* `CollabEvent.enqueue` — a create from a cache of any age, or another message
* `CreatesKept` — every create has a record of its own in the end
* `NextFree` — the queue has no record with the number after those of the cache

## Main results

* `createsKept_iff` — when every create has a record of its own
* `nextFree_of_highest_le` — a cache that has the highest number of the queue
* `not_createsKept_concurrent` — two issues that become one
-/

namespace SafeHub

open Overlay Run

/-- The ids of the records of a kind. -/
def Folded.ids (f : Folded) : CollabKind → List String
  | .issue => f.issueList.map (·.id)
  | .pr => f.prList.map (·.id)

/-- The highest number in the ids of a kind. -/
def Folded.highest (f : Folded) (kind : CollabKind) : UInt64 :=
  ((f.ids kind).map numberOf).foldl max 0

inductive CreateOp
  | issue (title body : String)
  | pr (title body base head : String)
  deriving DecidableEq, Repr

namespace CreateOp

def kind : CreateOp → CollabKind
  | .issue _ _ => .issue
  | .pr _ _ _ _ => .pr

/-- The id of the new record, from the records that the sender has. -/
def newId (view : Folded) : CreateOp → String
  | .issue _ _ => idOfNumber (nextCollabNumber (view.issueList.map (·.id)))
  | .pr _ _ _ _ => idOfNumber (nextCollabNumber (view.prList.map (·.id)))

/-- The message of a new record. -/
def message (id : String) : CreateOp → CollabMessage
  | .issue title body => .issue id title body "open"
  | .pr title body base head => .pullRequest id head base title body "open"

/-- The message that is sent from an inbox cache. -/
def send (cache : List CollabMessage) (op : CreateOp) : CollabMessage :=
  op.message (op.newId (foldCollabInbox cache))

/-- The attributes that the record is to have. -/
def fields : CreateOp → CollabField → String
  | .issue title body, field =>
    match field with
    | .title => title
    | .body => body
    | .state => "open"
    | .headRef | .baseRef => ""
  | .pr title body base head, field =>
    match field with
    | .title => title
    | .body => body
    | .state => "open"
    | .headRef => head
    | .baseRef => base

end CreateOp

/-- What comes to the queue. -/
inductive CollabEvent
  | create (op : CreateOp) (cache : List CollabMessage)
  /-- A message without attributes. -/
  | pass (m : CollabMessage)
  deriving DecidableEq, Repr

namespace CollabEvent

/-- The queue after an event. A cache has some of the messages of the queue, of any age. -/
def enqueue (queue : List CollabMessage) : CollabEvent → Option (List CollabMessage)
  | .create op cache => if cache.Sublist queue then some (queue ++ [op.send cache]) else none
  | .pass m => if m.target = none then some (queue ++ [m]) else none

def op? : CollabEvent → Option CreateOp
  | .create op _ => some op
  | .pass _ => none

/-- The record that an event creates. -/
def created : CollabEvent → Option (CollabKind × String)
  | .create op cache => some (op.kind, op.newId (foldCollabInbox cache))
  | .pass _ => none

/-- The queue has no record with the number after the highest that the cache has. -/
def NextFree (queue : List CollabMessage) : CollabEvent → Prop
  | .create op cache =>
    idOfNumber ((foldCollabInbox cache).highest op.kind + 1) ∉ (foldCollabInbox queue).ids op.kind
  | .pass _ => True

instance (queue : List CollabMessage) : ∀ event, Decidable (NextFree queue event)
  | .create op cache =>
    inferInstanceAs (Decidable (idOfNumber ((foldCollabInbox cache).highest op.kind + 1) ∉ _))
  | .pass _ => .isTrue trivial

end CollabEvent

open CollabEvent

/-- Every create has a record of its own, as it was asked for and where there was none, and the
records from before are as they were. -/
def CreatesKept (base : List CollabMessage) (events : List CollabEvent)
    (queue : List CollabMessage) : Prop :=
  (∃ keys : List (CollabKind × String), keys.Nodup ∧
    (∀ key ∈ keys, (foldCollabInbox base).fieldsAt key.1 key.2 = none) ∧
    List.Forall₂ (fun key op => key.1 = op.kind ∧
      (foldCollabInbox queue).fieldsAt key.1 key.2 = some op.fields) keys (events.filterMap op?)) ∧
  ∀ kind id fields, (foldCollabInbox base).fieldsAt kind id = some fields →
    (foldCollabInbox queue).fieldsAt kind id = some fields

section Runs

variable {base queue queue' : List CollabMessage} {events : List CollabEvent} {event : CollabEvent}
  {f : Folded} {op : CreateOp} {cache : List CollabMessage} {kind : CollabKind} {id : String}
  {fields : CollabField → String}

theorem Folded.Keyed.mem_ids_iff (h : f.Keyed) : id ∈ f.ids kind ↔ (f.fieldsAt kind id).isSome := by
  cases kind with
  | issue =>
    rw [Folded.fieldsAt, Option.isSome_map]
    exact mem_map_records_iff h.issues
  | pr =>
    rw [Folded.fieldsAt, Option.isSome_map]
    exact mem_map_records_iff h.prs

theorem CreateOp.newId_eq (op : CreateOp) :
    op.newId f = idOfNumber (f.highest op.kind + 1) := by
  cases op <;> rfl

/-- A free number is one whose record is not there. -/
theorem nextFree_create_iff : NextFree queue (.create op cache) ↔
    (foldCollabInbox queue).fieldsAt op.kind (op.newId (foldCollabInbox cache)) = none := by
  rw [NextFree, (keyed_foldCollabInbox queue).mem_ids_iff, op.newId_eq, Bool.not_eq_true,
    Option.isSome_eq_false_iff, Option.isNone_iff_eq_none]

/-- Nothing has the number after those of a cache that has the highest one of the queue, unless that
is the last number. -/
theorem nextFree_of_highest_le
    (h : (foldCollabInbox queue).highest op.kind ≤ (foldCollabInbox cache).highest op.kind)
    (hlast : ((foldCollabInbox cache).highest op.kind).toNat + 1 < 2 ^ 64) :
    NextFree queue (.create op cache) := by
  intro hmem
  have hle := UInt64.le_trans (le_foldl_max_word (.inr (List.mem_map_of_mem hmem))) h
  rw [numberOf_idOfNumber] at hle
  exact absurd (lt_nextCollabNumber hlast) (UInt64.not_lt.mpr hle)

/-! ### What a run adds -/

/-- An event puts one message on the queue, which creates its record or is without attributes. -/
theorem enqueue_eq_some (h : event.enqueue queue = some queue') :
    ∃ m, queue' = queue ++ [m] ∧ m.target = event.created ∧
      ∀ op, event.op? = some op → m.fields = op.fields := by
  cases event with
  | create op cache =>
    rw [enqueue] at h
    split_ifs at h
    refine ⟨op.send cache, (Option.some.inj h).symm, ?_, ?_⟩
    · cases op <;> rfl
    · intro op' hop
      obtain rfl := Option.some.inj hop
      funext field
      cases op <;> cases field <;> rfl
  | pass m =>
    rw [enqueue] at h
    split_ifs at h with htarget
    exact ⟨m, (Option.some.inj h).symm, htarget, nofun⟩

/-- An event leaves the records of other keys. -/
theorem fieldsAt_enqueue_of_ne (h : event.enqueue queue = some queue')
    (hkey : event.created ≠ some (kind, id)) :
    (foldCollabInbox queue').fieldsAt kind id = (foldCollabInbox queue).fieldsAt kind id := by
  obtain ⟨m, rfl, htarget, -⟩ := enqueue_eq_some h
  rw [foldCollabInbox_concat, Folded.fieldsAt_foldMessage_of_ne (htarget ▸ hkey)]

/-- Every create has a key. -/
theorem length_filterMap_created (events : List CollabEvent) :
    (events.filterMap created).length = (events.filterMap op?).length := by
  induction events with
  | nil => rfl
  | cons event events ih =>
    cases event with
    | create op cache => exact congrArg Nat.succ ih
    | pass m => exact ih

/-- After a create there is its record. -/
theorem isSome_fieldsAt_enqueue (h : event.enqueue queue = some queue')
    (hkey : event.created = some (kind, id)) :
    ((foldCollabInbox queue').fieldsAt kind id).isSome := by
  obtain ⟨m, rfl, htarget, -⟩ := enqueue_eq_some h
  rw [foldCollabInbox_concat, Folded.fieldsAt_foldMessage (htarget.trans hkey)]
  rfl

/-- Where there was no record, the new one is as it was asked for. -/
theorem fieldsAt_enqueue_create (h : (create op cache).enqueue queue = some queue')
    (hfree : NextFree queue (create op cache)) :
    (foldCollabInbox queue').fieldsAt op.kind (op.newId (foldCollabInbox cache)) =
      some op.fields := by
  obtain ⟨m, rfl, htarget, hfields⟩ := enqueue_eq_some h
  rw [foldCollabInbox_concat, Folded.fieldsAt_foldMessage htarget, nextFree_create_iff.mp hfree,
    Option.getD_none, lay_self, hfields op rfl]

/-- A create with a free number leaves the records that are there. -/
theorem fieldsAt_enqueue_of_some (h : event.enqueue queue = some queue')
    (hfree : NextFree queue event)
    (hfields : (foldCollabInbox queue).fieldsAt kind id = some fields) :
    (foldCollabInbox queue').fieldsAt kind id = some fields := by
  rw [← hfields]
  apply fieldsAt_enqueue_of_ne h
  cases event with
  | pass m => exact nofun
  | create op cache =>
    intro hkey
    obtain ⟨rfl, rfl⟩ := Prod.mk.inj (Option.some.inj hkey)
    exact Option.some_ne_none fields (hfields.symm.trans (nextFree_create_iff.mp hfree))

/-- The records of the queue are those from before and those of the creates. -/
theorem isSome_fieldsAt_run (hrun : run enqueue base events = some queue) :
    ((foldCollabInbox queue).fieldsAt kind id).isSome ↔
      ((foldCollabInbox base).fieldsAt kind id).isSome ∨ (kind, id) ∈ events.filterMap created := by
  induction events using List.reverseRecOn generalizing queue with
  | nil =>
    obtain rfl := Option.some.inj hrun
    simp
  | append_singleton events event ih =>
    obtain ⟨queue₀, hfront, hstep⟩ := run_concat_eq_some.mp hrun
    by_cases hkey : event.created = some (kind, id)
    · refine iff_of_true (isSome_fieldsAt_enqueue hstep hkey) (.inr ?_)
      exact List.mem_filterMap.mpr ⟨event, by simp, hkey⟩
    · rw [fieldsAt_enqueue_of_ne hstep hkey, ih hfront]
      simp [-List.filterMap_append, or_and_right, exists_or, hkey]

/-- The numbers were free exactly where all new records are different and none was there before. -/
theorem along_nextFree_iff (hrun : run enqueue base events = some queue) :
    Along enqueue NextFree base events ↔ (events.filterMap created).Nodup ∧
      ∀ key ∈ events.filterMap created, (foldCollabInbox base).fieldsAt key.1 key.2 = none := by
  induction events using List.reverseRecOn generalizing queue with
  | nil => exact iff_of_true trivial ⟨List.nodup_nil, nofun⟩
  | append_singleton events event ih =>
    obtain ⟨queue₀, hfront, -⟩ := run_concat_eq_some.mp hrun
    rw [along_concat_iff hfront, ih hfront, List.filterMap_append]
    cases event with
    | pass m =>
      rw [show [pass m].filterMap created = [] from rfl, List.append_nil]
      exact and_iff_left trivial
    | create op cache =>
      rw [show [create op cache].filterMap created =
          [(op.kind, op.newId (foldCollabInbox cache))] from rfl,
        ← List.concat_eq_append, List.nodup_concat, List.concat_eq_append,
        List.forall_mem_append, List.forall_mem_singleton, nextFree_create_iff,
        ← Option.not_isSome_iff_eq_none, isSome_fieldsAt_run hfront,
        not_or, Option.not_isSome_iff_eq_none]
      constructor
      · rintro ⟨⟨hnodup, hbase⟩, hnone, hnew⟩
        exact ⟨⟨hnew, hnodup⟩, hbase, hnone⟩
      · rintro ⟨⟨hnew, hnodup⟩, hbase, hnone⟩
        exact ⟨⟨hnodup, hbase⟩, hnone, hnew⟩

/-- Where the numbers are free, every new record is as it was asked for. -/
theorem forall₂_fieldsAt_of_along (hrun : run enqueue base events = some queue)
    (h : Along enqueue NextFree base events) :
    List.Forall₂ (fun key op => key.1 = op.kind ∧
        (foldCollabInbox queue).fieldsAt key.1 key.2 = some op.fields)
      (events.filterMap created) (events.filterMap op?) := by
  induction events using List.reverseRecOn generalizing queue with
  | nil => exact .nil
  | append_singleton events event ih =>
    obtain ⟨queue₀, hfront, hstep⟩ := run_concat_eq_some.mp hrun
    obtain ⟨h, hfree⟩ := (along_concat_iff hfront).mp h
    rw [List.filterMap_append, List.filterMap_append]
    apply List.rel_append
    · exact (ih hfront h).imp fun key op hkey =>
        ⟨hkey.1, fieldsAt_enqueue_of_some hstep hfree hkey.2⟩
    cases event with
    | pass m => exact .nil
    | create op cache => exact .cons ⟨rfl, fieldsAt_enqueue_create hstep hfree⟩ .nil

/-- Every create has a record of its own exactly where each finds its number free. -/
theorem createsKept_iff (hrun : run enqueue base events = some queue) :
    CreatesKept base events queue ↔ Along enqueue NextFree base events := by
  constructor
  · rintro ⟨⟨keys, hnodup, hbase, hkeys⟩, -⟩
    have hqueue : ∀ key ∈ keys, ((foldCollabInbox queue).fieldsAt key.1 key.2).isSome :=
      ((List.forall₂_and_left _ _).mp (hkeys.imp fun key op hkey =>
        ⟨Option.isSome_of_eq_some hkey.2, trivial⟩)).1
    -- All of the records are among those that the creates name, and there are no more of these.
    have hsubset : keys ⊆ events.filterMap created := by
      intro key hkey
      refine ((isSome_fieldsAt_run hrun).mp (hqueue key hkey)).resolve_left ?_
      rw [hbase key hkey]
      exact Bool.false_ne_true
    have hlength : (events.filterMap created).length ≤ keys.length :=
      Nat.le_of_eq ((length_filterMap_created events).trans hkeys.length_eq.symm)
    have hperm := (List.subperm_of_subset hnodup hsubset).perm_of_length_le hlength
    refine (along_nextFree_iff hrun).mpr ⟨hperm.nodup_iff.mp hnodup, fun key hkey => ?_⟩
    exact hbase key (hperm.mem_iff.mpr hkey)
  · intro h
    obtain ⟨hnodup, hbase⟩ := (along_nextFree_iff hrun).mp h
    refine ⟨⟨_, hnodup, hbase, forall₂_fieldsAt_of_along hrun h⟩, fun kind id fields hfields => ?_⟩
    exact h.invariant (I := fun queue => (foldCollabInbox queue).fieldsAt kind id = some fields)
      (fun _ _ _ hfields hfree hstep => fieldsAt_enqueue_of_some hstep hfree hfields) hfields hrun

end Runs

section Sample

/-- Two issues and a pull request, each from a cache of the whole queue. -/
def oneByOne : List CollabEvent :=
  [.create (.issue "crash on start" "trace attached") [],
    .create (.pr "dark mode" "" "main" "dark")
      [.issue "1" "crash on start" "trace attached" "open"],
    .create (.issue "typo" "") [.issue "1" "crash on start" "trace attached" "open",
      .pullRequest "1" "dark" "main" "dark mode" "" "open"]]

theorem createsKept_oneByOne : CreatesKept [] oneByOne
    [.issue "1" "crash on start" "trace attached" "open",
      .pullRequest "1" "dark" "main" "dark mode" "" "open", .issue "2" "typo" "" "open"] :=
  (createsKept_iff (by decide +kernel)).mpr (by decide +kernel)

/-- Two issues from an empty cache. -/
def atOnce : List CollabEvent :=
  [.create (.issue "crash on start" "trace attached") [], .create (.issue "typo" "") []]

/-- What they send. -/
def bothFirst : List CollabMessage :=
  [.issue "1" "crash on start" "trace attached" "open", .issue "1" "typo" "" "open"]

/-- The second issue takes the number of the first, and the fold has one record with the title of
the second and the body of the first. -/
theorem not_createsKept_concurrent :
    run enqueue [] atOnce = some bothFirst ∧ ¬ CreatesKept [] atOnce bothFirst := by
  refine ⟨by decide +kernel, ?_⟩
  rintro ⟨⟨keys, -, -, hkeys⟩, -⟩
  cases hkeys with
  | @cons key _ _ _ hfirst =>
    have hfields := hfirst.2
    have hkey : (.issue, "1") = key := by
      obtain ⟨m, hm, htarget⟩ := isSome_fieldsAt_iff.mp (Option.isSome_of_eq_some hfields)
      rcases List.mem_pair.mp hm with rfl | rfl
      · exact Option.some.inj htarget
      · exact Option.some.inj htarget
    have hfolded : ((foldCollabInbox bothFirst).fieldsAt .issue "1").map (· .title) =
        some "typo" := by
      decide +kernel
    rw [← hkey] at hfields
    exact absurd ((congrArg (Option.map (· .title)) hfields).symm.trans hfolded) (by decide)

end Sample

end SafeHub
