import Mathlib.Logic.Basic

/-!
# Records that messages are laid over

A record has a value for every attribute. A message has one too, and what it has is laid over the
record, except that a blank value leaves the old one. An operation gives some attributes; its
message fills the others with what its sender has seen, or leaves them blank.

## Main definitions

* `overlay`, `lay` — a value over another, a message over a record
* `Carry`, `message` — what an operation gives, and the message it sends
* `HasEffect` — a record is as an operation gives it
* `Unspoiled` — of two messages neither takes back what the other gives

## Main results

* `hasEffect_lay_lay_iff` — when two messages laid one over the other have both effects
-/

namespace Overlay

variable {α β : Type*} [DecidableEq β] {blank : β}

/-- A value laid over an old one; a blank one leaves it. -/
def overlay (blank old new : β) : β := if new = blank then old else new

/-- A message laid over a record. -/
def lay (blank : β) (record message : α → β) (a : α) : β := overlay blank (record a) (message a)

/-- What an operation does with an attribute. -/
inductive Carry (β : Type*)
  | given (value : β)
  /-- The message repeats what the sender has seen. -/
  | seen
  | blank

/-- An operation that may give an attribute repeats it otherwise. -/
def Carry.ofOption : Option β → Carry β
  | some value => .given value
  | none => .seen

/-- What the message has for an attribute. -/
def Carry.value (blank seen : β) : Carry β → β
  | .given value => value
  | .seen => seen
  | .blank => blank

/-- The message of an operation from what its sender has seen. -/
def message (blank : β) (op : α → Carry β) (view : α → β) (a : α) : β :=
  (op a).value blank (view a)

/-- Every attribute that the operation gives has its value. -/
def HasEffect (op : α → Carry β) (record : α → β) : Prop :=
  ∀ a value, op a = .given value → record a = value

/-- What the first operation gives, the second message leaves blank, or its sender has seen as it is
given or blank. What is given as blank was blank, and the first message does not fill it. -/
def Unspoiled (blank : β) (op op' : α → Carry β) (record view view' : α → β) : Prop :=
  (∀ a value, op a = .given value →
    (op' a = .seen → view' a = blank ∨ view' a = value) ∧ (value = blank → record a = blank)) ∧
  ∀ a value, op' a = .given value → value = blank →
    record a = blank ∧ (op a = .seen → view a = blank)

variable {old new value : β} {op op' : α → Carry β} {record view view' : α → β}

@[simp] theorem overlay_blank : overlay blank old blank = old := if_pos rfl

theorem overlay_of_ne (h : new ≠ blank) : overlay blank old new = new := if_neg h

@[simp] theorem overlay_self : overlay blank old old = old := ite_self old

theorem overlay_eq_blank_iff : overlay blank old new = blank ↔ new = blank ∧ old = blank := by
  by_cases h : new = blank
  · rw [h, overlay_blank, and_iff_right rfl]
  · rw [overlay_of_ne h]
    exact iff_of_false h fun hboth => h hboth.1

/-- A value is there after it is laid over another, unless it is blank and the other is not. -/
theorem overlay_eq_new_iff : overlay blank old new = new ↔ (new = blank → old = blank) := by
  by_cases h : new = blank
  · rw [h, overlay_blank, forall_prop_of_true rfl]
  · rw [overlay_of_ne h]
    exact iff_of_true rfl fun hblank => absurd hblank h

/-- A value stays under another that is blank or the same. -/
theorem overlay_overlay_eq_iff : overlay blank (overlay blank old value) new = value ↔
    (new = blank ∨ new = value) ∧ (value = blank → old = blank) := by
  by_cases h : new = blank
  · rw [h, overlay_blank, overlay_eq_new_iff, and_iff_right (.inl rfl)]
  · rw [overlay_of_ne h, or_iff_right h]
    constructor
    · rintro rfl
      exact ⟨rfl, fun hblank => absurd hblank h⟩
    · exact And.left

omit [DecidableEq β] in
theorem Carry.value_ofOption (given : Option β) :
    (Carry.ofOption given).value blank value = given.getD value := by
  cases given <;> rfl

omit [DecidableEq β] in
theorem message_of_given {a : α} (h : op a = .given value) : message blank op view a = value := by
  rw [message, h, Carry.value]

omit [DecidableEq β] in
/-- A message that does not give an attribute is blank there unless it repeats what is not. -/
theorem message_eq_iff {a : α} (h : ∀ value, op a ≠ .given value) :
    message blank op view a = blank ∨ message blank op view a = value ↔
      (op a = .seen → view a = blank ∨ view a = value) := by
  rw [message]
  cases hop : op a with
  | given other => exact absurd hop (h other)
  | seen => simp [Carry.value]
  | blank => simp [Carry.value]

/-- A message laid over itself. -/
@[simp] theorem lay_self : lay blank record record = record := funext fun _ => overlay_self

/-- Two operations that give different attributes, one laid over the other: both effects are there
exactly where the second does not spoil the first and what is given as blank was blank. -/
theorem hasEffect_lay_lay_iff (blank : β) (record view view' : α → β)
    (h : ∀ a value value', op a = .given value → op' a ≠ .given value') :
    (HasEffect op (lay blank (lay blank record (message blank op view)) (message blank op' view')) ∧
      HasEffect op'
        (lay blank (lay blank record (message blank op view)) (message blank op' view'))) ↔
      Unspoiled blank op op' record view view' := by
  refine and_congr (forall₃_congr fun a value hgiven => ?_) (forall₃_congr fun a value hgiven => ?_)
  · rw [lay, lay, message_of_given hgiven, overlay_overlay_eq_iff,
      message_eq_iff fun value' => h a value value' hgiven]
  · have hother : ∀ value', op a ≠ .given value' := fun value' hop => h a value' value hop hgiven
    rw [lay, message_of_given hgiven, overlay_eq_new_iff]
    have hmessage : message blank op view a = blank ∨ message blank op view a = blank ↔
        (op a = .seen → view a = blank ∨ view a = blank) := message_eq_iff hother
    rw [or_self, or_self] at hmessage
    rw [lay, overlay_eq_blank_iff, hmessage, and_comm]

end Overlay
