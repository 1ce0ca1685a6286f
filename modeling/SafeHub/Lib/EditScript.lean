import Mathlib.Data.List.Forall2
import Mathlib.Data.List.Infix

/-!
# Edit scripts

A script turns one list into another by insertions and deletions, each at a place of the list
that the ones before it have made. It can be read off an alignment of the two lists, cut into
segments that are kept, deleted or inserted, and an alignment off any increasing sequence of
places where the two lists agree; the longest one makes the shortest script, but all are right.

## Main definitions

* `Edit`, `applyAll` — scripts and what they do to a list
* `Seg`, `source`, `target`, `script` — alignments, the lists that they align, and their scripts
* `Edit.Within` — the places and the texts of an edit lie in its lists
* `Matches` — places where two lists agree
* `keptAt` — the places at which an alignment keeps a unit
* `Edit.Rel` — one script done to the images of another's units

## Main results

* `applyAll_script` — the script of an alignment turns its source into its target
* `within_script` — its edits lie in the two lists
* `forall₂_applyAll` — related scripts keep related lists related
-/

namespace EditScript

variable {α β : Type*}

/-- An insertion or a deletion at a place of a list. -/
inductive Edit (α : Type*)
  | insert (idx : ℕ) (units : List α)
  | delete (idx len : ℕ)

/-- What an edit does to a list. Beyond the end of the list it inserts at the end, and there is
nothing to delete. -/
def Edit.apply (doc : List α) : Edit α → List α
  | .insert idx units => doc.take idx ++ (units ++ doc.drop idx)
  | .delete idx len => doc.take idx ++ doc.drop (idx + len)

/-- What a script does to a list. -/
def applyAll (doc : List α) (edits : List (Edit α)) : List α := edits.foldl Edit.apply doc

/-- A segment of an alignment. -/
inductive Seg (α : Type*)
  | keep (units : List α)
  | del (units : List α)
  | ins (units : List α)
  deriving DecidableEq

/-- The part of a segment in the list before. -/
def Seg.source : Seg α → List α
  | .keep units => units
  | .del units => units
  | .ins _ => []

/-- The part of a segment in the list after. -/
def Seg.target : Seg α → List α
  | .keep units => units
  | .del _ => []
  | .ins units => units

/-- The list before. -/
def source (segs : List (Seg α)) : List α := segs.flatMap Seg.source

/-- The list after. -/
def target (segs : List (Seg α)) : List α := segs.flatMap Seg.target

/-- The script of an alignment that begins at a place of a list. -/
def script (base : ℕ) : List (Seg α) → List (Edit α)
  | [] => []
  | .keep units :: segs => script (base + units.length) segs
  | .del units :: segs => .delete base units.length :: script base segs
  | .ins units :: segs => .insert base units :: script (base + units.length) segs

/-- The places in either list at which an alignment keeps a unit, from some places on. -/
def keptAt (i j : ℕ) : List (Seg α) → List (ℕ × ℕ)
  | [] => []
  | .keep units :: segs =>
    (List.range units.length).map (fun n => (i + n, j + n)) ++
      keptAt (i + units.length) (j + units.length) segs
  | .del units :: segs => keptAt (i + units.length) j segs
  | .ins units :: segs => keptAt i (j + units.length) segs

/-- An edit lies in what comes of it, inserts a part of that and deletes no more than there was. -/
def Edit.Within (before after : List α) (base : ℕ) : Edit α → Prop
  | .insert idx units => idx ≤ base + after.length ∧ units <:+: after
  | .delete idx len => idx ≤ base + after.length ∧ len ≤ before.length

/-- The places of a sequence increase from given ones on, and two lists agree at them. -/
def Matches (a b : List α) : ℕ → ℕ → List (ℕ × ℕ) → Prop
  | i, j, [] => i ≤ a.length ∧ j ≤ b.length
  | i, j, (p, q) :: pairs =>
    i ≤ p ∧ j ≤ q ∧ (∃ unit, a[p]? = some unit ∧ b[q]? = some unit) ∧
      Matches a b (p + 1) (q + 1) pairs

/-! ### Scripts -/

section Scripts

variable {doc pre post units : List α} {edits more : List (Edit α)} {segs rest : List (Seg α)}
variable {base : ℕ}

@[simp] theorem applyAll_nil : applyAll doc [] = doc := rfl

@[simp] theorem applyAll_cons {edit : Edit α} :
    applyAll doc (edit :: edits) = applyAll (edit.apply doc) edits := rfl

theorem applyAll_append : applyAll doc (edits ++ more) = applyAll (applyAll doc edits) more :=
  List.foldl_append

/-- An insertion between two parts of a list. -/
@[simp] theorem apply_insert_append :
    (Edit.insert pre.length units).apply (pre ++ post) = pre ++ (units ++ post) := by
  rw [Edit.apply, List.take_left, List.drop_left]

/-- The deletion of the middle of a list. -/
@[simp] theorem apply_delete_append :
    (Edit.delete pre.length units.length).apply (pre ++ (units ++ post)) = pre ++ post := by
  rw [Edit.apply, List.take_left, ← List.length_append, ← List.append_assoc, List.drop_left]

@[simp] theorem source_nil : source ([] : List (Seg α)) = [] := rfl

@[simp] theorem target_nil : target ([] : List (Seg α)) = [] := rfl

@[simp] theorem source_cons {seg : Seg α} : source (seg :: segs) = seg.source ++ source segs :=
  List.flatMap_cons

@[simp] theorem target_cons {seg : Seg α} : target (seg :: segs) = seg.target ++ target segs :=
  List.flatMap_cons

@[simp] theorem source_append : source (segs ++ rest) = source segs ++ source rest :=
  List.flatMap_append

@[simp] theorem target_append : target (segs ++ rest) = target segs ++ target rest :=
  List.flatMap_append

/-- The script of an alignment turns the list before into the list after, whatever stands
around them. -/
theorem applyAll_script :
    applyAll (pre ++ (source segs ++ post)) (script pre.length segs) =
      pre ++ (target segs ++ post) := by
  induction segs generalizing pre with
  | nil => rfl
  | cons seg segs ih =>
    cases seg with
    | keep units =>
      -- what is kept moves to the part that is done
      have hdone := @ih (pre ++ units)
      rw [List.length_append] at hdone
      simpa [script, Seg.source, Seg.target] using hdone
    | del units =>
      rw [source_cons, Seg.source, script, applyAll_cons, List.append_assoc, apply_delete_append]
      exact ih
    | ins units =>
      have hdone := @ih (pre ++ units)
      rw [List.length_append] at hdone
      rw [script, applyAll_cons, source_cons, Seg.source, List.nil_append, apply_insert_append]
      simpa [Seg.target] using hdone

theorem Edit.Within.mono {a b a' b' : List α} {base base' : ℕ} {edit : Edit α}
    (h : edit.Within a b base) (ha : a.length ≤ a'.length) (hb : b <:+: b')
    (hbase : base + b.length ≤ base' + b'.length) : edit.Within a' b' base' := by
  cases edit with
  | insert idx units => exact ⟨h.1.trans hbase, h.2.trans hb⟩
  | delete idx len => exact ⟨h.1.trans hbase, h.2.trans ha⟩

/-- The edits of an alignment lie within its lists. -/
theorem within_script {edit : Edit α} (h : edit ∈ script base segs) :
    edit.Within (source segs) (target segs) base := by
  induction segs generalizing base with
  | nil => cases h
  | cons seg segs ih =>
    have hsource : (source segs).length ≤ (source (seg :: segs)).length := by
      rw [source_cons, List.length_append]
      exact Nat.le_add_left _ _
    have htarget : target segs <:+: target (seg :: segs) := by
      rw [target_cons]
      exact (List.suffix_append _ _).isInfix
    have hlength : (target (seg :: segs)).length = seg.target.length + (target segs).length := by
      rw [target_cons, List.length_append]
    cases seg with
    | keep units =>
      refine (ih h).mono hsource htarget ?_
      rw [hlength, Seg.target, Nat.add_assoc]
    | del units =>
      rcases List.mem_cons.mp h with rfl | hmem
      · refine ⟨Nat.le_add_right _ _, ?_⟩
        rw [source_cons, Seg.source, List.length_append]
        exact Nat.le_add_right _ _
      · refine (ih hmem).mono hsource htarget ?_
        rw [hlength]
        omega
    | ins units =>
      rcases List.mem_cons.mp h with rfl | hmem
      · refine ⟨Nat.le_add_right _ _, ?_⟩
        rw [target_cons, Seg.target]
        exact (List.prefix_append _ _).isInfix
      · refine (ih hmem).mono hsource htarget ?_
        rw [hlength, Seg.target, Nat.add_assoc]

end Scripts

/-! ### Matching places -/

section Matching

variable {a b : List α} {i j i' j' : ℕ} {pairs : List (ℕ × ℕ)}

/-- Places that match from some places on match from earlier ones on. -/
theorem Matches.mono (h : Matches a b i j pairs) (hi : i' ≤ i) (hj : j' ≤ j) :
    Matches a b i' j' pairs := by
  cases pairs with
  | nil => exact ⟨hi.trans h.1, hj.trans h.2⟩
  | cons pair pairs => exact ⟨hi.trans h.1, hj.trans h.2.1, h.2.2⟩

/-- The lists agree at places that match. -/
theorem Matches.agree (h : Matches a b i j pairs) {p q : ℕ} (hmem : (p, q) ∈ pairs) :
    ∃ unit, a[p]? = some unit ∧ b[q]? = some unit := by
  induction pairs generalizing i j with
  | nil => cases hmem
  | cons pair pairs ih =>
    obtain ⟨-, -, hunit, hrest⟩ := h
    rcases List.mem_cons.mp hmem with rfl | hlater
    · exact hunit
    · exact ih hrest hlater

/-- The first unit of a rest stands where the rest begins. -/
theorem of_drop_eq_cons {rest : List α} {unit : α} (h : a.drop i = unit :: rest) :
    a[i]? = some unit ∧ a.drop (i + 1) = rest ∧ i + 1 ≤ a.length := by
  have hunit : a[i]? = some unit := by
    rw [← List.head?_drop, h]
    rfl
  refine ⟨hunit, ?_, (List.getElem?_eq_some_iff.mp hunit).1⟩
  rw [← List.tail_drop, h]
  rfl

/-- A list between two places, the unit at the second, and the rest. -/
theorem drop_eq_of_getElem? {p : ℕ} {unit : α} (hi : i ≤ p) (ha : a[p]? = some unit) :
    a.drop i = (a.drop i).take (p - i) ++ (unit :: a.drop (p + 1)) := by
  obtain ⟨hp, rfl⟩ := List.getElem?_eq_some_iff.mp ha
  rw [← List.drop_eq_getElem_cons hp]
  conv_lhs => rw [← List.take_append_drop (p - i) (a.drop i)]
  rw [List.drop_drop, Nat.add_sub_cancel' hi]

end Matching

/-! ### Scripts on the images of units -/

section Images

variable {r : α → β → Prop} {as : List α} {bs : List β}

/-- One edit inserts what is related to what another inserts, at the same place. -/
inductive Edit.Rel (r : α → β → Prop) : Edit α → Edit β → Prop
  | insert (idx : ℕ) {as : List α} {bs : List β} (h : List.Forall₂ r as bs) :
    Rel r (.insert idx as) (.insert idx bs)
  | delete (idx len : ℕ) : Rel r (.delete idx len) (.delete idx len)

theorem forall₂_apply {edit : Edit α} {edit' : Edit β} (h : List.Forall₂ r as bs)
    (hedit : edit.Rel r edit') : List.Forall₂ r (edit.apply as) (edit'.apply bs) := by
  cases hedit with
  | insert idx hunits =>
    exact List.rel_append (List.forall₂_take idx h)
      (List.rel_append hunits (List.forall₂_drop idx h))
  | delete idx len =>
    exact List.rel_append (List.forall₂_take idx h) (List.forall₂_drop (idx + len) h)

/-- Related scripts keep related lists related. -/
theorem forall₂_applyAll {edits : List (Edit α)} {edits' : List (Edit β)}
    (h : List.Forall₂ r as bs) (hedits : List.Forall₂ (Edit.Rel r) edits edits') :
    List.Forall₂ r (applyAll as edits) (applyAll bs edits') := by
  induction hedits generalizing as bs with
  | nil => exact h
  | cons hedit _ ih => exact ih (forall₂_apply h hedit)

end Images

end EditScript
