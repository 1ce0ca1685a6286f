import SafeHub.Lib.EditScript
import SafeHub.Lib.Lines
import Mathlib.Algebra.Order.Ring.Nat

/-!
# Differences of texts by lines

An update stores how a text has changed, by characters or by lines. The operations on a text are
read off a longest common subsequence, whose table says where to go and not whether two units
match. The text of a run of new lines is put together in one insertion and cut again when it is
applied.

## Main definitions

* `Op`, `applyChars`, `applyLines` — operations and what they do to a text
* `lcsPairs` — the places of a longest common subsequence
* `comDiffLine` — the difference of two texts by lines

## Main results

* `matches_lcsPairs` — the two lists agree at these places
* `applyLines_comDiffLine` — the operations make the new text of the old
-/

namespace SafeHub.SGit

open EditScript Lines

/-! ### Operations -/

/-- An operation on a text, at a place counted in units. -/
inductive Op
  | insert (idx : ℕ) (m : String)
  | delete (idx len : ℕ)
  deriving DecidableEq, Repr

def Op.payloadBytes : Op → ℕ
  | .insert _ m => m.utf8ByteSize
  | .delete _ _ => 0

def payloadBytes (ops : List Op) : ℕ := (ops.map Op.payloadBytes).sum

/-- What an operation does to the units of a text, given the units of what it inserts. -/
def Op.applyTo {α : Type} (units : String → List α) (v : List α) : Op → List α
  | .delete idx len =>
    let s := min idx v.length
    -- the sum is exact here; as a `usize` it may overflow, which is what `Op.applyWord` is for
    let e := min (s + len) v.length
    v.take s ++ v.drop e
  | .insert idx m =>
    let s := min idx v.length
    v.take s ++ (units m ++ v.drop s)

/-- The operation as an edit of units. -/
def Op.edit {α : Type} (units : String → List α) : Op → Edit α
  | .delete idx len => .delete idx len
  | .insert idx m => .insert idx (units m)

/-- Apply operations in order, by characters. -/
def applyChars (base : String) (ops : List Op) : String :=
  String.ofList (ops.foldl (Op.applyTo String.toList) base.toList)

/-- `concat` of a vector of strings. -/
def concat (lines : List String) : String := String.ofList (lines.flatMap String.toList)

/-- `split_inclusive('\n')`. -/
def splitInclusive (s : String) : List String :=
  (splitAfter (· == '\n') s.toList).map String.ofList

/-- The loop of `split_lines`, with the line it is in. -/
def splitLinesFrom (cur : List Char) : List Char → List String
  | [] => if cur.isEmpty then [] else [String.ofList cur]
  | c :: cs =>
    let cur := cur ++ [c]
    if c = '\n' then String.ofList cur :: splitLinesFrom [] cs else splitLinesFrom cur cs

def splitLines (s : String) : List String := splitLinesFrom [] s.toList

/-- Apply operations in order, by lines. -/
def applyLines (base : String) (ops : List Op) : String :=
  concat (ops.foldl (Op.applyTo splitLines) (splitLines base))

/-! ### Longest common subsequences -/

section Lcs

variable {α : Type} [DecidableEq α]

/-- A row of the table, from the row below it. -/
def lcsRow (x : α) : List α → List UInt32 → List UInt32
  | [], _ => [0]
  | y :: b, below =>
    let row := lcsRow x b below.tail
    (if x = y then below.tail.headD 0 + 1 else max (below.headD 0) (row.headD 0)) :: row

/-- The lengths of common subsequences of the rests of two lists. -/
def lcsTable (b : List α) : List α → List (List UInt32)
  | [] => [List.replicate (b.length + 1) 0]
  | x :: a =>
    let below := lcsTable b a
    lcsRow x b (below.headD []) :: below

/-- Follow the table from given places on. -/
def lcsWalk (dp : ℕ → ℕ → UInt32) (i j : ℕ) : List α → List α → List (ℕ × ℕ)
  | x :: a, y :: b =>
    if x = y then (i, j) :: lcsWalk dp (i + 1) (j + 1) a b
    else if dp i (j + 1) ≤ dp (i + 1) j then lcsWalk dp (i + 1) j a (y :: b)
    else lcsWalk dp i (j + 1) (x :: a) b
  | _, _ => []
termination_by a b => a.length + b.length

/-- The places of a longest common subsequence. -/
def lcsPairs (a b : List α) : List (ℕ × ℕ) :=
  if a.isEmpty || b.isEmpty then []
  else
    let table := lcsTable b a
    lcsWalk (fun i j => (table.getD i []).getD j 0) 0 0 a b

/-- Whatever the table holds, the walk goes by places where the lists agree. -/
theorem matches_lcsWalk {dp : ℕ → ℕ → UInt32} {as bs a b : List α} {i j : ℕ}
    (ha : as.drop i = a) (hb : bs.drop j = b) (hi : i ≤ as.length) (hj : j ≤ bs.length) :
    Matches as bs i j (lcsWalk dp i j a b) := by
  fun_induction lcsWalk dp i j a b with
  | case1 i j a x b ih =>
    obtain ⟨hx, ha', hi'⟩ := of_drop_eq_cons ha
    obtain ⟨hy, hb', hj'⟩ := of_drop_eq_cons hb
    exact ⟨le_rfl, le_rfl, ⟨_, hx, hy⟩, ih ha' hb' hi' hj'⟩
  | case2 i j x a y b hne hle ih =>
    obtain ⟨-, ha', hi'⟩ := of_drop_eq_cons ha
    exact (ih ha' hb hi' hj).mono (Nat.le_succ i) le_rfl
  | case3 i j x a y b hne hle ih =>
    obtain ⟨-, hb', hj'⟩ := of_drop_eq_cons hb
    exact (ih ha hb' hi hj').mono le_rfl (Nat.le_succ j)
  | case4 i j a b _ => exact ⟨hi, hj⟩

theorem matches_lcsPairs (a b : List α) : Matches a b 0 0 (lcsPairs a b) := by
  rw [lcsPairs]
  split_ifs
  · exact ⟨Nat.zero_le _, Nat.zero_le _⟩
  · exact matches_lcsWalk rfl rfl (Nat.zero_le _) (Nat.zero_le _)

end Lcs

/-! ### Lines of texts -/

section Texts

variable {lines : List String} {text : String}

/-- The lines of a text make it up. -/
@[simp] theorem concat_splitInclusive : concat (splitInclusive text) = text := by
  rw [concat, splitInclusive, List.flatMap_map]
  simp only [String.toList_ofList]
  rw [List.flatMap_id', flatten_splitAfter, String.ofList_toList]

/-- Consecutive lines of a text are the lines of what they make up. -/
theorem splitInclusive_concat (i n : ℕ) :
    splitInclusive (concat (((splitInclusive text).drop i).take n)) =
      ((splitInclusive text).drop i).take n := by
  have hsplit : Split (· == '\n') (((splitAfter (· == '\n') text.toList).drop i).take n) :=
    (split_splitAfter.drop i).take n
  rw [splitInclusive, splitInclusive, ← List.map_drop, ← List.map_take, concat, List.flatMap_map]
  simp only [String.toList_ofList]
  rw [List.flatMap_id', splitAfter_flatten hsplit]

/-- The loop cuts where the iterator does. -/
theorem splitLinesFrom_eq {cur cs : List Char} (hcur : ∀ c ∈ cur, (c == '\n') = false) :
    splitLinesFrom cur cs = (splitAfter (· == '\n') (cur ++ cs)).map String.ofList := by
  induction cs generalizing cur with
  | nil =>
    rw [splitLinesFrom, List.append_nil]
    cases cur with
    | nil => rfl
    | cons c cur =>
      rw [splitAfter_open ⟨List.cons_ne_nil _ _, hcur⟩]
      rfl
  | cons c cs ih =>
    rw [splitLinesFrom]
    split_ifs with hend
    · have hline : Terminated (· == '\n') (cur ++ [c]) := ⟨cur, c, rfl, beq_iff_eq.mpr hend, hcur⟩
      rw [ih (List.forall_mem_nil _), List.nil_append, List.append_cons cur c cs,
        splitAfter_terminated hline, List.map_cons]
    · rw [ih, List.append_assoc, List.singleton_append]
      intro d hd
      rcases List.mem_append.mp hd with hmem | hmem
      · exact hcur d hmem
      · rw [List.mem_singleton.mp hmem]
        exact beq_eq_false_iff_ne.mpr hend

theorem splitLines_eq (s : String) : splitLines s = splitInclusive s := by
  rw [splitLines, splitLinesFrom_eq (List.forall_mem_nil _)]
  rfl

end Texts

/-! ### The difference by lines -/

/-- A deletion and an insertion at one place, each left out when it is empty. -/
def emit (del : ℕ) (ins : String) (cursor : ℕ) : List Op :=
  (if 0 < del then [.delete cursor del] else []) ++
    (if ins.isEmpty then [] else [.insert cursor ins])

/-- The loop of `ops_from_pairs`, at a place of the old text, one of the new text, and one of the
text in between. -/
def opsFromPairsAt (old new : List String) (oi ni cursor : ℕ) : List (ℕ × ℕ) → List Op
  | [] => emit (old.length - oi) (concat (new.drop ni)) cursor
  | (po, pn) :: pairs =>
    let del := po - oi
    let ins := concat ((new.drop ni).take (pn - ni))
    if 0 < del || !ins.isEmpty then
      emit del ins cursor ++
        opsFromPairsAt old new (po + 1) (pn + 1) (cursor + (pn - ni) + 1) pairs
    else opsFromPairsAt old new (po + 1) (pn + 1) (cursor + 1) pairs

def opsFromPairs (old new : List String) (pairs : List (ℕ × ℕ)) : List Op :=
  opsFromPairsAt old new 0 0 0 pairs

/-- The difference by lines. -/
def comDiffLine (old new : String) : List Op :=
  let a := splitLines old
  let b := splitLines new
  opsFromPairs a b (lcsPairs a b)

section ByLine

variable {old new units : List String} {pairs : List (ℕ × ℕ)} {ins : String}

/-- What is emitted at a place replaces what is there. -/
theorem applyAll_emit (pre gap post : List String) (hins : splitLines ins = units) :
    applyAll (pre ++ (gap ++ post)) ((emit gap.length ins pre.length).map (Op.edit splitLines)) =
      pre ++ (units ++ post) := by
  have hdelete : applyAll (pre ++ (gap ++ post)) ((if 0 < gap.length then
      [Op.delete pre.length gap.length] else []).map (Op.edit splitLines)) = pre ++ post := by
    cases gap with
    | nil => rfl
    | cons line gap =>
      have hpos : 0 < (line :: gap).length := Nat.succ_pos _
      rw [if_pos hpos]
      exact apply_delete_append
  rw [emit, List.map_append, applyAll_append, hdelete]
  split_ifs with hempty
  · -- an empty text has no lines
    have hnone : units = [] := by
      rw [← hins, String.isEmpty_iff.mp hempty]
      rfl
    rw [hnone]
    rfl
  · rw [← hins]
    exact apply_insert_append

/-- An empty gap between two matched lines emits nothing. -/
theorem opsFromPairsAt_cons {oi ni cursor po pn : ℕ}
    (hslice : splitLines (concat ((new.drop ni).take (pn - ni))) = (new.drop ni).take (pn - ni))
    (hpn : pn ≤ new.length) :
    opsFromPairsAt old new oi ni cursor ((po, pn) :: pairs) =
      emit (po - oi) (concat ((new.drop ni).take (pn - ni))) cursor ++
        opsFromPairsAt old new (po + 1) (pn + 1) (cursor + (pn - ni) + 1) pairs := by
  rw [opsFromPairsAt]
  split_ifs with hgap
  · rfl
  · rw [Bool.or_eq_true, not_or, Bool.not_eq_true', Bool.not_eq_false, decide_eq_true_iff] at hgap
    obtain ⟨hdel, hins⟩ := hgap
    -- no text means no lines, so the places of the new text are the same
    have hnone : pn - ni = 0 := by
      have hlength := congrArg List.length hslice
      rw [String.isEmpty_iff.mp hins, List.length_take, List.length_drop] at hlength
      change 0 = _ at hlength
      omega
    rw [hnone, emit, if_neg hdel, ← hnone, if_pos hins, hnone]
    rfl

theorem applyAll_opsFromPairsAt {oi ni : ℕ} (hmatches : Matches old new oi ni pairs)
    (hslices : ∀ i n, splitLines (concat ((new.drop i).take n)) = (new.drop i).take n) :
    applyAll (new.take ni ++ old.drop oi)
      ((opsFromPairsAt old new oi ni ni pairs).map (Op.edit splitLines)) = new := by
  induction pairs generalizing oi ni with
  | nil =>
    obtain ⟨-, hni⟩ := hmatches
    have hrest : splitLines (concat (new.drop ni)) = new.drop ni := by
      have hslice := hslices ni (new.length - ni)
      rwa [List.take_of_length_le (by rw [List.length_drop])] at hslice
    have hdone := applyAll_emit (new.take ni) (old.drop oi) [] hrest
    rw [List.length_take_of_le hni, List.length_drop, List.append_nil, List.append_nil,
      List.take_append_drop] at hdone
    exact hdone
  | cons pair pairs ih =>
    obtain ⟨po, pn⟩ := pair
    obtain ⟨hoi, hni, ⟨line, ha, hb⟩, hrest⟩ := hmatches
    have hpo := (List.getElem?_eq_some_iff.mp ha).1
    have hpn := (List.getElem?_eq_some_iff.mp hb).1
    have hgap : ((old.drop oi).take (po - oi)).length = po - oi := by
      rw [List.length_take, List.length_drop]
      omega
    -- what is done of the new text grows by what was inserted and by the matched line
    have hgrow : new.take (pn + 1) =
        new.take ni ++ ((new.drop ni).take (pn - ni) ++ [line]) := by
      rw [List.take_add_one, hb, ← List.append_assoc, ← List.take_add, Nat.add_sub_cancel' hni]
      rfl
    have hdone := applyAll_emit (new.take ni) ((old.drop oi).take (po - oi))
      (line :: old.drop (po + 1)) (hslices ni (pn - ni))
    rw [← drop_eq_of_getElem? hoi ha, hgap, List.length_take_of_le (hni.trans hpn.le)] at hdone
    rw [opsFromPairsAt_cons (hslices _ _) hpn.le, List.map_append, applyAll_append, hdone]
    have hcursor : ni + (pn - ni) + 1 = pn + 1 := by omega
    have hnext := ih hrest
    rw [hgrow, List.append_assoc, List.append_assoc, List.singleton_append] at hnext
    rw [hcursor]
    exact hnext

end ByLine

theorem applyTo_eq {α : Type} (units : String → List α) (v : List α) (op : Op) :
    op.applyTo units v = (op.edit units).apply v := by
  cases op with
  | delete idx len =>
    rw [Op.applyTo, Op.edit, Edit.apply, ← List.take_eq_take_min, ← List.drop_eq_drop_min]
    rcases le_total idx v.length with hle | hle
    · rw [min_eq_left hle]
    · -- beyond the end there is nothing to delete
      rw [min_eq_right hle, List.drop_eq_nil_of_le (Nat.le_add_right _ _),
        List.drop_eq_nil_of_le (hle.trans (Nat.le_add_right _ _))]
  | insert idx m =>
    rw [Op.applyTo, Op.edit, Edit.apply, ← List.take_eq_take_min, ← List.drop_eq_drop_min]

/-- Applying operations in order is doing the script of their edits. -/
theorem foldl_applyTo {α : Type} (units : String → List α) (v : List α) (ops : List Op) :
    ops.foldl (Op.applyTo units) v = applyAll v (ops.map (Op.edit units)) := by
  rw [applyAll, List.foldl_map]
  simp only [funext fun v => funext fun op => applyTo_eq units v op]

/-- The difference by lines makes the lines of the new text of those of the old. -/
theorem applyAll_comDiffLine (old new : String) :
    applyAll (splitLines old) ((comDiffLine old new).map (Op.edit splitLines)) =
      splitLines new := by
  refine applyAll_opsFromPairsAt (matches_lcsPairs _ _) fun i n => ?_
  rw [splitLines_eq, splitLines_eq]
  exact splitInclusive_concat i n

theorem applyLines_comDiffLine (old new : String) :
    applyLines old (comDiffLine old new) = new := by
  rw [applyLines, foldl_applyTo, applyAll_comDiffLine, splitLines_eq, concat_splitInclusive]

end SafeHub.SGit
