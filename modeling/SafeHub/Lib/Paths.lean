import Mathlib.Data.List.Infix
import Mathlib.Tactic.SplitIfs

/-!
# File paths

A path is a list of pieces from the root: joining an absolute text replaces it, joining another
one extends it. Resolving a path enters one piece after the other, where empty pieces and single
dots stay and double dots go up. A walk within a directory either stays below it or reports what
is left of the path when it goes above.

## Main definitions

* `Plain`, `pieces`, `join` — names, and texts as paths
* `enter`, `walk`, `resolve` — where a path leads
* `walkWithin` — a walk that must stay below a directory

## Main results

* `plain_of_mem_resolve` — a resolved path has plain pieces
* `walk_append` — a walk from below a directory, by the walk within it
-/

namespace Paths

/-- A name that stays what it is as a piece of a path. -/
def Plain (s : String) : Prop := s ≠ "" ∧ s ≠ "." ∧ s ≠ ".." ∧ '/' ∉ s.toList

instance : DecidablePred Plain := fun _ => inferInstanceAs (Decidable (_ ∧ _))

/-- The pieces of a text between separators. -/
def pieces (s : String) : List String := (s.toList.splitOn '/').map String.ofList

/-- Pieces as a text. -/
def text (parts : List String) : String :=
  String.ofList (['/'].intercalate (parts.map String.toList))

def IsAbsolute (s : String) : Prop := s.toList.head? = some '/'

instance : DecidablePred IsAbsolute := fun _ => inferInstanceAs (Decidable (_ = _))

/-- A path extended by a text, or replaced by an absolute one. -/
def join (base : List String) (s : String) : List String :=
  if IsAbsolute s then pieces s else base ++ pieces s

/-- Go from a directory to one of its entries, stay, or go up. -/
def enter (dir : List String) (piece : String) : List String :=
  if piece = "" ∨ piece = "." then dir
  else if piece = ".." then dir.dropLast
  else dir ++ [piece]

/-- Where pieces lead from a directory. -/
def walk (dir path : List String) : List String := path.foldl enter dir

/-- Where a path leads from the root. -/
def resolve (path : List String) : List String := walk [] path

/-- Where pieces lead from `dir` within a base directory, or what is left of them when they go
above it. -/
def walkWithin : (dir path : List String) → Except (List String) (List String)
  | dir, [] => .ok dir
  | dir, piece :: rest =>
    if piece = "" ∨ piece = "." then walkWithin dir rest
    else if piece = ".." then if dir = [] then .error rest else walkWithin dir.dropLast rest
    else walkWithin (dir ++ [piece]) rest

/-- A path leads to somewhere below a directory. -/
def Below (dir path : List String) : Prop := ∃ rest ≠ [], path = dir ++ rest

variable {s piece : String} {base dir path more rest : List String}

theorem walk_append_path : walk dir (path ++ more) = walk (walk dir path) more :=
  List.foldl_append

theorem walk_singleton (h : Plain piece) : walk dir [piece] = dir ++ [piece] := by
  change enter dir piece = _
  rw [enter, if_neg (not_or.mpr ⟨h.1, h.2.1⟩), if_neg h.2.2.1]

theorem resolve_join : resolve (join base s) =
    walk (if IsAbsolute s then [] else resolve base) (pieces s) := by
  rw [join]
  split_ifs
  · rfl
  · exact walk_append_path

/-! ### Pieces -/

/-- The pieces of a text are in it, without the separators. -/
theorem mem_of_mem_splitOn {sep c : Char} {cs part : List Char} (h : part ∈ cs.splitOn sep)
    (hc : c ∈ part) : c ∈ cs ∧ c ≠ sep := by
  induction cs generalizing part with
  | nil =>
    rw [List.splitOn_nil, List.mem_singleton] at h
    rw [h] at hc
    cases hc
  | cons d cs ih =>
    rw [List.splitOn_cons_eq_if_modifyHead] at h
    split_ifs at h with hd
    · rcases List.mem_cons.mp h with rfl | hrest
      · cases hc
      · exact (ih hrest hc).imp_left (List.mem_cons_of_mem d)
    · cases hparts : cs.splitOn sep with
      | nil => exact absurd hparts (List.splitOn_ne_nil _ _)
      | cons first parts =>
        rw [hparts, List.modifyHead_cons] at h
        rw [hparts] at ih
        rcases List.mem_cons.mp h with rfl | hrest
        · rcases List.mem_cons.mp hc with rfl | hlater
          · exact ⟨List.mem_cons_self, fun heq => hd (beq_iff_eq.mpr heq)⟩
          · exact (ih List.mem_cons_self hlater).imp_left (List.mem_cons_of_mem d)
        · exact (ih (List.mem_cons_of_mem _ hrest) hc).imp_left (List.mem_cons_of_mem d)

theorem not_mem_of_mem_splitOn {sep : Char} {cs part : List Char} (h : part ∈ cs.splitOn sep) :
    sep ∉ part := fun hc => (mem_of_mem_splitOn h hc).2 rfl

theorem mem_intercalate {c : Char} {sep : List Char} {parts : List (List Char)}
    (h : c ∈ sep.intercalate parts) : c ∈ sep ∨ ∃ part ∈ parts, c ∈ part := by
  induction parts with
  | nil => cases h
  | cons part parts ih =>
    cases parts with
    | nil =>
      rw [List.intercalate_singleton] at h
      exact .inr ⟨part, List.mem_cons_self, h⟩
    | cons next parts =>
      rw [List.intercalate_cons_cons, List.mem_append, List.mem_append] at h
      rcases h with (hpart | hsep) | hrest
      · exact .inr ⟨part, List.mem_cons_self, hpart⟩
      · exact .inl hsep
      · refine (ih hrest).imp_right fun ⟨other, hother, hmem⟩ => ?_
        exact ⟨other, List.mem_cons_of_mem _ hother, hmem⟩

/-- The last piece stands after the last separator. -/
theorem intercalate_concat {parts : List (List Char)} (sep : Char) (hne : parts ≠ [])
    (last : List Char) :
    [sep].intercalate (parts ++ [last]) = [sep].intercalate parts ++ sep :: last := by
  induction parts with
  | nil => exact absurd rfl hne
  | cons part parts ih =>
    cases parts with
    | nil =>
      rw [List.singleton_append, List.intercalate_cons_cons, List.intercalate_singleton,
        List.intercalate_singleton, List.append_assoc, List.singleton_append]
    | cons next parts =>
      have hrest := ih (List.cons_ne_nil _ _)
      rw [List.cons_append] at hrest
      rw [List.cons_append, List.cons_append, List.intercalate_cons_cons, hrest,
        List.intercalate_cons_cons, List.append_assoc _ _ (sep :: last)]

theorem not_mem_of_mem_pieces (h : piece ∈ pieces s) : '/' ∉ piece.toList := by
  obtain ⟨part, hpart, rfl⟩ := List.mem_map.mp h
  rw [String.toList_ofList]
  exact not_mem_of_mem_splitOn hpart

theorem pieces_eq_singleton (h : '/' ∉ s.toList) : pieces s = [s] := by
  rw [pieces, List.splitOn_eq_singleton h, List.map_singleton, String.ofList_toList]

theorem splitOn_append {cs ending : List Char} (h : '/' ∉ ending) : ∃ front last,
    cs.splitOn '/' = front ++ [last] ∧ (cs ++ ending).splitOn '/' = front ++ [last ++ ending] := by
  induction cs with
  | nil => exact ⟨[], [], List.splitOn_nil _, List.splitOn_eq_singleton h⟩
  | cons c cs ih =>
    obtain ⟨front, last, hcs, hmore⟩ := ih
    rw [List.cons_append, List.splitOn_cons_eq_if_modifyHead, List.splitOn_cons_eq_if_modifyHead,
      hcs, hmore]
    split_ifs
    · exact ⟨[] :: front, last, rfl, rfl⟩
    · cases front with
      | nil => exact ⟨[], c :: last, rfl, rfl⟩
      | cons first front => exact ⟨(c :: first) :: front, last, rfl, rfl⟩

/-- An ending goes to the last piece. -/
theorem pieces_append {ending : String} (h : '/' ∉ ending.toList) : ∃ front last,
    pieces s = front ++ [last] ∧ pieces (s ++ ending) = front ++ [last ++ ending] := by
  obtain ⟨front, last, hs, hmore⟩ := splitOn_append h
  refine ⟨front.map String.ofList, String.ofList last, ?_, ?_⟩
  · rw [pieces, hs, List.map_append, List.map_singleton]
  · rw [pieces, String.toList_append, hmore, List.map_append, List.map_singleton,
      String.ofList_append, String.ofList_toList]

theorem text_pieces (s : String) : text (pieces s) = s := by
  have hlist : String.toList ∘ String.ofList = id := by
    funext cs
    exact String.toList_ofList
  rw [text, pieces, List.map_map, hlist, List.map_id, List.intercalate_splitOn,
    String.ofList_toList]

theorem pieces_text {parts : List String} (hne : parts ≠ [])
    (h : ∀ part ∈ parts, '/' ∉ part.toList) : pieces (text parts) = parts := by
  have hlist : String.ofList ∘ String.toList = id := by
    funext s
    exact String.ofList_toList
  rw [text, pieces, String.toList_ofList, List.splitOn_intercalate, List.map_map, hlist,
    List.map_id]
  · intro cs hcs
    obtain ⟨part, hpart, rfl⟩ := List.mem_map.mp hcs
    exact h part hpart
  · exact fun hnil => hne (List.map_eq_nil_iff.mp hnil)

theorem toList_text_singleton {part : String} : (text [part]).toList = part.toList := by
  rw [text, String.toList_ofList, List.map_singleton, List.intercalate_singleton]

theorem toList_text_cons {part next : String} {parts : List String} :
    (text (part :: next :: parts)).toList =
      part.toList ++ '/' :: (text (next :: parts)).toList := by
  rw [text, text, String.toList_ofList, String.toList_ofList, List.map_cons, List.map_cons,
    List.intercalate_cons_cons, List.append_assoc]
  rfl

theorem mem_text_iff {c : Char} (hc : c ≠ '/') {parts : List String} :
    c ∈ (text parts).toList ↔ ∃ part ∈ parts, c ∈ part.toList := by
  induction parts with
  | nil => simp [text]
  | cons part rest ih =>
    cases rest with
    | nil => simp [toList_text_singleton]
    | cons next rest =>
      rw [toList_text_cons, List.mem_append, List.mem_cons, or_iff_right hc, ih]
      simp

/-- A text of fewer pieces is left when some are taken out. -/
theorem text_sublist {parts parts' : List String} (h : parts.Sublist parts') :
    (text parts).toList.Sublist (text parts').toList := by
  induction h with
  | slnil => exact List.Sublist.refl _
  | @cons parts parts' part h ih =>
    cases parts' with
    | nil =>
      rw [List.sublist_nil.mp h]
      exact List.nil_sublist _
    | cons next rest =>
      rw [toList_text_cons]
      exact ih.trans ((List.sublist_cons_self _ _).trans (List.sublist_append_right _ _))
  | @cons_cons parts parts' part h ih =>
    match parts, parts' with
    | [], [] => exact List.Sublist.refl _
    | [], next' :: rest' =>
      rw [toList_text_singleton, toList_text_cons]
      exact List.sublist_append_left _ _
    | next :: rest, next' :: rest' =>
      rw [toList_text_cons, toList_text_cons]
      exact (List.Sublist.refl _).append (ih.cons_cons _)

theorem not_isAbsolute (h : '/' ∉ s.toList) : ¬ IsAbsolute s :=
  fun habsolute => h (List.mem_of_head? habsolute)

/-- A plain name joined to a path is an entry of the directory that the path leads to. -/
theorem resolve_join_plain (h : Plain s) : resolve (join base s) = resolve base ++ [s] := by
  rw [resolve_join, if_neg (not_isAbsolute h.2.2.2), pieces_eq_singleton h.2.2.2, walk_singleton h]

/-- A text without separators becomes a plain name with an extension of three characters. -/
theorem plain_append {ext : String} (h : '/' ∉ s.toList) (hext : '/' ∉ ext.toList)
    (hlength : 3 ≤ ext.toList.length) : Plain (s ++ ext) := by
  have hlong : ∀ {text : String}, s ++ ext = text → 3 ≤ text.toList.length := by
    rintro _ rfl
    rw [String.toList_append, List.length_append]
    exact hlength.trans (Nat.le_add_left _ _)
  refine ⟨fun heq => ?_, fun heq => ?_, fun heq => ?_, ?_⟩
  · exact absurd (hlong heq) (by decide)
  · exact absurd (hlong heq) (by decide)
  · exact absurd (hlong heq) (by decide)
  · rw [String.toList_append, List.mem_append, not_or]
    exact ⟨h, hext⟩

/-! ### Where walks lead -/

theorem plain_of_mem_enter (hpiece : '/' ∉ piece.toList) (hdir : ∀ p ∈ dir, Plain p) :
    ∀ p ∈ enter dir piece, Plain p := by
  rw [enter]
  split_ifs with hstay hup
  · exact hdir
  · exact fun p hp => hdir p (List.mem_of_mem_dropLast hp)
  · intro p hp
    rcases List.mem_append.mp hp with hold | hnew
    · exact hdir p hold
    · rw [List.mem_singleton.mp hnew]
      rw [not_or] at hstay
      exact ⟨hstay.1, hstay.2, hup, hpiece⟩

theorem plain_of_mem_walk (hpath : ∀ p ∈ path, '/' ∉ p.toList) (hdir : ∀ p ∈ dir, Plain p) :
    ∀ p ∈ walk dir path, Plain p := by
  induction path generalizing dir with
  | nil => exact hdir
  | cons piece rest ih =>
    exact ih (fun p hp => hpath p (List.mem_cons_of_mem _ hp))
      (plain_of_mem_enter (hpath piece List.mem_cons_self) hdir)

/-- A resolved path has plain pieces. -/
theorem plain_of_mem_resolve (hpath : ∀ p ∈ path, '/' ∉ p.toList) :
    ∀ p ∈ resolve path, Plain p :=
  plain_of_mem_walk hpath fun _ hp => absurd hp List.not_mem_nil

theorem not_mem_of_mem_join (hbase : ∀ p ∈ base, '/' ∉ p.toList) :
    ∀ p ∈ join base s, '/' ∉ p.toList := by
  intro p hp
  rw [join] at hp
  split_ifs at hp
  · exact not_mem_of_mem_pieces hp
  · rcases List.mem_append.mp hp with hold | hnew
    · exact hbase p hold
    · exact not_mem_of_mem_pieces hnew

/-- A walk from below a directory, by the walk within it. -/
theorem walk_append (base dir path : List String) : walk (base ++ dir) path =
    match walkWithin dir path with
    | .ok dir => base ++ dir
    | .error rest => walk base.dropLast rest := by
  induction path generalizing dir with
  | nil => rfl
  | cons piece rest ih =>
    change walk (enter (base ++ dir) piece) rest = _
    rw [walkWithin, enter]
    split_ifs with hstay hup hempty
    · exact ih dir
    · rw [hempty, List.append_nil]
    · rw [List.dropLast_append_of_ne_nil hempty]
      exact ih dir.dropLast
    · rw [List.append_assoc]
      exact ih (dir ++ [piece])

theorem Below.mem (h : Below (dir ++ [piece]) path) : piece ∈ path := by
  obtain ⟨rest, -, rfl⟩ := h
  simp

end Paths
