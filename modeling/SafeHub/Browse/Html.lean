import SafeHub.Lib.Markup
import SafeHub.SGit.Command

/-!
# Files and patches on the browser's pages

A patch is shown line by line, with added and deleted lines coloured, and a file as a table with
line numbers. What a reader sees is the text itself, whatever it contains.

## Main definitions

* `escapeHtml` — characters that mean something in markup
* `renderDiffHtml`, `codeWithLines` — a patch and a file

## Main results

* `shown_renderDiffHtml` — a patch is seen as it is, up to its line endings
* `shown_codeWithLines` — a file is seen as it is, with its line numbers
-/

namespace SafeHub.Browse

open Markup SGit

/-- `escape` -/
def pageReferences : List (Char × List Char) :=
  [('&', "&amp;".toList), ('<', "&lt;".toList), ('>', "&gt;".toList), ('"', "&quot;".toList),
    ('\'', "&#39;".toList)]

def escapeHtml (s : String) : List Char := escape pageReferences s.toList

/-- The class of a line of a patch. -/
def lineClass (line : List Char) : Option String :=
  if ['+'].isPrefixOf line ∧ ¬ ['+', '+', '+'].isPrefixOf line then some "add"
  else if ['-'].isPrefixOf line ∧ ¬ ['-', '-', '-'].isPrefixOf line then some "del"
  else none

/-- A tag, with its attributes. -/
def tag (inner : String) : List Char := '<' :: (inner.toList ++ ['>'])

def diffLine (line : String) : List Char :=
  (match lineClass line.toList with
    | none => escapeHtml line
    | some cls => tag ("span class=\"" ++ cls ++ "\"") ++ escapeHtml line ++ tag "/span") ++ ['\n']

def renderDiffHtml (patch : String) : List Char :=
  tag "div class=\"diff\"" ++ (lines patch).flatMap diffLine ++ tag "/div"

/-- A row of a file's table. -/
def codeRow (n : ℕ) (line : String) : List Char :=
  tag "tr" ++ tag "td class=\"ln\"" ++ n.repr.toList ++ tag "/td" ++ tag "td class=\"lc\"" ++
    escapeHtml line ++ tag "/td" ++ tag "/tr"

def codeWithLines (content : String) : List Char :=
  tag "table class=\"line-table\" aria-label=\"File contents\"" ++ tag "tbody" ++
    ((lines content).zipIdx 1).flatMap (fun (line, n) => codeRow n line) ++
    (if content = "" then codeRow 1 "" else []) ++ (tag "/tbody" ++ tag "/table")

/-! ### What is seen -/

theorem pageReferences_prefix : ∀ entry ∈ pageReferences, ∀ other ∈ pageReferences,
    entry.2 <+: other.2 → entry = other := by
  simp [pageReferences]

theorem pageReferences_head : ∀ entry ∈ pageReferences, ∀ c ∈ entry.2.head?,
    c ∈ pageReferences.map Prod.fst := by
  simp [pageReferences]

/-- An escaped text is read as it was. -/
theorem unescape_escapeHtml (cs : List Char) :
    unescape pageReferences (escape pageReferences cs) = cs :=
  unescape_escape pageReferences_prefix pageReferences_head (by decide) cs

theorem lt_notMem_escapeHtml (s : String) : '<' ∉ escapeHtml s :=
  notMem_escape (by decide) (by decide) s.toList

/-- A tag is not seen. -/
theorem stripTags_tag {inner : String} (h : '>' ∉ inner.toList) (rest : List Char) :
    stripTags false (tag inner ++ rest) = stripTags false rest :=
  IsTag.stripTags_append ⟨inner.toList, h, rfl⟩ rest

/-- A line of a patch, whatever its colour. -/
theorem stripTags_diffLine (line : String) (rest : List Char) :
    stripTags false (diffLine line ++ rest) = escapeHtml line ++ '\n' :: stripTags false rest := by
  have hspan (cls : String) (hcls : '>' ∉ ("span class=\"" ++ cls ++ "\"").toList) :
      stripTags false (tag ("span class=\"" ++ cls ++ "\"") ++ escapeHtml line ++ tag "/span" ++
        ['\n'] ++ rest) = escapeHtml line ++ '\n' :: stripTags false rest := by
    rw [List.append_assoc, List.append_assoc, List.append_assoc, stripTags_tag hcls,
      stripTags_append_of_notMem (lt_notMem_escapeHtml line), stripTags_tag (by decide)]
    rfl
  rw [diffLine]
  cases hcls : lineClass line.toList with
  | none =>
    dsimp only
    rw [List.append_assoc, stripTags_append_of_notMem (lt_notMem_escapeHtml line)]
    rfl
  | some cls =>
    refine hspan cls ?_
    rw [lineClass] at hcls
    split_ifs at hcls
    · obtain rfl := Option.some.inj hcls
      decide
    · obtain rfl := Option.some.inj hcls
      decide

/-- A patch is seen as it is, up to its line endings. -/
theorem shown_renderDiffHtml (patch : String) : shown pageReferences (renderDiffHtml patch) =
    (lines patch).flatMap fun line => line.toList ++ ['\n'] := by
  have hlines (rest : List Char) : stripTags false ((lines patch).flatMap diffLine ++ rest) =
      (lines patch).flatMap (fun line => escapeHtml line ++ ['\n']) ++ stripTags false rest := by
    induction lines patch with
    | nil => rfl
    | cons line rows ih =>
      rw [List.flatMap_cons, List.flatMap_cons, List.append_assoc, stripTags_diffLine, ih]
      simp only [List.append_assoc, List.cons_append, List.nil_append]
  have hescape : (lines patch).flatMap (fun line => escapeHtml line ++ ['\n']) =
      escape pageReferences ((lines patch).flatMap fun line => line.toList ++ ['\n']) := by
    rw [escape_flatMap]
    refine List.flatMap_congr fun line _ => ?_
    rw [escape_append, escapeHtml]
    congr 1
  have hend : stripTags false (tag "/div") = [] := by
    rw [← List.append_nil (tag "/div"), stripTags_tag (by decide)]
    rfl
  rw [shown, renderDiffHtml, List.append_assoc, stripTags_tag (by decide), hlines, hend,
    List.append_nil, hescape, unescape_escapeHtml]

theorem digit_of_mem_repr {n : ℕ} {c : Char} (hc : c ∈ n.repr.toList) : c.isDigit = true := by
  rw [Nat.toList_repr] at hc
  exact Nat.isDigit_of_mem_toDigits (by decide) (by decide) hc

/-- A number needs no references. -/
theorem escape_repr (n : ℕ) : escape pageReferences n.repr.toList = n.repr.toList := by
  have hkeys : ∀ c ∈ pageReferences.map Prod.fst, c.isDigit = false := by
    simp [pageReferences]
  refine escape_of_notMem fun c hc hkey => ?_
  have hdigit := digit_of_mem_repr hc
  rw [hkeys c hkey] at hdigit
  cases hdigit

/-- A row shows its number and its line. -/
theorem stripTags_codeRow (n : ℕ) (line : String) (rest : List Char) :
    stripTags false (codeRow n line ++ rest) =
      escape pageReferences (n.repr.toList ++ line.toList) ++ stripTags false rest := by
  have hnumber : '<' ∉ n.repr.toList := fun hc => by
    have hdigit := digit_of_mem_repr hc
    cases hdigit
  rw [codeRow, escape_append, escape_repr]
  simp only [List.append_assoc]
  rw [stripTags_tag (by decide), stripTags_tag (by decide), stripTags_append_of_notMem hnumber,
    stripTags_tag (by decide), stripTags_tag (by decide),
    stripTags_append_of_notMem (lt_notMem_escapeHtml line), stripTags_tag (by decide),
    stripTags_tag (by decide)]
  rfl

theorem stripTags_rows (rows : List (String × ℕ)) (rest : List Char) :
    stripTags false (rows.flatMap (fun (line, n) => codeRow n line) ++ rest) =
      escape pageReferences (rows.flatMap fun (line, n) => n.repr.toList ++ line.toList) ++
        stripTags false rest := by
  induction rows with
  | nil => rfl
  | cons row rows ih =>
    rw [List.flatMap_cons, List.flatMap_cons, List.append_assoc, stripTags_codeRow, ih,
      @escape_append pageReferences (row.2.repr.toList ++ row.1.toList), List.append_assoc]

/-- A file is seen as it is, with its line numbers; an empty one has one empty line. -/
theorem shown_codeWithLines (content : String) : shown pageReferences (codeWithLines content) =
    (((if content = "" then [""] else lines content).zipIdx 1).flatMap fun (line, n) =>
      n.repr.toList ++ line.toList) := by
  have hrows : ((lines content).zipIdx 1).flatMap (fun (line, n) => codeRow n line) ++
      (if content = "" then codeRow 1 "" else []) =
      ((if content = "" then [""] else lines content).zipIdx 1).flatMap fun (line, n) =>
        codeRow n line := by
    split
    · next hempty =>
      subst hempty
      rw [(by decide : lines "" = [])]
      simp
    · rw [List.append_nil]
  have hend : stripTags false (tag "/tbody" ++ tag "/table") = [] := by
    rw [stripTags_tag (by decide), ← List.append_nil (tag "/table"), stripTags_tag (by decide)]
    rfl
  rw [shown, codeWithLines, List.append_assoc _ _ (ite _ _ _), hrows]
  simp only [List.append_assoc]
  rw [stripTags_tag (by decide), stripTags_tag (by decide), stripTags_rows, hend, List.append_nil,
    unescape_escapeHtml]

end SafeHub.Browse
