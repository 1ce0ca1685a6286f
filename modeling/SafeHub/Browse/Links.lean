import SafeHub.Lib.Paths
import SafeHub.Lib.Percent
import SafeHub.Lib.Trim
import SafeHub.Types.RefHead
import Mathlib.Algebra.Order.BigOperators.Group.List

/-!
# Links to pages

Pages of the browser are linked by a ref and a path of its tree, both percent-encoded, and the
separators of the path stay. The framework decodes what a route captures, once. The handlers then
decode the ref and each piece of the path again, as forms are decoded, and clean the path: white
space around it, separators before it and empty pieces are dropped.

## Main definitions

* `refLink`, `pathLink` — the links of a page
* `refOf`, `pageOf` — what the handlers of a link look up
* `LinksResolve` — the links of a ref and a path lead to them

## Main results

* `linksResolve_iff` — the refs and paths whose links lead to them
-/

namespace SafeHub.Browse

open Paths (pieces text)
open Trim

/-! ### Encoding -/

def isUnreserved (b : UInt8) : Bool :=
  0x41 ≤ b && b ≤ 0x5A || 0x61 ≤ b && b ≤ 0x7A || 0x30 ≤ b && b ≤ 0x39 ||
    b == 0x2D || b == 0x5F || b == 0x2E || b == 0x7E

def encodePathSeg (s : String) : String :=
  String.ofList (Percent.escape isUnreserved (strBytes s))

def encodeRef (rev : String) : String := encodePathSeg rev

def encodePathSegPath (path : String) : String := text ((pieces path).map encodePathSeg)

/-! ### Decoding -/

def plusToSpace (b : UInt8) : UInt8 := if b = 0x2B then 0x20 else b

def percentDecode (s : String) : String :=
  String.ofList (Utf8.lossy (Percent.decodeWith plusToSpace (strBytes s)))

def decodeRef (s : String) : String := percentDecode s

def decodePath (path : String) : String :=
  text (((pieces path).map percentDecode).filter (· ≠ ""))

def cleanParts : List String → Except String (List String)
  | [] => .ok []
  | part :: rest =>
    if part = "" ∨ part = "." then cleanParts rest
    else if part = ".." then .error "path escape (..) is not allowed"
    else if '\x00' ∈ part.toList then .error "invalid path component"
    else (cleanParts rest).map (part :: ·)

def normalizeRepoPath (path : String) : Except String String :=
  let path := (trim path.toList).dropWhile (· = '/')
  if path = [] then .ok ""
  else if path.head? = some '/' then .error "absolute paths are not allowed"
  else (cleanParts (pieces (String.ofList path))).map text

/-! ### Routes -/

inductive ViewMode
  | localView
  | remoteView

def ViewMode.front : ViewMode → String
  | localView => ""
  | remoteView => "/remote"

/-- The pages of a ref. -/
inductive RefPage
  | tree
  | commits
  | commit

def RefPage.front : RefPage → String
  | tree => "/tree/"
  | commits => "/commits/"
  | commit => "/commit/"

/-- The pages of a path. -/
inductive PathPage
  | tree
  | blob

def PathPage.front : PathPage → String
  | tree => "/tree/"
  | blob => "/blob/"

def refLink (mode : ViewMode) (page : RefPage) (rev : String) : String :=
  mode.front ++ page.front ++ encodeRef rev

def pathLink (mode : ViewMode) (page : PathPage) (rev path : String) : String :=
  mode.front ++ page.front ++ encodeRef rev ++ "/" ++ encodePathSegPath path

/-- A text without the marks that end the path of a request. -/
def InPath (s : String) : Prop := '?' ∉ s.toList ∧ '#' ∉ s.toList

/-- What the framework captures of a request by a route with a front and then `{rev}` or
`{rev}/{*path}`, and how it decodes what it captured. -/
structure AxumPath where
  captureRev (front uri : String) : Option String
  captureRevPath (front uri : String) : Option (String × String)
  decode : String → Option String
  captureRev_append {front rev : String} : InPath (front ++ rev) → rev ≠ "" →
    '/' ∉ rev.toList → captureRev front (front ++ rev) = some rev
  captureRevPath_append {front rev path : String} : InPath (front ++ rev ++ "/" ++ path) →
    rev ≠ "" → '/' ∉ rev.toList → path ≠ "" →
    captureRevPath front (front ++ rev ++ "/" ++ path) = some (rev, path)
  /-- Escapes are replaced by their bytes, and other characters stay. -/
  decode_escape {keep : UInt8 → Bool} : (∀ x, keep x = true → x < 128 ∧ x ≠ 0x25) →
    ∀ s, decode (String.ofList (Percent.escape keep (strBytes s))) = some s

/-- The ref that the handler of a link looks up. -/
def refOf (axum : AxumPath) (mode : ViewMode) (page : RefPage) (uri : String) :
    Option String := do
  let rev ← axum.captureRev (mode.front ++ page.front) uri
  let rev ← axum.decode rev
  return decodeRef rev

/-- The ref and the path that the handler of a link looks up. -/
def pageOf (axum : AxumPath) (mode : ViewMode) (page : PathPage) (uri : String) :
    Option (String × Except String String) := do
  let (rev, path) ← axum.captureRevPath (mode.front ++ page.front) uri
  let rev ← axum.decode rev
  let path ← axum.decode path
  return (decodeRef rev, normalizeRepoPath (decodePath path))

/-- A name of a ref. -/
structure RefName where
  text : String
  ne_empty : text ≠ ""

/-- A path that a tree can hold. -/
structure TreePath where
  parts : List String
  ne_nil : parts ≠ []
  plain : ∀ part ∈ parts, Paths.Plain part ∧ '\x00' ∉ part.toList

def TreePath.text (path : TreePath) : String := Paths.text path.parts

/-- The links of a ref, and those of a path of its tree, lead to that ref and that path. -/
structure LinksResolve (axum : AxumPath) (rev : RefName) (path : TreePath) : Prop where
  ref (mode : ViewMode) (page : RefPage) :
    refOf axum mode page (refLink mode page rev.text) = some rev.text
  path (mode : ViewMode) (page : PathPage) :
    pageOf axum mode page (pathLink mode page rev.text path.text) = some (rev.text, .ok path.text)

/-- A text that is decoded to itself: no plus sign, and no percent sign before two hexadecimal
digits. -/
def Undecoded (s : String) : Prop := '+' ∉ s.toList ∧ Percent.NoEscape (strBytes s)

/-- A ref and the pieces of a path that are decoded to themselves, and a path without white space
at its ends. -/
structure StaysSame (rev : RefName) (path : TreePath) : Prop where
  rev : Undecoded rev.text
  part : ∀ part ∈ path.parts, Undecoded part
  trimmed : Trimmed path.text.toList

section Decoding

variable {s : String} {cs : List Char} {parts : List String}

theorem strBytes_eq_encode (s : String) : strBytes s = Utf8.encode s.toList := by
  rw [strBytes_eq, ← String.utf8Encode_toList, Utf8.encode, List.utf8Encode]
  simp

theorem ascii_strBytes (s : String) :
    Utf8.ascii (strBytes s) = s.toList.filter (·.val < 128) := by
  rw [strBytes_eq_encode, ← Utf8.filter_lossy, Utf8.lossy_encode]

theorem filter_percentDecode (s : String) : (percentDecode s).toList.filter (·.val < 128) =
    Utf8.ascii (Percent.decodeWith plusToSpace (strBytes s)) := by
  rw [percentDecode, String.toList_ofList, Utf8.filter_lossy]

theorem mem_strBytes_iff {x : UInt8} (h : x < 128) :
    x ∈ strBytes s ↔ Char.ofUInt8 x ∈ s.toList := by
  rw [← Utf8.ofUInt8_mem_ascii h, ascii_strBytes, List.mem_filter, and_iff_left]
  rw [decide_eq_true_eq, UInt32.lt_iff_toNat_lt]
  simpa [Utf8.val_ofUInt8] using UInt8.lt_iff_toNat_lt.mp h

theorem plusToSpace_lt (x : UInt8) : plusToSpace x < 128 ↔ x < 128 := by
  rw [plusToSpace]
  split_ifs with hplus
  · rw [hplus]
    decide
  · exact Iff.rfl

theorem percentDecode_eq_self (h : Undecoded s) : percentDecode s = s := by
  have hmap : (strBytes s).map plusToSpace = strBytes s := by
    refine (List.map_congr_left ?_).trans (List.map_id _)
    intro x hx
    rw [plusToSpace, if_neg, id]
    rintro rfl
    exact h.1 ((mem_strBytes_iff (by decide)).mp hx)
  rw [percentDecode, h.2.decodeWith, hmap, strBytes_eq_encode, Utf8.lossy_encode,
    String.ofList_toList]

/-- The number of ASCII characters. -/
def asciiLength (s : String) : ℕ := (s.toList.filter (·.val < 128)).length

/-- Decoding leaves no plus signs, or leaves fewer ASCII characters. -/
theorem percentDecode_cases (s : String) :
    Percent.NoEscape (strBytes s) ∧ '+' ∉ (percentDecode s).toList ∧
      asciiLength (percentDecode s) = asciiLength s ∨
    asciiLength (percentDecode s) < asciiLength s := by
  rw [asciiLength, asciiLength, filter_percentDecode, ← ascii_strBytes]
  rcases Percent.decodeWith_cases plusToSpace_lt (strBytes s) with ⟨hnone, hmap⟩ | hlt
  · refine .inl ⟨hnone, ?_, by rw [hmap, Percent.length_ascii_map plusToSpace_lt]⟩
    intro hplus
    have hmem : '+' ∈ (percentDecode s).toList.filter (·.val < 128) :=
      List.mem_filter.mpr ⟨hplus, by decide⟩
    rw [filter_percentDecode, hmap] at hmem
    obtain ⟨x, -, hx⟩ := List.mem_map.mp ((Utf8.ofUInt8_mem_ascii (x := 0x2B) (by decide)).mp hmem)
    rw [plusToSpace] at hx
    split_ifs at hx with hplus
    · cases hx
    · exact hplus hx
  · exact .inr hlt

theorem percentDecode_eq_self_iff : percentDecode s = s ↔ Undecoded s := by
  constructor
  · intro h
    rcases percentDecode_cases s with ⟨hnone, hplus, -⟩ | hlt
    · rw [h] at hplus
      exact ⟨hplus, hnone⟩
    · rw [h] at hlt
      exact (Nat.lt_irrefl _ hlt).elim
  · exact percentDecode_eq_self

end Decoding

/-! ### Paths -/

section Paths

variable {s path : String} {parts clean : List String}

theorem sublist_of_cleanParts (h : cleanParts parts = .ok clean) : clean.Sublist parts := by
  induction parts generalizing clean with
  | nil =>
    cases h
    exact List.Sublist.refl _
  | cons part rest ih =>
    rw [cleanParts] at h
    split_ifs at h with hskip hup hnul
    · exact (ih h).cons part
    · cases hrest : cleanParts rest with
      | error e =>
        rw [hrest] at h
        cases h
      | ok clean' =>
        rw [hrest] at h
        cases h
        exact (ih hrest).cons_cons part

/-- Cleaning a path only drops characters. -/
theorem sublist_of_normalizeRepoPath (h : normalizeRepoPath path = .ok s) :
    s.toList.Sublist (trim path.toList) := by
  rw [normalizeRepoPath] at h
  split_ifs at h with hempty habsolute
  · cases h
    exact List.nil_sublist _
  · cases hparts : cleanParts (pieces (String.ofList ((trim path.toList).dropWhile (· = '/')))) with
    | error e =>
      rw [hparts] at h
      cases h
    | ok clean =>
      rw [hparts] at h
      cases h
      have hsublist := Paths.text_sublist (sublist_of_cleanParts hparts)
      rw [Paths.text_pieces, String.toList_ofList] at hsublist
      exact hsublist.trans (List.dropWhile_sublist _)

theorem cleanParts_eq_self (h : ∀ part ∈ parts, Paths.Plain part ∧ '\x00' ∉ part.toList) :
    cleanParts parts = .ok parts := by
  induction parts with
  | nil => rfl
  | cons part rest ih =>
    obtain ⟨⟨hempty, hdot, hup, -⟩, hnul⟩ := h part List.mem_cons_self
    rw [cleanParts, if_neg (not_or.mpr ⟨hempty, hdot⟩), if_neg hup, if_neg hnul,
      ih fun part hpart => h part (List.mem_cons_of_mem _ hpart)]
    rfl

theorem asciiLength_le (h : s.toList.Sublist path.toList) : asciiLength s ≤ asciiLength path :=
  (h.filter _).length_le

theorem asciiLength_text (hne : parts ≠ []) :
    asciiLength (text parts) + 1 = (parts.map fun part => asciiLength part + 1).sum := by
  induction parts with
  | nil => exact absurd rfl hne
  | cons part rest ih =>
    cases rest with
    | nil => rw [asciiLength, Paths.toList_text_singleton]; rfl
    | cons next rest =>
      rw [List.map_cons, List.sum_cons, ← ih (List.cons_ne_nil _ _), asciiLength,
        Paths.toList_text_cons, List.filter_append, List.length_append,
        List.filter_cons_of_pos (by decide), List.length_cons]
      rw [asciiLength, asciiLength]
      omega

end Paths

/-! ### Links -/

section Links

variable {axum : AxumPath} {s : String} {path : TreePath} {parts : List String}

theorem isUnreserved_ascii (x : UInt8) (h : isUnreserved x = true) : x < 128 ∧ x ≠ 0x25 := by
  have hall : ∀ n : Fin 256, isUnreserved (UInt8.ofNat n) = true →
      UInt8.ofNat n < 128 ∧ UInt8.ofNat n ≠ 0x25 := by
    decide +kernel
  have hx := hall ⟨x.toNat, x.toNat_lt⟩
  rw [UInt8.ofNat_toNat] at hx
  exact hx h

/-- What is kept in a path. -/
def isKept (b : UInt8) : Bool := isUnreserved b || b == 0x2F

theorem TreePath.slash_not_mem (path : TreePath) (part : String) (h : part ∈ path.parts) :
    '/' ∉ part.toList :=
  (path.plain part h).1.2.2.2

theorem TreePath.pieces_text (path : TreePath) : pieces path.text = path.parts :=
  Paths.pieces_text path.ne_nil path.slash_not_mem

theorem TreePath.text_ne_empty (path : TreePath) : path.text ≠ "" := by
  intro hempty
  have hparts := path.pieces_text
  rw [hempty, Paths.pieces_eq_singleton (by decide)] at hparts
  exact (path.plain "" (hparts ▸ List.mem_singleton_self "")).1.1 rfl

/-- A path is encoded as a whole, where separators are kept. -/
theorem encodePathSegPath_text (hne : parts ≠ []) (h : ∀ part ∈ parts, '/' ∉ part.toList) :
    encodePathSegPath (text parts) =
      String.ofList (Percent.escape isKept (strBytes (text parts))) := by
  have hpart : ∀ part ∈ parts, encodePathSeg part =
      String.ofList (Percent.escape isKept (strBytes part)) := by
    intro part hpart
    rw [encodePathSeg, Percent.escape_congr]
    intro x hx
    have hslash : x ≠ 0x2F := by
      rintro rfl
      exact h part hpart ((mem_strBytes_iff (by decide)).mp hx)
    rw [isKept, beq_eq_false_iff_ne.mpr hslash, Bool.or_false]
  rw [encodePathSegPath, Paths.pieces_text hne h, List.map_congr_left hpart]
  clear hpart h
  apply String.toList_injective
  rw [String.toList_ofList]
  induction parts with
  | nil => exact absurd rfl hne
  | cons part rest ih =>
    cases rest with
    | nil =>
      rw [List.map_singleton, Paths.toList_text_singleton, String.toList_ofList,
        strBytes_eq_encode (text _), Paths.toList_text_singleton, strBytes_eq_encode]
    | cons next rest =>
      have hrest := ih (List.cons_ne_nil _ _)
      rw [List.map_cons] at hrest
      rw [List.map_cons, List.map_cons, Paths.toList_text_cons, hrest, String.toList_ofList,
        strBytes_eq_encode (text (part :: next :: rest)), Paths.toList_text_cons, Utf8.encode,
        List.flatMap_append, List.flatMap_cons, Percent.escape_append, Percent.escape_append,
        strBytes_eq_encode, strBytes_eq_encode]
      rfl

theorem isKept_ascii (x : UInt8) (h : isKept x = true) : x < 128 ∧ x ≠ 0x25 := by
  rcases Bool.or_eq_true_iff.mp h with hunreserved | hslash
  · exact isUnreserved_ascii x hunreserved
  · rw [eq_of_beq hslash]
    decide

theorem inPath_append {t : String} (hs : InPath s) (ht : InPath t) : InPath (s ++ t) := by
  rw [InPath, String.toList_append, List.mem_append, List.mem_append, not_or, not_or]
  exact ⟨⟨hs.1, ht.1⟩, hs.2, ht.2⟩

theorem inPath_front (mode : ViewMode) : InPath mode.front := by
  cases mode <;> exact ⟨by decide, by decide⟩

theorem inPath_escape {keep : UInt8 → Bool} (hquery : keep 0x3F = false)
    (hfragment : keep 0x23 = false) {b : Bytes} :
    InPath (String.ofList (Percent.escape keep b)) := by
  rw [InPath, String.toList_ofList]
  exact ⟨Percent.ofUInt8_not_mem_escape hquery (by decide),
    Percent.ofUInt8_not_mem_escape hfragment (by decide)⟩

theorem slash_not_mem_encodeRef : '/' ∉ (encodeRef s).toList := by
  rw [encodeRef, encodePathSeg, String.toList_ofList]
  exact Percent.ofUInt8_not_mem_escape (x := 0x2F) (by decide) (by decide)

theorem escape_ne_empty {keep : UInt8 → Bool} (h : s ≠ "") :
    String.ofList (Percent.escape keep (strBytes s)) ≠ "" := by
  intro hempty
  have hnil := congrArg String.toList hempty
  rw [String.toList_ofList] at hnil
  refine Percent.escape_ne_nil ?_ hnil
  intro hbytes
  exact h (strBytes_injective (hbytes.trans (strBytes_eq_encode "").symm))

/-- The handler of a ref's link decodes that ref once more. -/
theorem refOf_refLink (rev : RefName) (mode : ViewMode) (page : RefPage) :
    refOf axum mode page (refLink mode page rev.text) = some (decodeRef rev.text) := by
  have hpage : InPath page.front := by cases page <;> exact ⟨by decide, by decide⟩
  have hencoded : InPath (encodeRef rev.text) := inPath_escape (by decide) (by decide)
  rw [refOf, refLink, axum.captureRev_append
    (inPath_append (inPath_append (inPath_front mode) hpage) hencoded)
    (escape_ne_empty rev.ne_empty) slash_not_mem_encodeRef]
  change (axum.decode (encodeRef rev.text)).bind _ = _
  rw [encodeRef, encodePathSeg, axum.decode_escape isUnreserved_ascii]
  rfl

/-- The handler of a path's link decodes the ref and the path once more, and cleans the path. -/
theorem pageOf_pathLink (rev : RefName) (path : TreePath) (mode : ViewMode) (page : PathPage) :
    pageOf axum mode page (pathLink mode page rev.text path.text) =
      some (decodeRef rev.text, normalizeRepoPath (decodePath path.text)) := by
  have hpage : InPath page.front := by cases page <;> exact ⟨by decide, by decide⟩
  have hencoded : InPath (encodeRef rev.text) := inPath_escape (by decide) (by decide)
  have hpath : encodePathSegPath path.text =
      String.ofList (Percent.escape isKept (strBytes path.text)) :=
    encodePathSegPath_text path.ne_nil path.slash_not_mem
  have hinPath : InPath (encodePathSegPath path.text) := by
    rw [hpath]
    exact inPath_escape (by decide) (by decide)
  have hne : encodePathSegPath path.text ≠ "" := by
    rw [hpath]
    exact escape_ne_empty path.text_ne_empty
  rw [pageOf, pathLink, axum.captureRevPath_append
    (inPath_append (inPath_append (inPath_append (inPath_append (inPath_front mode) hpage) hencoded)
      ⟨by decide, by decide⟩) hinPath)
    (escape_ne_empty rev.ne_empty) slash_not_mem_encodeRef hne]
  change (axum.decode (encodeRef rev.text)).bind _ = _
  rw [encodeRef, encodePathSeg, axum.decode_escape isUnreserved_ascii]
  change (axum.decode (encodePathSegPath path.text)).bind _ = _
  rw [hpath, axum.decode_escape isKept_ascii]
  rfl

/-- The first piece of a path has a first character, which is no separator. -/
theorem TreePath.head?_ne (path : TreePath) : path.text.toList.head? ≠ some '/' := by
  intro hhead
  obtain ⟨cs, hcs⟩ := List.head?_eq_some_iff.mp hhead
  have hparts := path.pieces_text
  rw [pieces, hcs, List.splitOn_cons_eq_if_modifyHead, if_pos (beq_self_eq_true _),
    List.map_cons] at hparts
  exact (path.plain "" (hparts ▸ List.mem_cons_self)).1.1 rfl

theorem normalizeRepoPath_text (path : TreePath) (h : Trimmed path.text.toList) :
    normalizeRepoPath path.text = .ok path.text := by
  have hkeep : path.text.toList.dropWhile (· = '/') = path.text.toList := by
    rw [dropWhile_eq_self_iff]
    intro c hc
    refine decide_eq_false ?_
    rintro rfl
    exact path.head?_ne hc
  have hne : path.text.toList ≠ [] := fun hnil =>
    path.text_ne_empty (String.toList_eq_nil_iff.mp hnil)
  rw [normalizeRepoPath, trim_eq_self_iff.mpr h, hkeep, if_neg hne, if_neg path.head?_ne,
    String.ofList_toList, path.pieces_text, cleanParts_eq_self path.plain]
  rfl

theorem decodePath_text (path : TreePath) (h : ∀ part ∈ path.parts, Undecoded part) :
    decodePath path.text = path.text := by
  have hmap : path.parts.map percentDecode = path.parts :=
    (List.map_congr_left fun part hpart => percentDecode_eq_self (h part hpart)).trans
      (List.map_id _)
  rw [decodePath, path.pieces_text, hmap, List.filter_eq_self.mpr]
  · rfl
  · exact fun part hpart => decide_eq_true (path.plain part hpart).1.1

/-- A path that comes back has no piece that is decoded. -/
theorem undecoded_of_normalizeRepoPath (path : TreePath)
    (h : normalizeRepoPath (decodePath path.text) = .ok path.text) :
    ∀ part ∈ path.parts, Undecoded part := by
  -- the ASCII characters of the path are among those of its decoded pieces
  have hsublist : path.text.toList.Sublist (text (path.parts.map percentDecode)).toList := by
    refine ((sublist_of_normalizeRepoPath h).trans (trim_sublist _)).trans ?_
    rw [decodePath, path.pieces_text]
    exact Paths.text_sublist List.filter_sublist
  have hle : ∀ part ∈ path.parts,
      asciiLength (percentDecode part) + 1 ≤ asciiLength part + 1 := by
    intro part hpart
    rcases percentDecode_cases part with ⟨-, -, hlength⟩ | hlt
    · rw [hlength]
    · omega
  have hsame : ∀ part ∈ path.parts, ¬ asciiLength (percentDecode part) < asciiLength part := by
    intro part hpart hlt
    have hlength := Nat.succ_le_succ (asciiLength_le hsublist)
    have hmap : path.parts.map percentDecode ≠ [] :=
      fun hnil => path.ne_nil (List.map_eq_nil_iff.mp hnil)
    rw [Nat.succ_eq_add_one, Nat.succ_eq_add_one, TreePath.text, asciiLength_text path.ne_nil,
      asciiLength_text hmap, List.map_map] at hlength
    exact absurd (List.sum_lt_sum _ _ hle ⟨part, hpart, Nat.succ_lt_succ hlt⟩)
      (Nat.not_lt_of_le hlength)
  have hdecoded : ∀ part ∈ path.parts,
      Percent.NoEscape (strBytes part) ∧ '+' ∉ (percentDecode part).toList := by
    intro part hpart
    rcases percentDecode_cases part with ⟨hnone, hplus, -⟩ | hlt
    · exact ⟨hnone, hplus⟩
    · exact absurd hlt (hsame part hpart)
  intro part hpart
  refine ⟨fun hplus => ?_, (hdecoded part hpart).1⟩
  have htext : '+' ∈ path.text.toList :=
    (Paths.mem_text_iff (by decide)).mpr ⟨part, hpart, hplus⟩
  obtain ⟨other, hother, hmem⟩ := (Paths.mem_text_iff (by decide)).mp (hsublist.subset htext)
  obtain ⟨part', hpart', rfl⟩ := List.mem_map.mp hother
  exact (hdecoded part' hpart').2 hmem

theorem normalizeRepoPath_decodePath_iff (path : TreePath) :
    normalizeRepoPath (decodePath path.text) = .ok path.text ↔
      (∀ part ∈ path.parts, Undecoded part) ∧ Trimmed path.text.toList := by
  constructor
  · intro h
    have hundecoded := undecoded_of_normalizeRepoPath path h
    refine ⟨hundecoded, trim_eq_self_iff.mp ?_⟩
    have hsublist := sublist_of_normalizeRepoPath h
    rw [decodePath_text path hundecoded] at hsublist
    exact (trim_sublist _).eq_of_length_le hsublist.length_le
  · rintro ⟨hundecoded, htrimmed⟩
    rw [decodePath_text path hundecoded, normalizeRepoPath_text path htrimmed]

/-- The links of a ref and a path lead to them exactly if decoding them once more changes nothing
and the path has no white space at its ends. -/
theorem linksResolve_iff (axum : AxumPath) (rev : RefName) (path : TreePath) :
    LinksResolve axum rev path ↔ StaysSame rev path := by
  constructor
  · intro h
    have href := h.ref .localView .tree
    have hpath := h.path .localView .tree
    rw [refOf_refLink, Option.some.injEq] at href
    rw [pageOf_pathLink, Option.some.injEq, Prod.mk.injEq] at hpath
    have hparts := (normalizeRepoPath_decodePath_iff path).mp hpath.2
    exact ⟨percentDecode_eq_self_iff.mp href, hparts.1, hparts.2⟩
  · intro h
    have href : decodeRef rev.text = rev.text := percentDecode_eq_self h.rev
    constructor
    · intro mode page
      rw [refOf_refLink, href]
    · intro mode page
      rw [pageOf_pathLink, href, (normalizeRepoPath_decodePath_iff path).mpr ⟨h.part, h.trimmed⟩]

end Links

/-! ### A branch whose links lead elsewhere -/

def requestPath (uri : String) : List Char := uri.toList.takeWhile fun c => c ≠ '?' ∧ c ≠ '#'

theorem requestPath_eq {uri : String} (h : InPath uri) : requestPath uri = uri.toList := by
  rw [requestPath, List.takeWhile_eq_self_iff]
  intro c hc
  refine decide_eq_true ⟨?_, ?_⟩
  · rintro rfl
    exact h.1 hc
  · rintro rfl
    exact h.2 hc

/-- The rest of a request after the front of a route. -/
def afterFront (front uri : String) : Option (List Char) :=
  if front.toList.isPrefixOf (requestPath uri) then
    some ((requestPath uri).drop front.toList.length)
  else none

theorem afterFront_append {front s : String} (h : InPath (front ++ s)) :
    afterFront front (front ++ s) = some s.toList := by
  rw [afterFront, requestPath_eq h, String.toList_append, if_pos, List.drop_left]
  exact List.isPrefixOf_iff_prefix.mpr (List.prefix_append _ _)

/-- A framework. -/
def axumPath : AxumPath where
  captureRev front uri :=
    (afterFront front uri).bind fun rest =>
      if rest = [] ∨ '/' ∈ rest then none else some (String.ofList rest)
  captureRevPath front uri :=
    (afterFront front uri).bind fun rest =>
      let rev := rest.takeWhile (· ≠ '/')
      let path := (rest.dropWhile (· ≠ '/')).drop 1
      if rev = [] ∨ path = [] then none else some (String.ofList rev, String.ofList path)
  decode s := String.fromUTF8? ⟨(Percent.decodeWith id (strBytes s)).toArray⟩
  captureRev_append h hne hslash := by
    have hnil := mt String.toList_eq_nil_iff.mp hne
    rw [afterFront_append h, Option.bind_some, if_neg (not_or.mpr ⟨hnil, hslash⟩),
      String.ofList_toList]
  captureRevPath_append {front rev path} h hne hslash hpath := by
    have hkeep : ∀ c ∈ rev.toList, decide (c ≠ '/') = true := by
      intro c hc
      refine decide_eq_true ?_
      rintro rfl
      exact hslash hc
    have hfirst : (rev.toList ++ '/' :: path.toList).takeWhile (· ≠ '/') = rev.toList := by
      rw [List.takeWhile_append_of_pos hkeep, List.takeWhile_cons_of_neg (by decide),
        List.append_nil]
    have hrest : (rev.toList ++ '/' :: path.toList).dropWhile (· ≠ '/') = '/' :: path.toList := by
      rw [List.dropWhile_append_of_pos hkeep, List.dropWhile_cons_of_neg (by decide)]
    have htext : (rev ++ ("/" ++ path)).toList = rev.toList ++ '/' :: path.toList := by
      rw [String.toList_append, String.toList_append]
      rfl
    rw [String.append_assoc, String.append_assoc] at h ⊢
    rw [afterFront_append h, htext, Option.bind_some]
    dsimp only
    rw [hfirst, hrest, List.drop_succ_cons, List.drop_zero, if_neg, String.ofList_toList,
      String.ofList_toList]
    exact not_or.mpr ⟨mt String.toList_eq_nil_iff.mp hne, mt String.toList_eq_nil_iff.mp hpath⟩
  decode_escape {keep} h s := by
    have hbytes : strBytes (String.ofList (Percent.escape keep (strBytes s))) =
        Utf8.encode (Percent.escape keep (strBytes s)) := by
      rw [strBytes_eq_encode, String.toList_ofList]
    have hsame : ∀ x, keep x = true → x < 128 ∧ x ≠ 0x25 ∧ id x = x :=
      fun x hx => ⟨(h x hx).1, (h x hx).2, rfl⟩
    rw [hbytes, Percent.decodeWith_escape hsame, strBytes_eq, Array.toArray_toList]
    exact dif_pos s.isValidUTF8

def plusBranch : RefName := ⟨"feature+x", by decide⟩

def readmePath : TreePath where
  parts := ["README.md"]
  ne_nil := List.cons_ne_nil _ _
  plain := by decide

theorem not_linksResolve_plusBranch : ¬ LinksResolve axumPath plusBranch readmePath := by
  intro h
  have href := h.ref .localView .tree
  rw [refOf_refLink, Option.some.injEq] at href
  exact (percentDecode_eq_self_iff.mp href).1 (by decide)

end SafeHub.Browse
