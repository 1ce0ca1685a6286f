import Mathlib.Data.List.DropRight
import Mathlib.Data.List.TakeWhile

/-!
# Trimming texts

White space at the ends of a text is dropped, or a character at its ends, or a prefix as often as
the text begins with it. What white space does not separate are the words of a text.

## Main definitions

* `isWhitespace`, `trim` — white space at the ends
* `trimMatches` — a character at the ends
* `splitWhitespace` — the words of a text
* `trimStartMatches` — a prefix, repeatedly

## Main results

* `trim_eq_self_iff` — texts without white space at their ends
* `mem_trim` — other characters stay
* `splitWhitespace_intercalate` — words come back from a text of them
* `trimStartMatches_append` — a prefix that is not repeated
-/

namespace Trim

/-- `char::is_whitespace` -/
def isWhitespace (c : Char) : Bool :=
  9 ≤ c.toNat && c.toNat ≤ 13 || 0x2000 ≤ c.toNat && c.toNat ≤ 0x200A ||
    [0x20, 0x85, 0xA0, 0x1680, 0x2028, 0x2029, 0x202F, 0x205F, 0x3000].contains c.toNat

def trim (cs : List Char) : List Char := (cs.dropWhile isWhitespace).rdropWhile isWhitespace

/-- No white space at either end. -/
def Trimmed (cs : List Char) : Prop :=
  (∀ c ∈ cs.head?, isWhitespace c = false) ∧ ∀ c ∈ cs.getLast?, isWhitespace c = false

/-- Drop a character at the ends, as often as it stands there. -/
def trimMatches (c : Char) (cs : List Char) : List Char :=
  (cs.dropWhile (· == c)).rdropWhile (· == c)

/-- `split_whitespace` -/
def splitWhitespace (cs : List Char) : List (List Char) :=
  (cs.splitOnP isWhitespace).filter fun word => !word.isEmpty

/-- Drop some characters, and then a prefix as often as the rest begins with it. -/
def trimStartAfter (front : List Char) : ℕ → List Char → List Char
  | _, [] => []
  | n + 1, _ :: rest => trimStartAfter front n rest
  | 0, c :: rest =>
    if front.isPrefixOf (c :: rest) then trimStartAfter front (front.length - 1) rest
    else c :: rest

/-- Drop a prefix that is not empty as often as a text begins with it. -/
def trimStartMatches (front cs : List Char) : List Char := trimStartAfter front 0 cs

variable {front cs rest : List Char} {c d : Char} {n : ℕ} {p : Char → Bool}

/-! ### White space -/

theorem trim_sublist (cs : List Char) : (trim cs).Sublist cs :=
  (List.rdropWhile_prefix _ _).sublist.trans (List.dropWhile_sublist _)

theorem dropWhile_eq_self_iff {p : Char → Bool} :
    cs.dropWhile p = cs ↔ ∀ c ∈ cs.head?, p c = false := by
  rw [List.dropWhile_eq_self_iff]
  cases cs <;> simp

theorem rdropWhile_eq_self_iff {p : Char → Bool} :
    cs.rdropWhile p = cs ↔ ∀ c ∈ cs.getLast?, p c = false := by
  rw [List.rdropWhile_eq_self_iff]
  constructor
  · intro h c hc
    obtain ⟨hne, rfl⟩ := List.mem_getLast?_eq_getLast hc
    exact Bool.eq_false_iff.mpr (h hne)
  · intro h hne
    exact Bool.eq_false_iff.mp (h _ (List.getLast_mem_getLast? hne))

theorem trim_eq_self_iff : trim cs = cs ↔ Trimmed cs := by
  rw [Trimmed, ← dropWhile_eq_self_iff, ← rdropWhile_eq_self_iff, trim]
  constructor
  · intro h
    have hlength := (List.rdropWhile_prefix isWhitespace
      (cs.dropWhile isWhitespace)).sublist.length_le
    rw [h] at hlength
    have hfirst := (List.dropWhile_sublist isWhitespace).eq_of_length_le hlength
    rw [hfirst] at h
    exact ⟨hfirst, h⟩
  · rintro ⟨hfirst, hlast⟩
    rw [hfirst, hlast]

theorem trimmed_of_forall (h : ∀ c ∈ cs, isWhitespace c = false) : Trimmed cs :=
  ⟨fun c hc => h c (List.mem_of_head? hc), fun c hc => h c (List.mem_of_getLast? hc)⟩

/-- Characters that are not dropped at the ends stay. -/
theorem mem_dropWhile (h : c ∈ cs) (hc : p c = false) : c ∈ cs.dropWhile p := by
  rw [← List.takeWhile_append_dropWhile (p := p) (l := cs)] at h
  refine (List.mem_append.mp h).resolve_left fun hfront => ?_
  rw [List.mem_takeWhile_imp hfront] at hc
  cases hc

theorem mem_rdropWhile (h : c ∈ cs) (hc : p c = false) : c ∈ cs.rdropWhile p := by
  rw [List.rdropWhile, List.mem_reverse]
  exact mem_dropWhile (List.mem_reverse.mpr h) hc

theorem mem_trim (h : c ∈ cs) (hc : isWhitespace c = false) : c ∈ trim cs :=
  mem_rdropWhile (mem_dropWhile h hc) hc

theorem rdropWhile_append_cons (hc : p c = false) (front cs : List Char) :
    (front ++ c :: cs).rdropWhile p = front ++ c :: cs.rdropWhile p := by
  induction cs using List.reverseRecOn with
  | nil => rw [List.rdropWhile_concat_neg _ _ _ (Bool.eq_false_iff.mp hc), List.rdropWhile_nil]
  | append_singleton cs d ih =>
    have hlast : front ++ c :: (cs ++ [d]) = front ++ c :: cs ++ [d] := by
      rw [List.append_assoc, List.cons_append]
    rw [hlast, List.rdropWhile_concat, List.rdropWhile_concat]
    split_ifs
    · exact ih
    · exact hlast.symm

theorem trim_concat (hc : isWhitespace c = true) : trim (cs ++ [c]) = trim cs := by
  rw [trim, List.dropWhile_append]
  split_ifs with hempty
  · rw [List.dropWhile_cons_of_pos hc, trim, List.isEmpty_iff.mp hempty, List.dropWhile_nil]
  · rw [List.rdropWhile_concat_pos _ _ _ hc, trim]

/-- White space that was dropped at the end before makes no difference. -/
theorem trim_rdropWhile (hp : ∀ c, p c = true → isWhitespace c = true) (cs : List Char) :
    trim (cs.rdropWhile p) = trim cs := by
  induction cs using List.reverseRecOn with
  | nil => rfl
  | append_singleton cs c ih =>
    rw [List.rdropWhile_concat]
    split_ifs with hc
    · rw [ih, trim_concat (hp c hc)]
    · rfl

/-! ### Characters at the ends -/

theorem trimMatches_cons_self : trimMatches c (c :: cs) = trimMatches c cs := by
  have hdrop : (c :: cs).dropWhile (· == c) = cs.dropWhile (· == c) :=
    List.dropWhile_cons_of_pos (beq_self_eq_true c)
  rw [trimMatches, hdrop, trimMatches]

theorem trimMatches_sublist (c : Char) (cs : List Char) : (trimMatches c cs).Sublist cs :=
  (List.rdropWhile_prefix _ _).sublist.trans (List.dropWhile_sublist _)

/-- A text that begins with another character, up to the last of some character that stays. -/
theorem trimMatches_append_cons (hd : d ≠ c) (hfront : front.head? ≠ some c) (hne : front ≠ []) :
    trimMatches c (front ++ d :: rest) = front ++ d :: rest.rdropWhile (· == c) := by
  have hstart : (front ++ d :: rest).dropWhile (· == c) = front ++ d :: rest := by
    rw [dropWhile_eq_self_iff]
    intro x hx
    rw [List.head?_append_of_ne_nil _ hne] at hx
    rw [beq_eq_false_iff_ne]
    rintro rfl
    exact hfront hx
  rw [trimMatches, hstart]
  exact rdropWhile_append_cons (p := fun x => x == c) (beq_eq_false_iff_ne.mpr hd) front rest

/-- What is put at the end is taken off. -/
theorem trimMatches_append_replicate (hne : cs ≠ []) (hhead : cs.head? ≠ some c)
    (hlast : cs.getLast? ≠ some c) (n : ℕ) : trimMatches c (cs ++ List.replicate n c) = cs := by
  have hstart : (cs ++ List.replicate n c).dropWhile (· == c) = cs ++ List.replicate n c := by
    rw [dropWhile_eq_self_iff]
    intro x hx
    rw [List.head?_append_of_ne_nil _ hne] at hx
    rw [beq_eq_false_iff_ne]
    rintro rfl
    exact hhead hx
  have hback : cs.reverse.dropWhile (· == c) = cs.reverse := by
    rw [dropWhile_eq_self_iff]
    intro x hx
    rw [List.head?_reverse] at hx
    rw [beq_eq_false_iff_ne]
    rintro rfl
    exact hlast hx
  have hfill : ∀ x ∈ List.replicate n c, (x == c) = true := fun x hx =>
    beq_iff_eq.mpr (List.eq_of_mem_replicate hx)
  rw [trimMatches, hstart, List.rdropWhile, List.reverse_append, List.reverse_replicate,
    List.dropWhile_append_of_pos hfill, hback, List.reverse_reverse]

/-! ### Words -/

theorem splitWhitespace_word (hne : cs ≠ []) (h : ∀ c ∈ cs, isWhitespace c = false) :
    splitWhitespace cs = [cs] := by
  rw [splitWhitespace, List.splitOnP_eq_singleton h, List.filter_cons_of_pos, List.filter_nil]
  rw [Bool.not_eq_true', List.isEmpty_eq_false_iff]
  exact hne

theorem splitWhitespace_append_cons (hc : isWhitespace c = true) (cs rest : List Char) :
    splitWhitespace (cs ++ c :: rest) = splitWhitespace cs ++ splitWhitespace rest := by
  rw [splitWhitespace, List.splitOnP_append_cons _ _ hc, List.filter_append]
  rfl

/-- Words come back from the text that they make with white space between them. -/
theorem splitWhitespace_intercalate {words : List (List Char)} (hc : isWhitespace c = true)
    (h : ∀ word ∈ words, word ≠ [] ∧ ∀ d ∈ word, isWhitespace d = false) :
    splitWhitespace ([c].intercalate words) = words := by
  induction words with
  | nil => rfl
  | cons word words ih =>
    obtain ⟨hne, hword⟩ := h word List.mem_cons_self
    have hrest := ih fun other hother => h other (List.mem_cons_of_mem _ hother)
    cases words with
    | nil => rw [List.intercalate_singleton, splitWhitespace_word hne hword]
    | cons next words =>
      rw [List.intercalate_cons_cons, List.append_assoc, List.singleton_append,
        splitWhitespace_append_cons hc, splitWhitespace_word hne hword, hrest,
        List.singleton_append]

/-! ### Prefixes -/

theorem trimStartAfter_eq (n : ℕ) (cs : List Char) :
    trimStartAfter front n cs = trimStartMatches front (cs.drop n) := by
  induction n generalizing cs with
  | zero => rfl
  | succ n ih =>
    cases cs with
    | nil => rfl
    | cons c rest => exact ih rest

/-- A text after a prefix stays, if it does not begin with the prefix again. -/
theorem trimStartMatches_append (hne : front ≠ []) (h : ¬ front <+: cs) :
    trimStartMatches front (front ++ cs) = cs := by
  cases front with
  | nil => exact absurd rfl hne
  | cons c front =>
    rw [trimStartMatches, List.cons_append, trimStartAfter, if_pos, List.length_cons,
      Nat.add_sub_cancel, trimStartAfter_eq, List.drop_left]
    · cases cs with
      | nil => rfl
      | cons d cs =>
        rw [trimStartMatches, trimStartAfter, if_neg]
        rwa [List.isPrefixOf_iff_prefix]
    · rw [List.isPrefixOf_iff_prefix]
      exact List.prefix_append (c :: front) cs

end Trim
