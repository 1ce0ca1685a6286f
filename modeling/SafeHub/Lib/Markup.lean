import Mathlib.Data.List.Basic
import Mathlib.Data.Set.Basic
import Mathlib.Order.Basic

/-!
# Texts put together from units

A text with markup is put together from units: characters that stand for themselves, references to
the others, and tags. A character that is a unit of its own and part of no other separates such
texts, so that the pieces of a text cut at it are put together from units as well.

## Main definitions

* `Built` — texts put together from units
* `splitText` — a text cut at a separator
* `escape` — characters replaced by references
* `markup` — the units of a text with some tags
* `stripTags`, `unescape` — what a reader of a marked up text sees

## Main results

* `Built.of_splitText` — the pieces of a text that is cut at a separator
* `Built.exists_unit` — every character stands in a unit
* `built_escape` — an escaped text has no markup
* `unescape_escape` — an escaped text is read as it was
-/

namespace Markup

variable {α : Type*} {units more : Set (List α)} {xs ys front back : List α} {c : α}

/-- A text put together from units. -/
inductive Built (units : Set (List α)) : List α → Prop
  | nil : Built units []
  | append {unit rest : List α} (hunit : unit ∈ units) (hrest : Built units rest) :
    Built units (unit ++ rest)

theorem Built.of_mem (h : xs ∈ units) : Built units xs := by
  have hunit := Built.append h .nil
  rwa [List.append_nil] at hunit

theorem Built.mono (h : Built units xs) (hsub : units ⊆ more) : Built more xs := by
  induction h with
  | nil => exact .nil
  | append hunit _ ih => exact .append (hsub hunit) ih

theorem Built.concat (hxs : Built units xs) (hys : Built units ys) : Built units (xs ++ ys) := by
  induction hxs with
  | nil => exact hys
  | append hunit _ ih =>
    rw [List.append_assoc]
    exact .append hunit ih

theorem Built.flatten {texts : List (List α)} (h : ∀ text ∈ texts, Built units text) :
    Built units texts.flatten := by
  induction texts with
  | nil => exact .nil
  | cons text texts ih =>
    obtain ⟨htext, hrest⟩ := List.forall_mem_cons.mp h
    exact htext.concat (ih hrest)

theorem Built.flatMap {β : Type*} {items : List β} {text : β → List α}
    (h : ∀ item ∈ items, Built units (text item)) : Built units (items.flatMap text) := by
  rw [List.flatMap_def]
  exact .flatten (List.forall_mem_map.mpr h)

theorem Built.replicate (h : Built units xs) (n : ℕ) :
    Built units (List.replicate n xs).flatten :=
  .flatten fun _ hmem => List.eq_of_mem_replicate hmem ▸ h

theorem Built.intercalate {texts : List (List α)} (hxs : Built units xs)
    (h : ∀ text ∈ texts, Built units text) : Built units (xs.intercalate texts) := by
  induction texts with
  | nil => exact .nil
  | cons text texts ih =>
    obtain ⟨htext, hrest⟩ := List.forall_mem_cons.mp h
    cases texts with
    | nil => simpa [List.intercalate] using htext
    | cons next texts =>
      have hjoin : xs.intercalate (text :: next :: texts) =
          text ++ (xs ++ xs.intercalate (next :: texts)) := by
        simp [List.intercalate, List.intersperse]
      rw [hjoin]
      exact htext.concat (hxs.concat (ih hrest))

/-- Every character stands in a unit. -/
theorem Built.exists_unit (h : Built units (front ++ c :: back)) :
    ∃ before after rest,
      before ++ c :: after ∈ units ∧ before <:+ front ∧ back = after ++ rest := by
  generalize htext : front ++ c :: back = text at h
  induction h generalizing front with
  | nil => simp at htext
  | @append unit rest hunit _ ih =>
    rcases List.append_eq_append_iff.mp htext.symm with ⟨mid, rfl, hrest⟩ | ⟨mid, rfl, hback⟩
    · obtain ⟨before, after, tail, hmem, hbefore, hback⟩ := ih hrest.symm
      exact ⟨before, after, tail, hmem, hbefore.trans (List.suffix_append _ _), hback⟩
    · cases mid with
      | nil =>
        obtain ⟨before, after, tail, hmem, hbefore, hback⟩ := @ih [] hback
        rw [List.suffix_nil.mp hbefore] at hmem
        exact ⟨[], after, tail, hmem, List.nil_suffix, hback⟩
      | cons d mid =>
        obtain ⟨rfl, rfl⟩ := List.cons.inj hback
        exact ⟨front, mid, rest, hunit, List.suffix_refl _, rfl⟩

/-! ### Separators -/

section Separators

variable (hsep : ∀ unit ∈ units, c ∈ unit → unit = [c])
include hsep

/-- A text around a separator. -/
theorem Built.around (h : Built units (front ++ c :: back)) :
    Built units front ∧ Built units back := by
  generalize htext : front ++ c :: back = text at h
  induction h generalizing front with
  | nil => simp at htext
  | @append unit rest hunit hrest ih =>
    rcases List.append_eq_append_iff.mp htext.symm with ⟨mid, rfl, heq⟩ | ⟨mid, rfl, heq⟩
    · obtain ⟨hmid, hback⟩ := ih heq.symm
      exact ⟨.append hunit hmid, hback⟩
    · cases mid with
      | nil =>
        obtain ⟨-, hback⟩ := @ih [] heq
        rw [List.append_nil] at hunit
        exact ⟨.of_mem hunit, hback⟩
      | cons d mid =>
        obtain ⟨rfl, rfl⟩ := List.cons.inj heq
        -- the separator is the whole unit
        obtain ⟨rfl, htail⟩ := List.append_eq_singleton_iff.mp
          (hsep _ hunit (List.mem_append_right _ List.mem_cons_self)) |>.resolve_right (by simp)
        obtain ⟨-, rfl⟩ := List.cons.inj htail
        exact ⟨.nil, hrest⟩

theorem Built.drop_replicate {k : ℕ} (h : Built units (List.replicate k c ++ xs)) :
    Built units xs := by
  induction k with
  | zero => exact h
  | succ k ih =>
    have hfront : Built units ([] ++ c :: (List.replicate k c ++ xs)) := h
    exact ih (hfront.around hsep).2

end Separators

/-! ### Cutting at a separator -/

section Cutting

variable [DecidableEq α]

/-- The pieces of a text, after `skip` units that belong to a separator; `piece` is the current one
in reverse. -/
def splitFrom (separator : List α) : (skip : ℕ) → (piece : List α) → List α → List (List α)
  | _, piece, [] => [piece.reverse]
  | skip + 1, piece, _ :: xs => splitFrom separator skip piece xs
  | 0, piece, x :: xs =>
    if separator.isPrefixOf (x :: xs) then
      piece.reverse :: splitFrom separator (separator.length - 1) [] xs
    else splitFrom separator 0 (x :: piece) xs

/-- The pieces between the separators, from left to right. -/
def splitText (separator xs : List α) : List (List α) := splitFrom separator 0 [] xs

variable {piece : List α} {skip k : ℕ} (hsep : ∀ unit ∈ units, c ∈ unit → unit = [c])
include hsep

theorem Built.of_splitFrom (h : Built units (piece.reverse ++ xs.drop skip)) :
    ∀ part ∈ splitFrom (List.replicate (k + 1) c) skip piece xs, Built units part := by
  fun_induction splitFrom (List.replicate (k + 1) c) skip piece xs with
  | case1 skip piece =>
    rw [List.drop_nil, List.append_nil] at h
    exact List.forall_mem_singleton.mpr h
  | case2 piece x xs skip ih => exact ih h
  | case3 piece x xs hpiece ih =>
    obtain ⟨rest, hrest⟩ := List.isPrefixOf_iff_prefix.mp hpiece
    obtain ⟨rfl, hxs⟩ := List.cons.inj hrest
    rw [List.append_eq] at hxs
    rw [List.drop_zero, ← hxs] at h
    obtain ⟨hpiece, hback⟩ := h.around hsep
    refine List.forall_mem_cons.mpr ⟨hpiece, ih ?_⟩
    rw [List.reverse_nil, List.nil_append, List.length_replicate, Nat.add_sub_cancel, ← hxs,
      List.drop_left' (List.length_replicate)]
    exact hback.drop_replicate hsep
  | case4 piece x xs hpiece ih =>
    refine ih ?_
    rwa [List.reverse_cons, List.append_assoc, List.drop_zero]

/-- The pieces of a text are put together from units. -/
theorem Built.of_splitText (h : Built units xs) :
    ∀ part ∈ splitText (List.replicate (k + 1) c) xs, Built units part :=
  Built.of_splitFrom hsep (by rwa [List.reverse_nil, List.nil_append, List.drop_zero])

end Cutting

/-! ### Escaping -/

/-- Some characters replaced by references. -/
def escape (references : List (Char × List Char)) (cs : List Char) : List Char :=
  cs.flatMap fun c => (references.lookup c).getD [c]

/-- One character replaced. -/
def replace (c : Char) (reference cs : List Char) : List Char :=
  cs.flatMap fun d => if d = c then reference else [d]

/-- The units of a text with markup: characters that need no reference, references and tags. -/
def markup (references : List (Char × List Char)) (tags : List (List Char)) : Set (List Char) :=
  {unit | (∃ c, c ∉ references.map Prod.fst ∧ unit = [c]) ∨
    unit ∈ references.map Prod.snd ∨ unit ∈ tags}

variable {references : List (Char × List Char)} {tags tags' : List (List Char)} {cs : List Char}

theorem markup_mono (h : tags ⊆ tags') : markup references tags ⊆ markup references tags' :=
  fun _ hunit => hunit.imp_right fun hunit => hunit.imp_right fun hmem => h hmem

theorem escape_nil (cs : List Char) : escape [] cs = cs := by
  rw [escape]
  exact List.flatMap_singleton' cs

theorem escape_append (cs ds : List Char) :
    escape references (cs ++ ds) = escape references cs ++ escape references ds :=
  List.flatMap_append

theorem escape_flatMap {β : Type*} (items : List β) (text : β → List Char) :
    escape references (items.flatMap text) =
      items.flatMap fun item => escape references (text item) :=
  List.flatMap_assoc

theorem escape_of_notMem (h : ∀ c ∈ cs, c ∉ references.map Prod.fst) :
    escape references cs = cs := by
  rw [escape]
  refine (List.flatMap_congr fun c hc => ?_).trans (List.flatMap_singleton' cs)
  have hnone : references.lookup c = none := by
    refine List.lookup_eq_none_iff.mpr fun entry hentry => ?_
    rw [bne_iff_ne]
    rintro rfl
    exact h _ hc (List.mem_map_of_mem hentry)
  rw [hnone, Option.getD_none]

/-- A character that is escaped, and in no reference, is gone. -/
theorem notMem_escape {c : Char} (hkey : c ∈ references.map Prod.fst)
    (hreferences : ∀ reference ∈ references.map Prod.snd, c ∉ reference) (cs : List Char) :
    c ∉ escape references cs := by
  intro hc
  obtain ⟨d, -, hmem⟩ := List.mem_flatMap.mp hc
  cases hlookup : references.lookup d with
  | none =>
    rw [hlookup, Option.getD_none, List.mem_singleton] at hmem
    subst hmem
    obtain ⟨entry, hentry, rfl⟩ := List.mem_map.mp hkey
    exact absurd (List.lookup_eq_none_iff.mp hlookup entry hentry) (by simp)
  | some reference =>
    rw [hlookup, Option.getD_some] at hmem
    obtain ⟨l₁, l₂, heq, -⟩ := List.lookup_eq_some_iff.mp hlookup
    refine hreferences reference ?_ hmem
    rw [heq]
    simp

theorem replace_of_notMem {c : Char} {reference cs : List Char} (h : c ∉ cs) :
    replace c reference cs = cs := by
  induction cs with
  | nil => rfl
  | cons d cs ih =>
    rw [List.mem_cons, not_or] at h
    have hcons : replace c reference (d :: cs) =
        (if d = c then reference else [d]) ++ replace c reference cs := List.flatMap_cons
    rw [hcons, if_neg (Ne.symm h.1), ih h.2]
    rfl

/-- One more reference, after the others. -/
theorem replace_escape {c : Char} {reference : List Char} (hkeys : c ∉ references.map Prod.fst)
    (hreferences : ∀ earlier ∈ references.map Prod.snd, c ∉ earlier) (cs : List Char) :
    replace c reference (escape references cs) = escape (references ++ [(c, reference)]) cs := by
  rw [replace, escape, List.flatMap_assoc, escape]
  refine List.flatMap_congr fun d _ => ?_
  rw [List.lookup_append]
  cases hlookup : references.lookup d with
  | none =>
    by_cases hd : d = c
    · subst hd
      simp
    · simp [List.lookup_cons, hd, beq_false_of_ne hd]
  | some earlier =>
    obtain ⟨l₁, l₂, heq, -⟩ := List.lookup_eq_some_iff.mp hlookup
    have hmem : earlier ∈ references.map Prod.snd := by
      rw [heq]
      simp
    exact replace_of_notMem (hreferences earlier hmem)

/-- An escaped text has no tags. -/
theorem built_escape (cs : List Char) : Built (markup references tags) (escape references cs) := by
  refine .flatMap fun c _ => .of_mem ?_
  cases hlookup : references.lookup c with
  | none =>
    refine .inl ⟨c, ?_, rfl⟩
    intro hmem
    obtain ⟨entry, hentry, rfl⟩ := List.mem_map.mp hmem
    have hne := List.lookup_eq_none_iff.mp hlookup entry hentry
    exact absurd hne (by simp)
  | some reference =>
    refine .inr (.inl (List.mem_map.mpr ⟨(c, reference), ?_, rfl⟩))
    obtain ⟨l₁, l₂, heq, -⟩ := List.lookup_eq_some_iff.mp hlookup
    rw [heq]
    simp

theorem built_char {c : Char} (h : c ∉ references.map Prod.fst) :
    Built (markup references tags) [c] :=
  .of_mem (.inl ⟨c, h, rfl⟩)

theorem built_tag {tag : List Char} (h : tag ∈ tags) : Built (markup references tags) tag :=
  .of_mem (.inr (.inr h))

/-! ### Reading -/

/-- What is left without tags; `inTag` within one. -/
def stripTags : (inTag : Bool) → List Char → List Char
  | _, [] => []
  | true, c :: cs => stripTags (c != '>') cs
  | false, c :: cs => if c = '<' then stripTags true cs else c :: stripTags false cs

/-- References turned back, after `skip` characters that belong to one. -/
def unescapeFrom (references : List (Char × List Char)) : (skip : ℕ) → List Char → List Char
  | _, [] => []
  | skip + 1, _ :: cs => unescapeFrom references skip cs
  | 0, c :: cs =>
    match references.find? fun entry => entry.2.isPrefixOf (c :: cs) with
    | some entry => entry.1 :: unescapeFrom references (entry.2.length - 1) cs
    | none => c :: unescapeFrom references 0 cs

def unescape (references : List (Char × List Char)) (cs : List Char) : List Char :=
  unescapeFrom references 0 cs

/-- What a browser shows. -/
def shown (references : List (Char × List Char)) (html : List Char) : List Char :=
  unescape references (stripTags false html)

section Stripping

variable {rest tag : List Char}

theorem stripTags_append_of_notMem (h : '<' ∉ cs) (rest : List Char) :
    stripTags false (cs ++ rest) = cs ++ stripTags false rest := by
  induction cs with
  | nil => rfl
  | cons c cs ih =>
    rw [List.mem_cons, not_or] at h
    rw [List.cons_append, stripTags, if_neg (Ne.symm h.1), ih h.2, List.cons_append]

theorem stripTags_inside (h : '>' ∉ cs) (rest : List Char) :
    stripTags true (cs ++ '>' :: rest) = stripTags false rest := by
  induction cs with
  | nil => rfl
  | cons c cs ih =>
    rw [List.mem_cons, not_or] at h
    have hc : (c != '>') = true := bne_iff_ne.mpr (Ne.symm h.1)
    rw [List.cons_append, stripTags, hc, ih h.2]

/-- Brackets around something without a closing one. -/
def IsTag (tag : List Char) : Prop := ∃ inner, '>' ∉ inner ∧ tag = '<' :: (inner ++ ['>'])

/-- A tag is not seen. -/
theorem IsTag.stripTags_append (h : IsTag tag) (rest : List Char) :
    stripTags false (tag ++ rest) = stripTags false rest := by
  obtain ⟨inner, hinner, rfl⟩ := h
  rw [List.cons_append, List.append_assoc, stripTags, if_pos rfl]
  exact stripTags_inside hinner rest

end Stripping

section Unescaping

variable (hfree : ∀ entry ∈ references, ∀ other ∈ references, entry.2 <+: other.2 → entry = other)
  (hkeys : ∀ entry ∈ references, ∀ c ∈ entry.2.head?, c ∈ references.map Prod.fst)
  (hne : ∀ entry ∈ references, entry.2 ≠ [])

theorem unescapeFrom_drop (skip : ℕ) (cs : List Char) :
    unescapeFrom references skip cs = unescapeFrom references 0 (cs.drop skip) := by
  induction cs generalizing skip with
  | nil => simp [unescapeFrom]
  | cons c cs ih =>
    cases skip with
    | zero => rfl
    | succ skip => rw [unescapeFrom, ih, List.drop_succ_cons]

include hfree hkeys hne in
/-- An escaped text is read as it was. -/
theorem unescape_escape (cs : List Char) : unescape references (escape references cs) = cs := by
  induction cs with
  | nil => rfl
  | cons c cs ih =>
    have hcons : escape references (c :: cs) =
        (references.lookup c).getD [c] ++ escape references cs := List.flatMap_cons
    rw [hcons]
    cases hlookup : references.lookup c with
    | none =>
      -- no reference starts with a character that needs none
      have hnone : references.find? (fun entry =>
          entry.2.isPrefixOf (c :: escape references cs)) = none := by
        refine List.find?_eq_none.mpr fun entry hentry hpre => ?_
        have hhead : c ∈ entry.2.head? := by
          cases hsnd : entry.2 with
          | nil => exact absurd hsnd (hne entry hentry)
          | cons d rest =>
            rw [hsnd, List.isPrefixOf_iff_prefix, List.cons_prefix_cons] at hpre
            rw [hpre.1]
            rfl
        obtain ⟨other, hother, heq⟩ := List.mem_map.mp (hkeys entry hentry c hhead)
        have hno := List.lookup_eq_none_iff.mp hlookup other hother
        exact absurd heq (by simpa using Ne.symm (by simpa using hno))
      rw [Option.getD_none, List.singleton_append, unescape, unescapeFrom, hnone]
      exact congrArg _ ih
    | some reference =>
      obtain ⟨l₁, l₂, heq, -⟩ := List.lookup_eq_some_iff.mp hlookup
      have hmem : (c, reference) ∈ references := by
        rw [heq]
        simp
      rw [Option.getD_some]
      cases reference with
      | nil => exact absurd rfl (hne _ hmem)
      | cons d rest =>
        -- the reference is the only one that fits
        have hfind : references.find? (fun entry =>
            entry.2.isPrefixOf (d :: (rest ++ escape references cs))) = some (c, d :: rest) := by
          have hfits : ∃ entry ∈ references,
              entry.2.isPrefixOf (d :: (rest ++ escape references cs)) = true :=
            ⟨(c, d :: rest), hmem,
              List.isPrefixOf_iff_prefix.mpr (List.prefix_append (d :: rest) _)⟩
          obtain ⟨found, hfound⟩ := Option.isSome_iff_exists.mp (List.find?_isSome.mpr hfits)
          rw [hfound]
          have hfit := List.find?_some hfound
          have hpre := List.isPrefixOf_iff_prefix.mp hfit
          have hfoundMem := List.mem_of_find?_eq_some hfound
          rcases List.prefix_or_prefix_of_prefix hpre (List.prefix_append (d :: rest) _) with
            hle | hle
          · rw [hfree found hfoundMem (c, d :: rest) hmem hle]
          · rw [hfree (c, d :: rest) hmem found hfoundMem hle]
        rw [List.cons_append, unescape, unescapeFrom, hfind]
        dsimp only
        rw [unescapeFrom_drop, List.length_cons, Nat.add_sub_cancel, List.drop_left]
        exact congrArg _ ih

end Unescaping

end Markup
