import Mathlib.Data.List.Basic
import Std.Data.ExtTreeMap

/-!
# Loops that build maps

A loop inserts what it makes of the entries of one map into another, or erases the keys of a
list. What the map holds afterwards under a key depends on whether the loop came across the key.

## Main results

* `getElem?_foldl_insert`, `getElem?_foldl_erase` — the map after a loop
* `foldlM_insert_toList_eq_ok_iff` — a loop that can fail, and does not
-/

namespace TreeMaps

open Std (ExtTreeMap)

variable {κ β γ ε : Type} {cmp : κ → κ → Ordering} [Std.TransCmp cmp] [Std.LawfulEqCmp cmp]
variable {key other : κ}

/-- An insertion leaves the other keys alone. -/
theorem getElem?_insert_of_ne {map : ExtTreeMap κ β cmp} {value : β} (h : other ≠ key) :
    (map.insert key value)[other]? = map[other]? := by
  rw [ExtTreeMap.getElem?_insert, if_neg]
  rw [Std.LawfulEqCmp.compare_eq_iff_eq]
  exact h.symm

/-- An erasure leaves the other keys alone. -/
theorem getElem?_erase_of_ne {map : ExtTreeMap κ β cmp} (h : other ≠ key) :
    (map.erase key)[other]? = map[other]? := by
  rw [ExtTreeMap.getElem?_erase, if_neg]
  rw [Std.LawfulEqCmp.compare_eq_iff_eq]
  exact h.symm

/-- An insertion of what is there. -/
theorem insert_eq_self_iff {map : ExtTreeMap κ β cmp} {value : β} :
    map.insert key value = map ↔ map[key]? = some value := by
  constructor
  · intro h
    have hself := ExtTreeMap.getElem?_insert_self (t := map) (k := key) (v := value)
    rwa [h] at hself
  · intro h
    apply ExtTreeMap.ext_getElem?
    intro other
    by_cases hother : other = key
    · rw [hother, ExtTreeMap.getElem?_insert_self, h]
    · exact getElem?_insert_of_ne hother

/-- The entries of a map make up the map. -/
theorem ofList_toList [DecidableEq κ] (map : ExtTreeMap κ β cmp) :
    ExtTreeMap.ofList map.toList cmp = map := by
  have : Std.LawfulBEqCmp cmp :=
    ⟨by intro a b; rw [Std.LawfulEqCmp.compare_eq_iff_eq, beq_iff_eq]⟩
  apply ExtTreeMap.ext_getElem?
  intro key
  cases hkey : map[key]? with
  | some value =>
    refine ExtTreeMap.getElem?_ofList_of_mem Std.ReflCmp.compare_self
      ExtTreeMap.distinct_keys_toList ?_
    exact ExtTreeMap.mem_toList_iff_getElem?_eq_some.mpr hkey
  | none =>
    apply ExtTreeMap.getElem?_ofList_of_contains_eq_false
    rw [Bool.eq_false_iff, ne_eq, List.contains_iff_mem, List.mem_map]
    intro ⟨entry, hentry, heq⟩
    have hsome : map[entry.1]? = some entry.2 :=
      ExtTreeMap.mem_toList_iff_getElem?_eq_some.mp hentry
    rw [heq, hkey] at hsome
    cases hsome

/-- The keys of a map are those of its entries. -/
theorem mem_map_fst_toList {map : ExtTreeMap κ β cmp} :
    key ∈ map.toList.map Prod.fst ↔ map[key]? ≠ none := by
  rw [ExtTreeMap.map_fst_toList_eq_keys, ExtTreeMap.mem_keys, ExtTreeMap.mem_iff_isSome_getElem?,
    Option.isSome_iff_ne_none]

/-- The keys of one map that another lacks. -/
theorem mem_removed_iff {map : ExtTreeMap κ β cmp} {later : ExtTreeMap κ γ cmp} :
    key ∈ map.keys.filter (fun key => !later.contains key) ↔
      map[key]? ≠ none ∧ later[key]? = none := by
  rw [List.mem_filter, ExtTreeMap.mem_keys, ExtTreeMap.mem_iff_isSome_getElem?,
    ExtTreeMap.contains_eq_isSome_getElem?, Option.isSome_iff_ne_none, Bool.not_eq_true',
    Option.isSome_eq_false_iff, Option.isNone_iff_eq_none]

theorem nodup_map_fst_toList {map : ExtTreeMap κ β cmp} : (map.toList.map Prod.fst).Nodup := by
  rw [List.nodup_iff_pairwise_ne, List.pairwise_map]
  exact ExtTreeMap.distinct_keys_toList.imp fun h heq =>
    h (Std.LawfulEqCmp.compare_eq_iff_eq.mpr heq)

/-- The entries of some keys, when another key is inserted. -/
theorem toList_filter_insert {map : ExtTreeMap κ β cmp} {keep : κ → Bool} (value : β)
    (h : keep key = false) :
    ((map.insert key value).toList.filter fun entry => keep entry.1) =
      map.toList.filter fun entry => keep entry.1 := by
  have hfilter (map : ExtTreeMap κ β cmp) : (map.toList.filter fun entry => keep entry.1) =
      (map.filter fun key _ => keep key).toList :=
    (@ExtTreeMap.toList_filter κ β cmp map _ fun key _ => keep key).symm
  rw [hfilter, hfilter]
  congr 1
  apply ExtTreeMap.ext_getElem?
  intro other
  rw [ExtTreeMap.getElem?_filter', ExtTreeMap.getElem?_filter']
  by_cases hother : other = key
  · rw [hother, Option.filter_eq_none_iff.mpr fun _ _ => by rw [h]; exact Bool.false_ne_true,
      Option.filter_eq_none_iff.mpr fun _ _ => by rw [h]; exact Bool.false_ne_true]
  · rw [getElem?_insert_of_ne hother]

/-- What a map holds after a loop of insertions was there before or has been inserted. -/
theorem getElem?_foldl_insert_cases {entries : List (κ × β)} {map : ExtTreeMap κ β cmp} {value : β}
    (h : (entries.foldl (fun map entry => map.insert entry.1 entry.2) map)[key]? = some value) :
    map[key]? = some value ∨ (key, value) ∈ entries := by
  induction entries generalizing map with
  | nil => exact .inl h
  | cons entry entries ih =>
    rcases ih h with hmap | hlater
    · by_cases hkey : key = entry.1
      · rw [hkey, ExtTreeMap.getElem?_insert_self] at hmap
        obtain rfl := Option.some.inj hmap
        rw [hkey]
        exact .inr List.mem_cons_self
      · rw [getElem?_insert_of_ne hkey] at hmap
        exact .inl hmap
    · exact .inr (List.mem_cons_of_mem _ hlater)

variable [DecidableEq κ]

/-- What is left after some keys were erased. -/
theorem getElem?_foldl_erase {map : ExtTreeMap κ β cmp} {keys : List κ} :
    (keys.foldl (fun map key => map.erase key) map)[key]? =
      if key ∈ keys then none else map[key]? := by
  induction keys generalizing map with
  | nil => simp
  | cons first keys ih =>
    rw [List.foldl_cons, ih]
    by_cases hfirst : key = first
    · subst hfirst
      simp
    · rw [getElem?_erase_of_ne hfirst]
      simp [hfirst]

section Insertion

variable {source : ExtTreeMap κ β cmp} {map : ExtTreeMap κ γ cmp} {entries : List (κ × β)}

theorem rel_imp {r s : β → γ → Prop} {found : Option β} {found' : Option γ}
    (h : Option.Rel r found found') (himp : ∀ b c, r b c → s b c) : Option.Rel s found found' := by
  cases h with
  | none => exact .none
  | some hr => exact .some (himp _ _ hr)

theorem exists_of_rel_some {read : β → Except ε γ} {found : Option β} {c : γ}
    (h : Option.Rel (fun b c => read b = .ok c) found (some c)) :
    ∃ b, found = some b ∧ read b = .ok c := by
  cases h with
  | some hread => exact ⟨_, rfl, hread⟩

theorem eq_none_of_rel_none {r : β → γ → Prop} {found : Option β}
    (h : Option.Rel r found (none : Option γ)) : found = none := by
  cases h
  rfl

/-- What is read of a value is determined by it. -/
theorem rel_read_unique {read : β → Except ε γ} {found : Option β} {a a' : Option γ}
    (h : Option.Rel (fun b c => read b = .ok c) found a)
    (h' : Option.Rel (fun b c => read b = .ok c) found a') : a = a' := by
  cases h with
  | none =>
    cases h'
    rfl
  | some hread =>
    cases h' with
    | some hread' => rw [Except.ok.inj (hread.symm.trans hread')]

/-- What is inserted under the keys of some entries of a map. -/
theorem getElem?_foldl_insert (f : κ → β → γ)
    (h : ∀ entry ∈ entries, source[entry.1]? = some entry.2) :
    (entries.foldl (fun map entry => map.insert entry.1 (f entry.1 entry.2)) map)[key]? =
      if key ∈ entries.map Prod.fst then source[key]?.map (f key) else map[key]? := by
  induction entries generalizing map with
  | nil => simp
  | cons entry entries ih =>
    obtain ⟨hentry, hentries⟩ := List.forall_mem_cons.mp h
    rw [List.foldl_cons, ih hentries]
    by_cases hkey : key = entry.1
    · -- a later entry of this key would insert the same value
      rw [hkey, List.map_cons, if_pos List.mem_cons_self, hentry, Option.map_some,
        ExtTreeMap.getElem?_insert_self, ite_self]
    · rw [getElem?_insert_of_ne hkey]
      simp only [List.map_cons, List.mem_cons, hkey, false_or]

/-- A map made of another, entry by entry. -/
theorem getElem?_foldl_insert_toList (f : κ → β → γ) :
    (source.toList.foldl (fun map entry => map.insert entry.1 (f entry.1 entry.2))
      (∅ : ExtTreeMap κ γ cmp))[key]? = source[key]?.map (f key) := by
  rw [getElem?_foldl_insert f fun _ hmem => ExtTreeMap.mem_toList_iff_getElem?_eq_some.mp hmem]
  split_ifs with hkey
  · rfl
  · rw [mem_map_fst_toList, not_not] at hkey
    rw [hkey, ExtTreeMap.getElem?_empty, Option.map_none]

/-- A loop over entries of which each can be read as what another map has under its key. -/
theorem exists_foldlM_insert (map : ExtTreeMap κ γ cmp) {target : ExtTreeMap κ γ cmp}
    {read : β → Except ε γ}
    (h : ∀ entry ∈ entries, ∃ value, read entry.2 = .ok value ∧ target[entry.1]? = some value) :
    ∃ out, entries.foldlM (fun map entry => do
        let value ← read entry.2
        return map.insert entry.1 value) map = .ok out ∧
      ∀ key : κ, out[key]? = if key ∈ entries.map Prod.fst then target[key]? else map[key]? := by
  induction entries generalizing map with
  | nil => exact ⟨map, rfl, fun key => by simp⟩
  | cons entry entries ih =>
    obtain ⟨⟨value, hread, htarget⟩, hentries⟩ := List.forall_mem_cons.mp h
    obtain ⟨out, hloop, hout⟩ := ih (map.insert entry.1 value) hentries
    refine ⟨out, ?_, fun key => ?_⟩
    · rw [List.foldlM_cons, hread]
      exact hloop
    · rw [hout]
      by_cases hkey : key = entry.1
      · rw [hkey, List.map_cons, if_pos List.mem_cons_self, htarget,
          ExtTreeMap.getElem?_insert_self, ite_self]
      · rw [getElem?_insert_of_ne hkey]
        simp only [List.map_cons, List.mem_cons, hkey, false_or]

omit [DecidableEq κ] in
/-- What the entries of a map are read as, when another map tells it for every key. -/
theorem exists_of_rel {target : ExtTreeMap κ γ cmp} {read : β → Except ε γ}
    (h : ∀ key : κ, Option.Rel (fun b c => read b = .ok c) source[key]? target[key]?) :
    ∀ entry ∈ source.toList, ∃ value, read entry.2 = .ok value ∧ target[entry.1]? = some value := by
  intro entry hmem
  have hrel := h entry.1
  rw [ExtTreeMap.mem_toList_iff_getElem?_eq_some.mp hmem] at hrel
  generalize htarget : target[entry.1]? = found at hrel
  cases hrel with
  | some hread => exact ⟨_, hread, rfl⟩

/-- A map of which every entry can be read is read as the map of what its entries are. -/
theorem foldlM_insert_toList {target : ExtTreeMap κ γ cmp} {read : β → Except ε γ}
    (h : ∀ key : κ, Option.Rel (fun b c => read b = .ok c) source[key]? target[key]?) :
    source.toList.foldlM (fun map entry => do
      let value ← read entry.2
      return map.insert entry.1 value) (∅ : ExtTreeMap κ γ cmp) = .ok target := by
  obtain ⟨out, hloop, hout⟩ := exists_foldlM_insert ∅ (exists_of_rel h)
  rw [hloop]
  congr 1
  apply ExtTreeMap.ext_getElem?
  intro key
  rw [hout]
  split_ifs with hkey
  · rfl
  · -- a key without an entry has none in the target either
    rw [mem_map_fst_toList, not_not] at hkey
    have hrel := h key
    rw [hkey] at hrel
    generalize target[key]? = found at hrel ⊢
    cases hrel
    exact ExtTreeMap.getElem?_empty

omit [Std.LawfulEqCmp cmp] [DecidableEq κ] in
/-- A loop over entries that did not fail read each of them. -/
theorem exists_of_foldlM_insert {out : ExtTreeMap κ γ cmp} {read : β → Except ε γ}
    (h : entries.foldlM (fun map entry => do
      let value ← read entry.2
      return map.insert entry.1 value) map = .ok out) :
    ∀ entry ∈ entries, ∃ value, read entry.2 = .ok value := by
  induction entries generalizing map with
  | nil => exact List.forall_mem_nil _
  | cons entry entries ih =>
    rw [List.foldlM_cons] at h
    cases hread : read entry.2 with
    | error e =>
      rw [hread] at h
      cases h
    | ok value =>
      rw [hread] at h
      exact List.forall_mem_cons.mpr ⟨⟨value, hread⟩, ih h⟩

omit [DecidableEq κ] in
/-- Where every entry can be read, there is a map of what the entries are read as. -/
theorem exists_rel_of_read [Inhabited γ] {read : β → Except ε γ}
    (h : ∀ entry ∈ source.toList, ∃ value, read entry.2 = .ok value) :
    ∃ target : ExtTreeMap κ γ cmp,
      ∀ key : κ, Option.Rel (fun b c => read b = .ok c) source[key]? target[key]? := by
  choose! value hvalue using h
  refine ⟨source.map fun key b => value (key, b), fun key => ?_⟩
  rw [ExtTreeMap.getElem?_map]
  cases hfound : source[key]? with
  | none => exact .none
  | some b => exact .some (hvalue _ (ExtTreeMap.mem_toList_iff_getElem?_eq_some.mpr hfound))

/-- What is read of a map, when it can be read. -/
theorem foldlM_insert_toList_eq_ok_iff [Inhabited γ] {target : ExtTreeMap κ γ cmp}
    {read : β → Except ε γ} :
    source.toList.foldlM (fun map entry => do
      let value ← read entry.2
      return map.insert entry.1 value) (∅ : ExtTreeMap κ γ cmp) = .ok target ↔
    ∀ key : κ, Option.Rel (fun b c => read b = .ok c) source[key]? target[key]? := by
  refine ⟨fun h => ?_, foldlM_insert_toList⟩
  obtain ⟨out, hout⟩ := exists_rel_of_read (exists_of_foldlM_insert h)
  rw [foldlM_insert_toList hout] at h
  exact Except.ok.inj h ▸ hout

end Insertion

end TreeMaps
