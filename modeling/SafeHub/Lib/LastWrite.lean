import Mathlib.Data.List.Induction
import SafeHub.Lib.TreeMaps

/-!
# Logs of writes to keys

A log of writes, each of which sets a key or removes it, stands for the map in which every key has
what the last write to it says. The map can be built by a pass over the log, and one key can be
looked up by a pass that keeps only its own value.

## Main definitions

* `replay` — the map of a log
* `lastWrite` — what the last write to a key says
* `register` — one key, by a pass of its own

## Main results

* `getElem?_replay`, `register_eq_lastWrite` — both are the last write
-/

namespace LastWrite

open Std (ExtTreeMap TransCmp LawfulEqCmp)

variable {κ β : Type} {cmp : κ → κ → Ordering} [TransCmp cmp] [LawfulEqCmp cmp]
  {key : κ} {writes more : List (κ × Option β)}

/-- A write sets a key or removes it. -/
def write (map : ExtTreeMap κ β cmp) (entry : κ × Option β) : ExtTreeMap κ β cmp :=
  match entry.2 with
  | some value => map.insert entry.1 value
  | none => map.erase entry.1

/-- The map of a log. -/
def replay (writes : List (κ × Option β)) : ExtTreeMap κ β cmp := writes.foldl write ∅

omit [LawfulEqCmp cmp] in
theorem getElem?_write_self (map : ExtTreeMap κ β cmp) (entry : κ × Option β) :
    (write map entry)[entry.1]? = entry.2 := by
  rw [write]
  split
  · next value h => rw [ExtTreeMap.getElem?_insert_self, h]
  · next h => rw [ExtTreeMap.getElem?_erase_self, h]

theorem getElem?_write_of_ne (map : ExtTreeMap κ β cmp) {entry : κ × Option β}
    (h : key ≠ entry.1) : (write map entry)[key]? = map[key]? := by
  rw [write]
  split
  · exact TreeMaps.getElem?_insert_of_ne h
  · exact TreeMaps.getElem?_erase_of_ne h

section Registers

variable [DecidableEq κ]

/-- What the last write to a key says. -/
def lastWrite (key : κ) (writes : List (κ × Option β)) : Option β :=
  ((writes.filter fun entry => entry.1 = key).getLast?).bind Prod.snd

/-- One key, by a pass that looks at no other. -/
def register (key : κ) (writes : List (κ × Option β)) : Option β :=
  writes.foldl (fun value entry => if entry.1 = key then entry.2 else value) none

theorem lastWrite_concat (entry : κ × Option β) : lastWrite key (writes ++ [entry]) =
    if entry.1 = key then entry.2 else lastWrite key writes := by
  rw [lastWrite, List.filter_append]
  split
  · next h => simp [h]
  · next h => simp [h, lastWrite]

/-- Later writes to other keys make no difference. -/
theorem lastWrite_append_of_forall_ne (h : ∀ entry ∈ more, entry.1 ≠ key) :
    lastWrite key (writes ++ more) = lastWrite key writes := by
  have hnone : more.filter (fun entry => entry.1 = key) = [] :=
    List.filter_eq_nil_iff.mpr fun entry hmem => by simpa using h entry hmem
  rw [lastWrite, List.filter_append, hnone, List.append_nil, lastWrite]

/-- A map of a log has the last writes. -/
theorem getElem?_replay : (replay writes : ExtTreeMap κ β cmp)[key]? = lastWrite key writes := by
  induction writes using List.reverseRecOn with
  | nil => simp [replay, lastWrite]
  | append_singleton writes entry ih =>
    rw [lastWrite_concat, replay, List.foldl_append, List.foldl_cons, List.foldl_nil]
    split
    · next h => rw [← h, getElem?_write_self]
    · next h => rw [getElem?_write_of_ne _ (Ne.symm h), ← ih, replay]

omit [TransCmp cmp] [LawfulEqCmp cmp] in
/-- A pass for one key finds its last write. -/
theorem register_eq_lastWrite : register key writes = lastWrite key writes := by
  induction writes using List.reverseRecOn with
  | nil => rfl
  | append_singleton writes entry ih =>
    rw [lastWrite_concat, register, List.foldl_append, List.foldl_cons, List.foldl_nil]
    split
    · rfl
    · exact ih

end Registers

/-- The keys that are set. -/
theorem mem_keys_replay [DecidableEq κ] :
    key ∈ (replay writes : ExtTreeMap κ β cmp).keys ↔ (lastWrite key writes).isSome := by
  rw [ExtTreeMap.mem_keys, ← ExtTreeMap.isSome_getElem?_iff_mem, getElem?_replay]

end LastWrite
