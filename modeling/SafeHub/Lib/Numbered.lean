import Mathlib.Data.List.Nodup
import Mathlib.Algebra.Order.Ring.Nat
import Mathlib.Tactic.SplitIfs

/-!
# Numbered records

Records in a list are numbered by a counter. New ones are appended; of the others the first with
a property is changed in place.

## Main definitions

* `Numbers` — numbers that a counter has given out, each once
* `modifyFirst` — change the first record with a property
* `Grows` — what each record of a list has become is in another list
-/

namespace Numbered

variable {α κ : Type}

/-- Numbers that a counter has given out, each once. -/
structure Numbers (numbers : List UInt64) (next : UInt64) : Prop where
  nodup : numbers.Nodup
  lt : ∀ n ∈ numbers, n < next

/-- Change the first element with a property, and return it as it is then. -/
def modifyFirst (p : α → Bool) (f : α → α) : List α → Option (List α × α)
  | [] => none
  | a :: as => if p a then some (f a :: as, f a) else
      (modifyFirst p f as).map fun (as, b) => (a :: as, b)

/-- Every element of a list is related to one of another. -/
def Grows (R : α → α → Prop) (old new : List α) : Prop := ∀ a ∈ old, ∃ b ∈ new, R a b

variable {numbers : List UInt64} {next : UInt64} {p : α → Bool} {f : α → α} {as bs : List α}
  {a b : α} {R : α → α → Prop}

theorem Numbers.nil : Numbers [] next := ⟨List.nodup_nil, fun _ hn => absurd hn List.not_mem_nil⟩

/-- The counter gives out the next number, which is a new one, unless it overflows. -/
theorem Numbers.concat (h : Numbers numbers next) (hnext : next.toNat + 1 < 2 ^ 64) :
    Numbers (numbers ++ [next]) (next + 1) := by
  have hlt : next < next + 1 := by
    rw [UInt64.lt_iff_toNat_lt, UInt64.toNat_add, UInt64.toNat_one, Nat.mod_eq_of_lt hnext]
    exact Nat.lt_succ_self _
  constructor
  · refine List.nodup_append.mpr ⟨h.nodup, List.nodup_singleton _, fun n hn m hm => ?_⟩
    rw [List.mem_singleton.mp hm]
    exact UInt64.ne_of_lt (h.lt n hn)
  · intro n hn
    rcases List.mem_append.mp hn with hold | hnew
    · exact UInt64.lt_trans (h.lt n hold) hlt
    · rwa [List.mem_singleton.mp hnew]

theorem Numbers.next_not_mem (h : Numbers numbers next) : next ∉ numbers :=
  fun hmem => UInt64.ne_of_lt (h.lt next hmem) rfl

/-- One element with the property is changed; it is where it was. -/
theorem modifyFirst_eq_some (h : modifyFirst p f as = some (bs, b)) :
    ∃ front a back, as = front ++ a :: back ∧ p a = true ∧ b = f a ∧ bs = front ++ b :: back := by
  induction as generalizing bs with
  | nil => cases h
  | cons a as ih =>
    rw [modifyFirst] at h
    split_ifs at h with hp
    · obtain ⟨rfl, rfl⟩ := Prod.mk.inj (Option.some.inj h)
      exact ⟨[], a, as, rfl, hp, rfl, rfl⟩
    · obtain ⟨⟨bs', b'⟩, hrest, heq⟩ := Option.map_eq_some_iff.mp h
      obtain ⟨rfl, rfl⟩ := Prod.mk.inj heq
      obtain ⟨front, c, back, rfl, hc, hb, rfl⟩ := ih hrest
      exact ⟨a :: front, c, back, rfl, hc, hb, rfl⟩

/-- The changed element is in the list. -/
theorem mem_modifyFirst (h : modifyFirst p f as = some (bs, b)) :
    b ∈ bs ∧ ∃ a, p a = true ∧ b = f a := by
  obtain ⟨front, a, back, -, hp, hb, rfl⟩ := modifyFirst_eq_some h
  exact ⟨List.mem_append_right _ List.mem_cons_self, a, hp, hb⟩

theorem map_modifyFirst {key : α → κ} (h : modifyFirst p f as = some (bs, b))
    (hkey : ∀ a, key (f a) = key a) : bs.map key = as.map key := by
  obtain ⟨front, a, back, rfl, -, rfl, rfl⟩ := modifyFirst_eq_some h
  rw [List.map_append, List.map_append, List.map_cons, List.map_cons, hkey]

theorem Grows.refl (hR : ∀ a, R a a) (as : List α) : Grows R as as := fun a ha => ⟨a, ha, hR a⟩

theorem Grows.concat (hR : ∀ a, R a a) (as : List α) (a : α) : Grows R as (as ++ [a]) :=
  fun b hb => ⟨b, List.mem_append_left _ hb, hR b⟩

theorem Grows.of_modifyFirst (h : modifyFirst p f as = some (bs, b)) (hR : ∀ a, R a a)
    (hf : ∀ a, R a (f a)) : Grows R as bs := by
  obtain ⟨front, a, back, rfl, -, rfl, rfl⟩ := modifyFirst_eq_some h
  intro c hc
  rcases List.mem_append.mp hc with hfront | hback
  · exact ⟨c, List.mem_append_left _ hfront, hR c⟩
  · rcases List.mem_cons.mp hback with rfl | hback
    · exact ⟨f c, List.mem_append_right _ List.mem_cons_self, hf c⟩
    · exact ⟨c, List.mem_append_right _ (List.mem_cons_of_mem _ hback), hR c⟩

end Numbered
