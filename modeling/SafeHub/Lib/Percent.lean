import SafeHub.Lib.Utf8Lossy
import Mathlib.Tactic.SplitIfs

/-!
# Percent coding

Bytes are written as text, some as they are and the others as a percent sign and two hexadecimal
digits. They are read back by replacing such triples, where the other bytes stay or are changed by
the reader. Reading either finds no triple and changes bytes in place, or leaves fewer ASCII bytes
than it found.

## Main definitions

* `escape`, `decodeWith` — writing and reading
* `NoEscape` — bytes without a triple

## Main results

* `decodeWith_escape` — reading gives the bytes that were written
* `NoEscape.decodeWith`, `decodeWith_cases` — what reading changes
-/

namespace Percent

def hexDigit (n : ℕ) : Char := "0123456789ABCDEF".toList.getD n '0'

/-- Bytes as text, where those that are not kept are escaped. -/
def escape (keep : UInt8 → Bool) (b : List UInt8) : List Char :=
  b.flatMap fun x =>
    if keep x then [Char.ofUInt8 x] else ['%', hexDigit (x.toNat / 16), hexDigit (x.toNat % 16)]

def fromHex (b : UInt8) : Option UInt8 :=
  if 0x30 ≤ b ∧ b ≤ 0x39 then some (b - 0x30)
  else if 0x61 ≤ b ∧ b ≤ 0x66 then some (b - 0x61 + 10)
  else if 0x41 ≤ b ∧ b ≤ 0x46 then some (b - 0x41 + 10)
  else none

/-- Replace escapes, and change the other bytes. -/
def decodeWith (other : UInt8 → UInt8) : List UInt8 → List UInt8
  | [] => []
  | [x] => [other x]
  | [x, y] => [other x, other y]
  | x :: y :: z :: rest =>
    if x = 0x25 then
      match fromHex y, fromHex z with
      | some high, some low => (high <<< 4 ||| low) :: decodeWith other rest
      | _, _ => other x :: decodeWith other (y :: z :: rest)
    else other x :: decodeWith other (y :: z :: rest)

/-- Nothing that would be replaced. -/
def NoEscape (b : List UInt8) : Prop :=
  ∀ y z, [0x25, y, z] <:+: b → fromHex y = none ∨ fromHex z = none

variable {other : UInt8 → UInt8} {keep : UInt8 → Bool} {b rest : List UInt8} {x y z : UInt8}

/-! ### Writing and reading -/

theorem escape_append {b' : List UInt8} :
    escape keep (b ++ b') = escape keep b ++ escape keep b' :=
  List.flatMap_append

theorem escape_congr {keep' : UInt8 → Bool} (h : ∀ x ∈ b, keep x = keep' x) :
    escape keep b = escape keep' b := by
  apply List.flatMap_congr
  intro x hx
  rw [h x hx]

theorem escape_ne_nil (h : b ≠ []) : escape keep b ≠ [] := by
  cases b with
  | nil => exact absurd rfl h
  | cons x b =>
    rw [escape, List.flatMap_cons]
    split_ifs
    · exact List.cons_ne_nil _ _
    · exact List.cons_ne_nil _ _

/-- A character that is not kept and not part of an escape does not occur. -/
theorem ofUInt8_not_mem_escape (hkeep : keep x = false)
    (hdigit : Char.ofUInt8 x ∉ "%0123456789ABCDEF".toList) :
    Char.ofUInt8 x ∉ escape keep b := by
  have hdigits : ∀ n < 16, hexDigit n ∈ "%0123456789ABCDEF".toList := by decide
  intro hmem
  obtain ⟨y, -, hy⟩ := List.mem_flatMap.mp hmem
  split_ifs at hy with hkept
  · rw [List.mem_singleton] at hy
    rw [Utf8.ofUInt8_injective hy, hkept] at hkeep
    cases hkeep
  · simp only [List.mem_cons, List.not_mem_nil, or_false] at hy
    rcases hy with hpercent | hhigh | hlow
    · exact hdigit (hpercent ▸ by decide)
    · exact hdigit (hhigh ▸ hdigits _ (by have := y.toNat_lt; omega))
    · exact hdigit (hlow ▸ hdigits _ (Nat.mod_lt _ (by decide)))

/-- The digits of a byte are read back. -/
theorem decodeWith_digits (x : UInt8) :
    decodeWith other (0x25 :: (hexDigit (x.toNat / 16)).val.toUInt8 ::
      (hexDigit (x.toNat % 16)).val.toUInt8 :: rest) = x :: decodeWith other rest := by
  have hdigits : ∀ n : Fin 256,
      fromHex (hexDigit (n / 16)).val.toUInt8 = some (UInt8.ofNat (n / 16)) ∧
      fromHex (hexDigit (n % 16)).val.toUInt8 = some (UInt8.ofNat (n % 16)) ∧
      UInt8.ofNat (n / 16) <<< 4 ||| UInt8.ofNat (n % 16) = UInt8.ofNat n := by
    decide +kernel
  obtain ⟨hhigh, hlow, hbyte⟩ := hdigits ⟨x.toNat, x.toNat_lt⟩
  rw [decodeWith, if_pos rfl]
  dsimp only at hhigh hlow hbyte
  rw [hhigh, hlow]
  dsimp only
  rw [hbyte, UInt8.ofNat_toNat]

/-- A byte that cannot begin an escape is changed in place. -/
theorem decodeWith_cons (h : x ≠ 0x25) :
    decodeWith other (x :: b) = other x :: decodeWith other b := by
  rcases b with _ | ⟨y, _ | ⟨z, rest⟩⟩
  · rfl
  · rfl
  · rw [decodeWith, if_neg h]

/-- Reading gives the bytes that were written, if what is kept is ASCII, no percent sign, and not
changed by the reader. -/
theorem decodeWith_escape
    (h : ∀ x, keep x = true → x < 128 ∧ x ≠ 0x25 ∧ other x = x) (b : List UInt8) :
    decodeWith other (Utf8.encode (escape keep b)) = b := by
  have hascii : ∀ n < 16, (hexDigit n).val < 128 := by decide
  induction b with
  | nil => rfl
  | cons x b ih =>
    rw [escape, List.flatMap_cons, Utf8.encode, List.flatMap_append, ← Utf8.encode, ← Utf8.encode,
      ← escape]
    split_ifs with hkeep
    · obtain ⟨hx, hpercent, hother⟩ := h x hkeep
      rw [Utf8.encode, List.flatMap_cons, List.flatMap_nil, List.append_nil,
        Utf8.utf8EncodeChar_ofUInt8 hx, List.singleton_append, decodeWith_cons hpercent, hother, ih]
    · have hhigh := hascii (x.toNat / 16) (by have := x.toNat_lt; omega)
      have hlow := hascii (x.toNat % 16) (Nat.mod_lt _ (by decide))
      rw [Utf8.encode, List.flatMap_cons, List.flatMap_cons, List.flatMap_cons, List.flatMap_nil,
        Utf8.utf8EncodeChar_of_lt hhigh, Utf8.utf8EncodeChar_of_lt hlow,
        Utf8.utf8EncodeChar_of_lt (by decide)]
      exact (decodeWith_digits x).trans (congrArg _ ih)

/-! ### What reading changes -/

theorem NoEscape.tail (h : NoEscape (x :: b)) : NoEscape b :=
  fun y z hinside => h y z (List.infix_cons hinside)

theorem noEscape_cons_iff : NoEscape (x :: b) ↔ NoEscape b ∧
    ∀ y z rest, x = 0x25 → b = y :: z :: rest → fromHex y = none ∨ fromHex z = none := by
  constructor
  · intro h
    refine ⟨h.tail, ?_⟩
    rintro y z rest rfl rfl
    exact h y z (List.prefix_append [0x25, y, z] rest).isInfix
  · rintro ⟨htail, hhead⟩ y z hinside
    rcases List.infix_cons_iff.mp hinside with ⟨rest, hprefix⟩ | hrest
    · obtain ⟨hx, hb⟩ := List.cons.inj hprefix
      exact hhead y z rest hx.symm hb.symm
    · exact htail y z hrest

theorem noEscape_nil : NoEscape [] := by
  intro y z h
  exact absurd (List.infix_nil.mp h) (List.cons_ne_nil _ _)

theorem lt_of_fromHex {v : UInt8} (h : fromHex x = some v) : x < 128 := by
  rw [fromHex] at h
  split_ifs at h with hdigit hlower hupper
  · exact UInt8.lt_of_le_of_lt hdigit.2 (by decide)
  · exact UInt8.lt_of_le_of_lt hlower.2 (by decide)
  · exact UInt8.lt_of_le_of_lt hupper.2 (by decide)

theorem NoEscape.decodeWith (h : NoEscape b) : decodeWith other b = b.map other := by
  fun_induction Percent.decodeWith other b with
  | case1 => rfl
  | case2 => rfl
  | case3 => rfl
  | case4 y z rest high low hlow hhigh ih =>
    rcases h y z (List.prefix_append [0x25, y, z] rest).isInfix with hnone | hnone
    · rw [hnone] at hhigh
      cases hhigh
    · rw [hnone] at hlow
      cases hlow
  | case5 y z rest hnone ih => exact congrArg _ (ih h.tail)
  | case6 x y z rest hx ih => exact congrArg _ (ih h.tail)

section Changes

variable (hother : ∀ x, other x < 128 ↔ x < 128)
include hother

theorem length_ascii_map (b : List UInt8) :
    (Utf8.ascii (b.map other)).length = (Utf8.ascii b).length := by
  induction b with
  | nil => rfl
  | cons x b ih =>
    rw [List.map_cons, Utf8.length_ascii_cons, Utf8.length_ascii_cons, ih,
      if_congr (hother x) rfl rfl]

/-- A byte that stays keeps what reading the rest changes. -/
theorem decodeWith_cases_cons {d : List UInt8}
    (hhead : ∀ y z rest, x = 0x25 → b = y :: z :: rest → fromHex y = none ∨ fromHex z = none)
    (h : NoEscape b ∧ d = b.map other ∨ (Utf8.ascii d).length < (Utf8.ascii b).length) :
    NoEscape (x :: b) ∧ other x :: d = (x :: b).map other ∨
      (Utf8.ascii (other x :: d)).length < (Utf8.ascii (x :: b)).length := by
  rcases h with ⟨hnone, hd⟩ | hlt
  · exact .inl ⟨noEscape_cons_iff.mpr ⟨hnone, hhead⟩, by rw [hd, List.map_cons]⟩
  · right
    rw [Utf8.length_ascii_cons, Utf8.length_ascii_cons, if_congr (hother x) rfl rfl]
    exact Nat.add_lt_add_right hlt _

/-- Without escapes, bytes are changed in place; each escape that is replaced leaves fewer ASCII
bytes. -/
theorem decodeWith_cases (b : List UInt8) :
    NoEscape b ∧ decodeWith other b = b.map other ∨
      (Utf8.ascii (decodeWith other b)).length < (Utf8.ascii b).length := by
  fun_induction decodeWith other b with
  | case1 => exact .inl ⟨noEscape_nil, rfl⟩
  | case2 x =>
    exact decodeWith_cases_cons hother (fun _ _ _ _ hb => by cases hb) (.inl ⟨noEscape_nil, rfl⟩)
  | case3 x y =>
    apply decodeWith_cases_cons hother (fun _ _ _ _ hb => by cases hb)
    exact decodeWith_cases_cons hother (fun _ _ _ _ hb => by cases hb) (.inl ⟨noEscape_nil, rfl⟩)
  | case4 y z rest high low hlow hhigh ih =>
    -- three ASCII bytes are replaced by one byte
    right
    have hle : (Utf8.ascii (decodeWith other rest)).length ≤ (Utf8.ascii rest).length := by
      rcases ih with ⟨-, hmap⟩ | hlt
      · exact Nat.le_of_eq (hmap ▸ length_ascii_map hother rest)
      · exact Nat.le_of_lt hlt
    have hpercent : (0x25 : UInt8) < 128 := by decide
    rw [Utf8.length_ascii_cons, Utf8.length_ascii_cons, Utf8.length_ascii_cons,
      Utf8.length_ascii_cons, if_pos hpercent, if_pos (lt_of_fromHex hhigh),
      if_pos (lt_of_fromHex hlow)]
    split_ifs <;> omega
  | case5 y z rest hnone ih =>
    refine decodeWith_cases_cons hother ?_ ih
    intro y' z' rest' _ hb
    cases hb
    cases hhigh : fromHex y with
    | none => exact .inl rfl
    | some high =>
      cases hlow : fromHex z with
      | none => exact .inr rfl
      | some low => exact (hnone high low hhigh hlow).elim
  | case6 x y z rest hx ih => exact decodeWith_cases_cons hother (fun _ _ _ h => absurd h hx) ih

end Changes

end Percent
