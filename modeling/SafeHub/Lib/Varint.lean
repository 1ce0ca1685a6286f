import Mathlib.Algebra.Order.Ring.Nat
import Mathlib.Tactic.Ring

/-!
# Numbers in groups of seven bits

A number is written in bytes of seven bits, the low ones first, and every byte but the last has
its top bit set. A reader of numbers of a given width gives up when a further byte would lie
beyond it.

## Main results

* `get_put` — what was written is read back, and the bytes after it are left
* `length_of_get`, `get_lt` — a reader takes at least one byte, and no more than its width
-/

namespace Varint

variable {width v shift acc : ℕ} {bytes rest : List UInt8}

/-- The bytes of a number. -/
def put (v : ℕ) : List UInt8 :=
  if v / 128 = 0 then [UInt8.ofNat (v % 128)]
  else UInt8.ofNat (v % 128 + 128) :: put (v / 128)
termination_by v

/-- Read on from given bits; bits beyond the width are lost. -/
def getFrom (width acc shift : ℕ) : List UInt8 → Option (ℕ × List UInt8)
  | [] => none
  | byte :: bytes =>
    let acc := acc ||| (byte.toNat % 128) <<< shift % 2 ^ width
    if byte.toNat / 128 = 0 then some (acc, bytes)
    else if width ≤ shift + 7 then none
    else getFrom width acc (shift + 7) bytes

/-- The number at the head of some bytes, and the bytes after it. -/
def get (width : ℕ) (bytes : List UInt8) : Option (ℕ × List UInt8) := getFrom width 0 0 bytes

/-- Seven further bits above those that were read. -/
theorem or_shiftLeft_mod {bits : ℕ} (hacc : acc < 2 ^ shift)
    (hbits : bits * 2 ^ shift < 2 ^ width) :
    acc ||| bits <<< shift % 2 ^ width = acc + bits * 2 ^ shift := by
  rw [Nat.shiftLeft_eq, Nat.mod_eq_of_lt hbits, ← Nat.shiftLeft_eq, Nat.or_comm,
    ← Nat.shiftLeft_add_eq_or_of_lt hacc, Nat.add_comm]

theorem getFrom_put (hacc : acc < 2 ^ shift) (hv : v * 2 ^ shift < 2 ^ width) :
    getFrom width acc shift (put v ++ rest) = some (acc + v * 2 ^ shift, rest) := by
  induction v using Nat.strongRecOn generalizing acc shift with
  | ind v ih =>
    rw [put]
    by_cases hlast : v / 128 = 0
    · have hsmall : v < 128 := by omega
      have hbyte : (UInt8.ofNat (v % 128)).toNat = v := by
        rw [UInt8.toNat_ofNat']
        omega
      rw [if_pos hlast, List.singleton_append, getFrom]
      simp only [hbyte]
      rw [if_pos hlast, Nat.mod_eq_of_lt hsmall, or_shiftLeft_mod hacc hv]
    · have hbyte : (UInt8.ofNat (v % 128 + 128)).toNat = v % 128 + 128 := by
        rw [UInt8.toNat_ofNat']
        omega
      have hlow : (v % 128 + 128) % 128 = v % 128 := by omega
      have hmore : ¬ (v % 128 + 128) / 128 = 0 := by omega
      have hsplit : v * 2 ^ shift = v % 128 * 2 ^ shift + v / 128 * 2 ^ (shift + 7) := by
        have hv' := Nat.mod_add_div v 128
        calc v * 2 ^ shift = (v % 128 + 128 * (v / 128)) * 2 ^ shift := by rw [hv']
          _ = v % 128 * 2 ^ shift + v / 128 * 2 ^ (shift + 7) := by ring
      have hpos : 0 < 2 ^ shift := Nat.two_pow_pos shift
      -- there is room for the next byte, as the number has bits for it
      have hroom : ¬ width ≤ shift + 7 := by
        intro hle
        have hwide : 2 ^ width ≤ 2 ^ (shift + 7) := Nat.pow_le_pow_right Nat.two_pos hle
        have hone : 2 ^ (shift + 7) ≤ v / 128 * 2 ^ (shift + 7) :=
          Nat.le_mul_of_pos_left _ (Nat.pos_of_ne_zero hlast)
        omega
      have hbits : v % 128 * 2 ^ shift < 2 ^ width := by omega
      have hacc' : acc + v % 128 * 2 ^ shift < 2 ^ (shift + 7) := by
        have hle : v % 128 * 2 ^ shift ≤ 127 * 2 ^ shift :=
          Nat.mul_le_mul_right _ (by omega)
        have hpow : 2 ^ (shift + 7) = 128 * 2 ^ shift := by ring
        omega
      rw [if_neg hlast, List.cons_append, getFrom]
      simp only [hbyte, hlow, if_neg hmore, if_neg hroom, or_shiftLeft_mod hacc hbits]
      rw [ih (v / 128) (by omega) hacc' (by omega), hsplit, Nat.add_assoc]

/-- What was written is read back. -/
theorem get_put (hv : v < 2 ^ width) : get width (put v ++ rest) = some (v, rest) := by
  rw [get, getFrom_put (Nat.two_pow_pos 0) (by rwa [pow_zero, mul_one]), pow_zero, mul_one,
    Nat.zero_add]

theorem length_of_getFrom (h : getFrom width acc shift bytes = some (v, rest)) :
    rest.length < bytes.length := by
  induction bytes generalizing acc shift with
  | nil => cases h
  | cons byte bytes ih =>
    simp only [getFrom] at h
    split_ifs at h
    · obtain ⟨-, rfl⟩ := Prod.mk.inj (Option.some.inj h)
      exact Nat.lt_succ_self _
    · exact (ih h).trans (Nat.lt_succ_self _)

/-- A reader takes at least one byte. -/
theorem length_of_get (h : get width bytes = some (v, rest)) : rest.length < bytes.length :=
  length_of_getFrom h

theorem getFrom_lt (hacc : acc < 2 ^ width) (h : getFrom width acc shift bytes = some (v, rest)) :
    v < 2 ^ width := by
  induction bytes generalizing acc shift with
  | nil => cases h
  | cons byte bytes ih =>
    have hor := Nat.or_lt_two_pow hacc
      (Nat.mod_lt ((byte.toNat % 128) <<< shift) (Nat.two_pow_pos width))
    simp only [getFrom] at h
    split_ifs at h
    · obtain ⟨rfl, -⟩ := Prod.mk.inj (Option.some.inj h)
      exact hor
    · exact ih hor h

/-- A number that was read has the width. -/
theorem get_lt (h : get width bytes = some (v, rest)) : v < 2 ^ width :=
  getFrom_lt (Nat.two_pow_pos width) h

end Varint
