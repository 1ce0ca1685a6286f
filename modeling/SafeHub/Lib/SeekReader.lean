import Mathlib.Data.List.Basic
import Mathlib.Tactic.Cases

/-!
# Readers that can be rewound

A reader hands out its content in pieces of its own choosing, at most as long as it is asked
for, may be interrupted before a piece, and says by an empty piece that nothing is left. It
carries what the rest of its content is and how many interruptions in a row are still to come,
so a loop that fills a buffer ends.

## Main definitions

* `SeekReader` — a reader with its laws
* `SeekReader.fill` — read until a buffer is full or nothing is left
* `SeekReader.Reliable` — a reader none of whose calls fails

## Main results

* `SeekReader.fill_eq_ok` — a filled buffer holds the next elements, however they were read
* `SeekReader.Reliable.fill` — a reliable reader fills every buffer
-/

/-- What one call to read answers. -/
inductive ReadReply (α : Type)
  | piece (data : List α)
  | interrupted
  | failed (message : String)
  deriving DecidableEq, Repr

/-- A reader in a state of type `ρ`, and what its calls say about its content. -/
structure SeekReader (α ρ : Type) where
  content : List α
  seekEnd : ρ → Except String (UInt64 × ρ)
  rewind : ρ → Except String ρ
  /-- Read into a buffer with some room. -/
  read : ρ → (room : ℕ) → ReadReply α × ρ
  /-- What is left to read. -/
  left : ρ → List α
  /-- How many interruptions come before the next piece. -/
  patience : ρ → ℕ
  seekEnd_length : ∀ {r r' : ρ} {len : UInt64}, seekEnd r = .ok (len, r') →
    len.toNat = content.length
  left_rewind : ∀ {r r' : ρ}, rewind r = .ok r' → left r' = content
  read_piece : ∀ {r r' : ρ} {room : ℕ} {data : List α}, read r room = (.piece data, r') →
    data.length ≤ room ∧ left r = data ++ left r'
  read_end : ∀ {r r' : ρ} {room : ℕ}, read r room = (.piece [], r') → 0 < room → left r = []
  read_interrupted : ∀ {r r' : ρ} {room : ℕ}, read r room = (.interrupted, r') →
    left r' = left r ∧ patience r' < patience r

namespace SeekReader

variable {α ρ : Type} {reader : SeekReader α ρ} {size : ℕ} {r r' : ρ} {filled out : List α}

/-- Read until the buffer has `size` elements or nothing is left. -/
def fill (reader : SeekReader α ρ) (size : ℕ) (r : ρ) (filled : List α) :
    Except String (List α × ρ) :=
  if filled.length < size then
    match _hread : reader.read r (size - filled.length) with
    | (.piece [], r') => .ok (filled, r')
    | (.piece (a :: data), r') => fill reader size r' (filled ++ a :: data)
    | (.interrupted, r') => fill reader size r' filled
    | (.failed message, _) => .error message
  else .ok (filled, r)
termination_by ((reader.left r).length, reader.patience r)
decreasing_by
  · have hleft := congrArg List.length (reader.read_piece _hread).2
    rw [List.length_append, List.length_cons] at hleft
    exact Prod.Lex.left _ _ (by omega)
  · obtain ⟨hleft, hpatience⟩ := reader.read_interrupted _hread
    rw [hleft]
    exact Prod.Lex.right _ hpatience

/-- However its elements were read, a filled buffer holds the next ones, and it is short only
where nothing is left. -/
theorem fill_eq_ok (h : reader.fill size r filled = .ok (out, r')) :
    out = filled ++ (reader.left r).take (size - filled.length) ∧
      reader.left r' = (reader.left r).drop (size - filled.length) := by
  fun_induction fill reader size r filled with
  | case1 r filled hroom r₁ hread =>
    obtain ⟨rfl, rfl⟩ := Prod.mk.inj (Except.ok.inj h)
    have hend := reader.read_end hread (Nat.sub_pos_of_lt hroom)
    have hleft := (reader.read_piece hread).2
    rw [hend, List.nil_append] at hleft
    rw [hend, ← hleft, List.take_nil, List.drop_nil, List.append_nil]
    exact ⟨rfl, rfl⟩
  | case2 r filled hroom a data r₁ hread ih =>
    obtain ⟨hout, hr'⟩ := ih h
    obtain ⟨hfits, hleft⟩ := reader.read_piece hread
    have hsize : size - filled.length =
        (a :: data).length + (size - (filled ++ a :: data).length) := by
      rw [List.length_append]
      omega
    rw [hout, hr', hleft, hsize, List.append_assoc, List.take_length_add_append,
      List.drop_length_add_append]
    exact ⟨rfl, rfl⟩
  | case3 r filled hroom r₁ hread ih =>
    obtain ⟨hleft, -⟩ := reader.read_interrupted hread
    rw [← hleft]
    exact ih h
  | case4 r filled hroom message r₁ hread => cases h
  | case5 r filled hfull =>
    obtain ⟨rfl, rfl⟩ := Prod.mk.inj (Except.ok.inj h)
    rw [Nat.sub_eq_zero_of_le (Nat.not_lt.mp hfull), List.take_zero, List.drop_zero,
      List.append_nil]
    exact ⟨rfl, rfl⟩

/-- A reader none of whose calls fails. -/
structure Reliable (reader : SeekReader α ρ) : Prop where
  seekEnd : ∀ r, ∃ len r', reader.seekEnd r = .ok (len, r')
  rewind : ∀ r, ∃ r', reader.rewind r = .ok r'
  read : ∀ r room message, (reader.read r room).1 ≠ .failed message

theorem Reliable.fill (h : reader.Reliable) (size : ℕ) (r : ρ) (filled : List α) :
    ∃ out r', reader.fill size r filled = .ok (out, r') := by
  fun_induction SeekReader.fill reader size r filled with
  | case1 r filled hroom r₁ hread => exact ⟨filled, r₁, rfl⟩
  | case2 r filled hroom a data r₁ hread ih => exact ih
  | case3 r filled hroom r₁ hread ih => exact ih
  | case4 r filled hroom message r₁ hread =>
    exact absurd (congrArg Prod.fst hread) (h.read r _ message)
  | case5 r filled hfull => exact ⟨filled, r, rfl⟩

end SeekReader
