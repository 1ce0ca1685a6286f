import Mathlib.Data.List.Basic

/-!
# Reading bytes as text

Bytes are read as UTF-8 one character after the other. Where no character starts, the bytes that
could still have become one are replaced together by one replacement character. Texts come back
from their bytes, and ASCII characters are those of the bytes whatever else is among them.

## Main definitions

* `encode` — the bytes of a text
* `firstChar`, `badLength` — what bytes start with
* `lossy` — bytes as text, with replacements

## Main results

* `lossy_cases` — how bytes are read
* `lossy_encode` — a text comes back from its bytes
* `filter_lossy` — the ASCII characters of bytes
-/

namespace Utf8

/-- The bytes of a text. -/
def encode (cs : List Char) : List UInt8 := cs.flatMap String.utf8EncodeChar

/-- The character that bytes start with. -/
def firstChar (b : List UInt8) : Option Char := ByteArray.utf8DecodeChar? b.toByteArray 0

/-- A byte within a character. -/
def IsContinuation (b : UInt8) : Prop := 0x80 ≤ b ∧ b ≤ 0xBF

instance : DecidablePred IsContinuation := fun _ => inferInstanceAs (Decidable (_ ∧ _))

/-- A byte that may come second, after the first byte of a character of three or four. -/
def Second (first b : UInt8) : Prop :=
  IsContinuation b ∧
    (first = 0xE0 ∧ 0xA0 ≤ b ∨ 0xE1 ≤ first ∧ first ≤ 0xEC ∨ first = 0xED ∧ b ≤ 0x9F ∨
      first = 0xEE ∨ first = 0xEF ∨ first = 0xF0 ∧ 0x90 ≤ b ∨ 0xF1 ≤ first ∧ first ≤ 0xF3 ∨
      first = 0xF4 ∧ b ≤ 0x8F)

instance (first b : UInt8) : Decidable (Second first b) := inferInstanceAs (Decidable (_ ∧ _))

/-- How many bytes are replaced together where no character starts. -/
def badLength : List UInt8 → ℕ
  | [] => 1
  | [_] => 1
  | first :: b :: rest =>
    if Second first b then
      if 0xF0 ≤ first ∧ ∃ b' ∈ rest.head?, IsContinuation b' then 3 else 2
    else 1

/-- Read bytes after some that were read already. -/
def lossyAfter : ℕ → List UInt8 → List Char
  | _, [] => []
  | n + 1, _ :: rest => lossyAfter n rest
  | 0, b :: rest =>
    match firstChar (b :: rest) with
    | some c => c :: lossyAfter (c.utf8Size - 1) rest
    | none => '\uFFFD' :: lossyAfter (badLength (b :: rest) - 1) rest

/-- Bytes as text, with a replacement character where no character starts. -/
def lossy (b : List UInt8) : List Char := lossyAfter 0 b

variable {b rest : List UInt8} {c : Char} {cs : List Char} {n : ℕ}

/-! ### Characters -/

theorem utf8EncodeChar_of_lt (h : c.val < 128) : String.utf8EncodeChar c = [c.val.toUInt8] := by
  have hle : c.val.toNat ≤ 0x7f := by
    have := UInt32.lt_iff_toNat_lt.mp h
    exact Nat.le_of_lt_succ this
  rw [String.utf8EncodeChar, if_pos hle]
  rfl

theorem le_of_mem_utf8EncodeChar (h : ¬ c.val < 128) : ∀ x ∈ String.utf8EncodeChar c, 128 ≤ x := by
  have hlt : ¬ c.val.toNat ≤ 0x7f :=
    fun hle => h (UInt32.lt_iff_toNat_lt.mpr (Nat.lt_succ_of_le hle))
  intro x hx
  rw [String.utf8EncodeChar, if_neg hlt] at hx
  rw [UInt8.le_iff_toNat_le]
  split at hx
  · simp only [List.mem_cons, List.not_mem_nil, or_false] at hx
    rcases hx with rfl | rfl <;> simp <;> omega
  · split at hx
    · simp only [List.mem_cons, List.not_mem_nil, or_false] at hx
      rcases hx with rfl | rfl | rfl <;> simp <;> omega
    · simp only [List.mem_cons, List.not_mem_nil, or_false] at hx
      rcases hx with rfl | rfl | rfl | rfl <;> simp <;> omega

theorem firstChar_append : firstChar (String.utf8EncodeChar c ++ rest) = some c := by
  rw [firstChar, List.toByteArray_append]
  exact ByteArray.utf8DecodeChar?_utf8EncodeChar_append

theorem exists_of_firstChar_eq_some (h : firstChar b = some c) :
    ∃ rest, b = String.utf8EncodeChar c ++ rest := by
  obtain ⟨l, hl⟩ := ByteArray.exists_of_utf8DecodeChar?_eq_some h
  refine ⟨l.data.toList, ?_⟩
  have hdata := congrArg (fun bytes : ByteArray => bytes.data.toList) hl
  simpa using hdata

theorem val_ofUInt8 (x : UInt8) : (Char.ofUInt8 x).val = x.toUInt32 := rfl

theorem utf8EncodeChar_ofUInt8 {x : UInt8} (h : x < 128) :
    String.utf8EncodeChar (Char.ofUInt8 x) = [x] := by
  have hval : (Char.ofUInt8 x).val < 128 := by
    rw [UInt32.lt_iff_toNat_lt]
    simpa [val_ofUInt8] using UInt8.lt_iff_toNat_lt.mp h
  rw [utf8EncodeChar_of_lt hval]
  simp [val_ofUInt8]

theorem ofUInt8_injective : Function.Injective Char.ofUInt8 := by
  intro x y h
  have hval := congrArg (fun c => c.val.toUInt8) h
  simpa [val_ofUInt8] using hval

/-- A character starts with every ASCII byte. -/
theorem le_of_firstChar_eq_none {x : UInt8} (h : firstChar (x :: rest) = none) : 128 ≤ x := by
  by_contra hx
  have hfirst : firstChar (String.utf8EncodeChar (Char.ofUInt8 x) ++ rest) = _ := firstChar_append
  rw [utf8EncodeChar_ofUInt8 (UInt8.not_le.mp hx), List.singleton_append, h] at hfirst
  cases hfirst

/-! ### Reading -/

theorem lossyAfter_eq (n : ℕ) (b : List UInt8) : lossyAfter n b = lossy (b.drop n) := by
  induction n generalizing b with
  | zero => rfl
  | succ n ih =>
    cases b with
    | nil => rfl
    | cons x rest => exact ih rest

theorem lossy_append : lossy (String.utf8EncodeChar c ++ rest) = c :: lossy rest := by
  have hlength := String.length_utf8EncodeChar c
  cases hbytes : String.utf8EncodeChar c with
  | nil => exact absurd hbytes String.utf8EncodeChar_ne_nil
  | cons x bytes =>
    have hfirst : firstChar (x :: (bytes ++ rest)) = some c := by
      rw [← List.cons_append, ← hbytes, firstChar_append]
    rw [hbytes, List.length_cons] at hlength
    rw [List.cons_append, lossy, lossyAfter, hfirst]
    dsimp only
    rw [← hlength, Nat.add_sub_cancel, lossyAfter_eq, List.drop_left]

/-- Bytes that are replaced together are not ASCII. -/
theorem le_of_mem_take_badLength {x : UInt8} (h : firstChar (x :: rest) = none) :
    ∀ y ∈ (x :: rest).take (badLength (x :: rest)), 128 ≤ y := by
  have hx := le_of_firstChar_eq_none h
  match rest with
  | [] => simpa [badLength] using hx
  | y :: rest =>
    rw [badLength]
    split_ifs with hsecond hthird
    · obtain ⟨-, z, hz, hcont⟩ := hthird
      obtain ⟨rest', rfl⟩ := List.head?_eq_some_iff.mp hz
      simpa using ⟨hx, hsecond.1.1, hcont.1⟩
    · simpa using ⟨hx, hsecond.1.1⟩
    · simpa using hx

theorem badLength_pos (b : List UInt8) : 0 < badLength b := by
  fun_cases badLength b <;> decide

/-- Bytes start with a character, or with others that are not ASCII and are replaced. -/
theorem lossy_cases (h : b ≠ []) :
    (∃ c rest, b = String.utf8EncodeChar c ++ rest ∧ lossy b = c :: lossy rest) ∨
      ∃ bad rest, bad ≠ [] ∧ (∀ y ∈ bad, 128 ≤ y) ∧ b = bad ++ rest ∧
        lossy b = '\uFFFD' :: lossy rest := by
  cases b with
  | nil => exact absurd rfl h
  | cons x rest =>
    cases hfirst : firstChar (x :: rest) with
    | some c =>
      obtain ⟨rest', hb⟩ := exists_of_firstChar_eq_some hfirst
      exact .inl ⟨c, rest', hb, by rw [hb, lossy_append]⟩
    | none =>
      refine .inr ⟨_, _, ?_, le_of_mem_take_badLength hfirst, (List.take_append_drop _ _).symm, ?_⟩
      · intro hnil
        have hlength := congrArg List.length hnil
        have hpos := badLength_pos (x :: rest)
        rw [List.length_take, List.length_cons, List.length_nil] at hlength
        omega
      · obtain ⟨k, hk⟩ := Nat.exists_eq_succ_of_ne_zero
          (Nat.pos_iff_ne_zero.mp (badLength_pos (x :: rest)))
        rw [lossy, lossyAfter, hfirst]
        dsimp only
        rw [hk, List.drop_succ_cons, Nat.succ_sub_one, lossyAfter_eq]

theorem lossy_encode (cs : List Char) : lossy (encode cs) = cs := by
  induction cs with
  | nil => rfl
  | cons c cs ih => rw [encode, List.flatMap_cons, lossy_append, ← encode, ih]

theorem encode_append (cs cs' : List Char) : encode (cs ++ cs') = encode cs ++ encode cs' :=
  List.flatMap_append

theorem encode_intercalate (sep : List Char) (parts : List (List Char)) :
    encode (sep.intercalate parts) = (encode sep).intercalate (parts.map encode) := by
  induction parts with
  | nil => rfl
  | cons part parts ih =>
    cases parts with
    | nil => rw [List.map_singleton, List.intercalate_singleton, List.intercalate_singleton]
    | cons next parts =>
      rw [List.map_cons] at ih
      rw [List.intercalate_cons_cons, encode_append, encode_append, ih, List.map_cons,
        List.map_cons, List.intercalate_cons_cons]

/-! ### ASCII -/

/-- The ASCII characters among bytes. -/
def ascii (b : List UInt8) : List Char := (b.filter (· < 128)).map Char.ofUInt8

theorem ascii_append {b' : List UInt8} : ascii (b ++ b') = ascii b ++ ascii b' := by
  rw [ascii, List.filter_append, List.map_append]
  rfl

theorem ofUInt8_mem_ascii {x : UInt8} (h : x < 128) : Char.ofUInt8 x ∈ ascii b ↔ x ∈ b := by
  rw [ascii, List.mem_map]
  constructor
  · rintro ⟨y, hy, heq⟩
    rw [← ofUInt8_injective heq]
    exact List.mem_of_mem_filter hy
  · exact fun hx => ⟨x, List.mem_filter.mpr ⟨hx, decide_eq_true h⟩, rfl⟩

theorem length_ascii_cons {x : UInt8} :
    (ascii (x :: b)).length = (ascii b).length + if x < 128 then 1 else 0 := by
  rw [ascii, ascii, List.length_map, List.length_map, List.filter_cons]
  simp only [decide_eq_true_eq]
  split
  · rw [List.length_cons]
  · rw [Nat.add_zero]

theorem ascii_eq_nil (h : ∀ x ∈ b, 128 ≤ x) : ascii b = [] := by
  rw [ascii, List.map_eq_nil_iff, List.filter_eq_nil_iff]
  intro x hx
  rw [decide_eq_true_eq, UInt8.not_lt]
  exact h x hx

theorem ascii_utf8EncodeChar : ascii (String.utf8EncodeChar c) = [c].filter (·.val < 128) := by
  by_cases h : c.val < 128
  · have hnat : c.val.toNat < 128 := UInt32.lt_iff_toNat_lt.mp h
    have hbyte : c.val.toUInt8.toNat = c.val.toNat := by
      rw [UInt32.toNat_toUInt8, Nat.mod_eq_of_lt (Nat.lt_trans hnat (by decide))]
    have hlt : c.val.toUInt8 < 128 := by
      rw [UInt8.lt_iff_toNat_lt, hbyte]
      exact hnat
    have hback : Char.ofUInt8 c.val.toUInt8 = c := by
      apply Char.ext
      rw [← UInt32.toNat_inj]
      exact hbyte
    rw [utf8EncodeChar_of_lt h, ascii, List.filter_singleton, List.filter_singleton,
      decide_eq_true hlt, decide_eq_true h, cond_true, cond_true, List.map_singleton, hback]
  · rw [ascii_eq_nil (le_of_mem_utf8EncodeChar h),
      List.filter_cons_of_neg (by rwa [decide_eq_true_eq]), List.filter_nil]

/-- The ASCII characters of a text are those of its bytes. -/
theorem filter_lossy (b : List UInt8) : (lossy b).filter (·.val < 128) = ascii b := by
  induction hn : b.length using Nat.strongRecOn generalizing b with
  | ind n ih =>
    subst hn
    by_cases hb : b = []
    · subst hb
      rfl
    · rcases lossy_cases hb with ⟨c, rest, rfl, hread⟩ | ⟨bad, rest, hne, hbad, rfl, hread⟩
      · rw [hread, ascii_append, ascii_utf8EncodeChar, ← List.singleton_append,
          List.filter_append]
        congr 1
        refine ih _ ?_ rest rfl
        rw [List.length_append, String.length_utf8EncodeChar]
        have := c.utf8Size_pos
        omega
      · rw [hread, ascii_append, ascii_eq_nil hbad, List.nil_append,
          List.filter_cons_of_neg (by decide)]
        refine ih _ ?_ rest rfl
        rw [List.length_append]
        have := List.length_pos_iff.mpr hne
        omega

end Utf8
