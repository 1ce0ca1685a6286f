import Mathlib.Data.Nat.Log
import Mathlib.Tactic.Ring

/-!
# Fixed-width integers in byte strings

Little- and big-endian encodings of a natural number in a given number of
bytes, and the big-endian reader. A value below `256 ^ width` survives the
round trip, so two values of that range with equal encodings are equal.
-/

/-- A byte string. -/
abbrev Bytes := List UInt8

namespace FixedWidth

variable {width n m : ℕ}

/-- The `width` low bytes of `n`, least significant first. -/
def leBytes : (width n : ℕ) → Bytes
  | 0, _ => []
  | width + 1, n => UInt8.ofNat (n % 256) :: leBytes width (n / 256)

/-- The `width` low bytes of `n`, most significant first. -/
def beBytes (width n : ℕ) : Bytes := (leBytes width n).reverse

/-- The number whose little-endian digits are `bytes`. -/
def readLE : Bytes → ℕ
  | [] => 0
  | b :: bytes => b.toNat + 256 * readLE bytes

/-- The number whose big-endian digits are `bytes`. -/
def readBE (bytes : Bytes) : ℕ := readLE bytes.reverse

@[simp] theorem length_leBytes (width n : ℕ) : (leBytes width n).length = width := by
  induction width generalizing n with
  | zero => rfl
  | succ width ih => rw [leBytes, List.length_cons, ih]

@[simp] theorem length_beBytes (width n : ℕ) : (beBytes width n).length = width := by
  rw [beBytes, List.length_reverse, length_leBytes]

theorem readLE_leBytes (width n : ℕ) : readLE (leBytes width n) = n % 256 ^ width := by
  induction width generalizing n with
  | zero => simp [leBytes, readLE, Nat.mod_one]
  | succ width ih =>
    have hdigit : (UInt8.ofNat (n % 256)).toNat = n % 256 :=
      UInt8.toNat_ofNat_of_lt' (Nat.mod_lt _ (by decide))
    rw [leBytes, readLE, ih, hdigit, pow_succ', Nat.mod_mul]

theorem readBE_beBytes (h : n < 256 ^ width) : readBE (beBytes width n) = n := by
  rw [readBE, beBytes, List.reverse_reverse, readLE_leBytes, Nat.mod_eq_of_lt h]

theorem leBytes_injective (hn : n < 256 ^ width) (hm : m < 256 ^ width)
    (h : leBytes width n = leBytes width m) : n = m := by
  have hread := congrArg readLE h
  rwa [readLE_leBytes, readLE_leBytes, Nat.mod_eq_of_lt hn, Nat.mod_eq_of_lt hm] at hread

theorem beBytes_injective (hn : n < 256 ^ width) (hm : m < 256 ^ width)
    (h : beBytes width n = beBytes width m) : n = m :=
  leBytes_injective hn hm (List.reverse_inj.mp h)

theorem readLE_lt (bytes : Bytes) : readLE bytes < 256 ^ bytes.length := by
  induction bytes with
  | nil => simp [readLE]
  | cons b bytes ih =>
    have hb := b.toNat_lt
    rw [readLE, List.length_cons, pow_succ]
    omega

theorem leBytes_readLE (bytes : Bytes) : leBytes bytes.length (readLE bytes) = bytes := by
  induction bytes with
  | nil => rfl
  | cons b bytes ih =>
    have hb : b.toNat < 256 := b.toNat_lt
    have hmod : (b.toNat + 256 * readLE bytes) % 256 = b.toNat := by omega
    have hdiv : (b.toNat + 256 * readLE bytes) / 256 = readLE bytes := by omega
    rw [List.length_cons, leBytes, readLE, hmod, hdiv, ih, UInt8.ofNat_toNat]

theorem readBE_lt (bytes : Bytes) : readBE bytes < 256 ^ bytes.length := by
  have hlt := readLE_lt bytes.reverse
  rwa [List.length_reverse] at hlt

theorem beBytes_readBE (bytes : Bytes) : beBytes bytes.length (readBE bytes) = bytes := by
  have hread := leBytes_readLE bytes.reverse
  rw [List.length_reverse] at hread
  rw [beBytes, readBE, hread, List.reverse_reverse]

/-! ### Lists of records of one width -/

variable {α : Type} {f : α → Bytes}

theorem length_flatMap_of_forall (as : List α) (h : ∀ a ∈ as, (f a).length = width) :
    (as.flatMap f).length = as.length * width := by
  induction as with
  | nil => simp
  | cons a as ih =>
    rw [List.flatMap_cons, List.length_append, h a List.mem_cons_self,
      ih fun b hb => h b (List.mem_cons_of_mem a hb), List.length_cons]
    ring

/-- Records of one width, written one after the other, can be read back. -/
theorem flatMap_injective_of_forall (hpos : 0 < width) (hf : Function.Injective f) {as bs : List α}
    (has : ∀ a ∈ as, (f a).length = width) (hbs : ∀ b ∈ bs, (f b).length = width)
    (h : as.flatMap f = bs.flatMap f) : as = bs := by
  induction as generalizing bs with
  | nil =>
    cases bs with
    | nil => rfl
    | cons b bs =>
      have hlength := congrArg List.length h
      rw [List.flatMap_nil, List.flatMap_cons, List.length_append, hbs b List.mem_cons_self,
        List.length_nil] at hlength
      omega
  | cons a as ih =>
    cases bs with
    | nil =>
      have hlength := congrArg List.length h
      rw [List.flatMap_nil, List.flatMap_cons, List.length_append, has a List.mem_cons_self,
        List.length_nil] at hlength
      omega
    | cons b bs =>
      rw [List.flatMap_cons, List.flatMap_cons] at h
      have hfirst : (f a).length = (f b).length := by
        rw [has a List.mem_cons_self, hbs b List.mem_cons_self]
      obtain ⟨hab, hrest⟩ := List.append_inj h hfirst
      rw [hf hab, ih (fun c hc => has c (List.mem_cons_of_mem a hc))
        (fun c hc => hbs c (List.mem_cons_of_mem b hc)) hrest]

/-- Records of one width can be told from the bytes behind them when the length of those bytes
is known from its remainder by the width. -/
theorem flatMap_append_inj (hpos : 0 < width) (hf : Function.Injective f)
    (hwidth : ∀ a, (f a).length = width) {as bs : List α} {rest rest' : Bytes}
    (hmod : rest.length % width = rest'.length % width → rest.length = rest'.length)
    (h : as.flatMap f ++ rest = bs.flatMap f ++ rest') : as = bs ∧ rest = rest' := by
  have hlength := congrArg List.length h
  simp only [List.length_append, length_flatMap_of_forall _ fun a _ => hwidth a] at hlength
  have hrest : rest.length = rest'.length := by
    apply hmod
    calc rest.length % width
      _ = (as.length * width + rest.length) % width := by rw [Nat.mul_add_mod_self_right]
      _ = (bs.length * width + rest'.length) % width := by rw [hlength]
      _ = rest'.length % width := by rw [Nat.mul_add_mod_self_right]
  obtain ⟨hrecords, hbehind⟩ := List.append_inj' h hrest
  exact ⟨flatMap_injective_of_forall hpos hf (fun a _ => hwidth a) (fun b _ => hwidth b) hrecords,
    hbehind⟩

/-- Two lists of records of one width, each with more bytes behind it, are written alike exactly
when the longer list's further records are at the front of the shorter one's bytes. -/
theorem flatMap_append_eq_iff (hf : Function.Injective f) (hwidth : ∀ a, (f a).length = width)
    {as bs : List α} {rest rest' : Bytes} (hle : as.length ≤ bs.length) :
    as.flatMap f ++ rest = bs.flatMap f ++ rest' ↔
      ∃ extra, bs = as ++ extra ∧ rest = extra.flatMap f ++ rest' := by
  constructor
  · intro h
    induction as generalizing bs with
    | nil => exact ⟨bs, rfl, h⟩
    | cons a as ih =>
      cases bs with
      | nil => cases hle
      | cons b bs =>
        rw [List.flatMap_cons, List.flatMap_cons, List.append_assoc, List.append_assoc] at h
        obtain ⟨hab, htail⟩ := List.append_inj h ((hwidth a).trans (hwidth b).symm)
        obtain ⟨extra, rfl, hrest⟩ := ih (Nat.le_of_succ_le_succ hle) htail
        exact ⟨extra, by rw [hf hab]; rfl, hrest⟩
  · rintro ⟨extra, rfl, rfl⟩
    rw [List.flatMap_append, List.append_assoc]

end FixedWidth
