import Mathlib.Data.Finset.Card
import Mathlib.Data.List.Nodup
import Mathlib.Data.List.Zip

/-!
# Counting signers

A relation says which key a signature is valid under. A threshold scheme wants
the number of distinct keys behind a list of signatures; a program rather counts
signatures, at their key's own position or under any key, in a saturating byte.
This file relates the three counts, by what sets them apart: signatures that bring
no new signer, signatures valid under several keys, signers whose signature stands
at the position of another key, and keys that are listed more than once.
-/

namespace SignerCount

variable {K S α : Type*} [DecidableEq K] (signs : K → S → Bool)

/-- The listed keys under which some signature of the list is valid. -/
def distinctSigners (keys : List K) (sigs : List S) : Finset K :=
  keys.toFinset.filter fun key => ∃ sig ∈ sigs, signs key sig

/-- How many signatures are valid under the key at their own position. -/
def alignedCount (keys : List K) (sigs : List S) : ℕ :=
  (keys.zip sigs).countP fun pair => signs pair.1 pair.2

/-- How many signatures are valid under some listed key, repetitions included. -/
def backedCount (keys : List K) (sigs : List S) : ℕ :=
  sigs.countP fun sig => keys.any fun key => signs key sig

/-- How many valid signatures bring no signer that is not behind a later one. -/
def repeatCount (keys : List K) : List S → ℕ
  | [] => 0
  | sig :: sigs => repeatCount keys sigs +
      if (∃ key ∈ keys, signs key sig) ∧
        distinctSigners signs keys [sig] ⊆ distinctSigners signs keys sigs then 1 else 0

/-- How many signers come with a signature that brings another one as well. -/
def sharedCount (keys : List K) : List S → ℕ
  | [] => 0
  | sig :: sigs => sharedCount keys sigs +
      ((distinctSigners signs keys [sig] \ distinctSigners signs keys sigs).card - 1)

/-- The listed keys at whose own position a valid signature stands. -/
def placedSigners (keys : List K) (sigs : List S) : Finset K :=
  keys.toFinset.filter fun key => ∃ pair ∈ keys.zip sigs, pair.1 = key ∧ signs pair.1 pair.2

/-- How many signers have no signature at their own position. -/
def displacedCount (keys : List K) (sigs : List S) : ℕ :=
  (distinctSigners signs keys sigs \ placedSigners signs keys sigs).card

/-- How many valid positions are those of a key that has a later one. -/
def doubledCount : List K → List S → ℕ
  | key :: keys, sig :: sigs => doubledCount keys sigs +
      if signs key sig ∧ key ∈ placedSigners signs keys sigs then 1 else 0
  | _, _ => 0

variable {signs} {keys : List K} {sigs : List S}

theorem mem_distinctSigners {key : K} :
    key ∈ distinctSigners signs keys sigs ↔ key ∈ keys ∧ ∃ sig ∈ sigs, signs key sig := by
  rw [distinctSigners, Finset.mem_filter, List.mem_toFinset]

theorem distinctSigners_nonempty_iff :
    0 < (distinctSigners signs keys sigs).card ↔
      ∃ key ∈ keys, ∃ sig ∈ sigs, signs key sig := by
  rw [Finset.card_pos]
  constructor
  · rintro ⟨key, hkey⟩
    exact ⟨key, mem_distinctSigners.mp hkey⟩
  · rintro ⟨key, hkey⟩
    exact ⟨key, mem_distinctSigners.mpr hkey⟩

/-! ### Signatures under any key -/

theorem distinctSigners_cons (keys : List K) (sig : S) (sigs : List S) :
    distinctSigners signs keys (sig :: sigs) =
      distinctSigners signs keys [sig] ∪ distinctSigners signs keys sigs := by
  ext key
  simp only [Finset.mem_union, mem_distinctSigners, List.mem_cons, List.not_mem_nil, or_false,
    exists_eq_or_imp, exists_eq_left, and_or_left]

/-- Valid signatures outnumber signers by those that bring none, less the signers that share
one. -/
theorem backedCount_add_sharedCount (keys : List K) (sigs : List S) :
    backedCount signs keys sigs + sharedCount signs keys sigs =
      (distinctSigners signs keys sigs).card + repeatCount signs keys sigs := by
  induction sigs with
  | nil => simp [backedCount, sharedCount, repeatCount, distinctSigners]
  | cons sig sigs ih =>
    set new := distinctSigners signs keys [sig] \ distinctSigners signs keys sigs with hnew
    have hcard : (distinctSigners signs keys (sig :: sigs)).card =
        new.card + (distinctSigners signs keys sigs).card := by
      rw [distinctSigners_cons, Finset.card_sdiff_add_card]
    have hcount : backedCount signs keys (sig :: sigs) =
        backedCount signs keys sigs + if ∃ key ∈ keys, signs key sig then 1 else 0 := by
      simp only [backedCount, List.countP_cons, List.any_eq_true]
    have hbacked : new.Nonempty → ∃ key ∈ keys, signs key sig := by
      rintro ⟨key, hkey⟩
      obtain ⟨hlisted, other, hother, hsigns⟩ :=
        mem_distinctSigners.mp (Finset.mem_sdiff.mp hkey).1
      obtain rfl := List.mem_singleton.mp hother
      exact ⟨key, hlisted, hsigns⟩
    have hsub : distinctSigners signs keys [sig] ⊆ distinctSigners signs keys sigs ↔
        ¬ new.Nonempty := by
      rw [hnew, Finset.not_nonempty_iff_eq_empty, Finset.sdiff_eq_empty_iff_subset]
    rw [sharedCount, repeatCount, hcard, hcount, ← hnew]
    by_cases hsome : new.Nonempty
    · have hpos := hsome.card_pos
      rw [if_pos (hbacked hsome), if_neg fun h => hsub.mp h.2 hsome]
      omega
    · have hzero := Finset.card_eq_zero.mpr (Finset.not_nonempty_iff_eq_empty.mp hsome)
      simp only [hsub.mpr hsome, and_true]
      omega

/-- No signer shares a signature when every signature is valid under one listed key at most. -/
theorem sharedCount_eq_zero (hunique : ∀ sig ∈ sigs, ∀ key ∈ keys, ∀ key' ∈ keys,
    signs key sig → signs key' sig → key = key') : sharedCount signs keys sigs = 0 := by
  induction sigs with
  | nil => rfl
  | cons sig sigs ih =>
    obtain ⟨hsig, hsigs⟩ := List.forall_mem_cons.mp hunique
    have hone : (distinctSigners signs keys [sig]).card ≤ 1 := by
      refine Finset.card_le_one.mpr fun key hkey key' hkey' => ?_
      simp only [mem_distinctSigners, List.mem_singleton, exists_eq_left] at hkey hkey'
      exact hsig key hkey.1 key' hkey'.1 hkey.2 hkey'.2
    have hle := Finset.card_le_card (Finset.sdiff_subset
      (s := distinctSigners signs keys [sig]) (t := distinctSigners signs keys sigs))
    rw [sharedCount, ih hsigs]
    omega

/-- No signature is repeated when no key is behind two of them. -/
theorem repeatCount_eq_zero (honce : sigs.Pairwise fun sig sig' =>
    ∀ key ∈ keys, signs key sig → ¬ signs key sig') : repeatCount signs keys sigs = 0 := by
  induction sigs with
  | nil => rfl
  | cons sig sigs ih =>
    obtain ⟨hsig, hsigs⟩ := List.pairwise_cons.mp honce
    rw [repeatCount, ih hsigs, if_neg]
    rintro ⟨⟨key, hkey, hsigns⟩, hsub⟩
    have hown : key ∈ distinctSigners signs keys [sig] :=
      mem_distinctSigners.mpr ⟨hkey, sig, List.mem_singleton_self sig, hsigns⟩
    obtain ⟨-, sig', hsig', hsigns'⟩ := mem_distinctSigners.mp (hsub hown)
    exact hsig sig' hsig' key hkey hsigns hsigns'

/-! ### Signatures at their key's position -/

theorem mem_placedSigners {key : K} :
    key ∈ placedSigners signs keys sigs ↔ ∃ sig, (key, sig) ∈ keys.zip sigs ∧ signs key sig := by
  simp only [placedSigners, Finset.mem_filter, List.mem_toFinset]
  constructor
  · rintro ⟨-, ⟨_, sig⟩, hpair, rfl, hsigns⟩
    exact ⟨sig, hpair, hsigns⟩
  · rintro ⟨sig, hpair, hsigns⟩
    exact ⟨(List.of_mem_zip hpair).1, (key, sig), hpair, rfl, hsigns⟩

theorem placedSigners_subset : placedSigners signs keys sigs ⊆ distinctSigners signs keys sigs := by
  intro key hkey
  obtain ⟨sig, hpair, hsigns⟩ := mem_placedSigners.mp hkey
  have hboth := List.of_mem_zip hpair
  exact mem_distinctSigners.mpr ⟨hboth.1, sig, hboth.2, hsigns⟩

theorem placedSigners_cons (key : K) (keys : List K) (sig : S) (sigs : List S) :
    placedSigners signs (key :: keys) (sig :: sigs) =
      if signs key sig then insert key (placedSigners signs keys sigs)
      else placedSigners signs keys sigs := by
  ext other
  split_ifs with hsigns
  · simp only [Finset.mem_insert, mem_placedSigners, List.zip_cons_cons, List.mem_cons,
      Prod.mk.injEq]
    constructor
    · rintro ⟨sig', ⟨rfl, -⟩ | hpair, hsigns'⟩
      · exact .inl rfl
      · exact .inr ⟨sig', hpair, hsigns'⟩
    · rintro (rfl | ⟨sig', hpair, hsigns'⟩)
      · exact ⟨sig, .inl ⟨rfl, rfl⟩, hsigns⟩
      · exact ⟨sig', .inr hpair, hsigns'⟩
  · simp only [mem_placedSigners, List.zip_cons_cons, List.mem_cons, Prod.mk.injEq]
    constructor
    · rintro ⟨sig', ⟨rfl, rfl⟩ | hpair, hsigns'⟩
      · exact absurd hsigns' hsigns
      · exact ⟨sig', hpair, hsigns'⟩
    · rintro ⟨sig', hpair, hsigns'⟩
      exact ⟨sig', .inr hpair, hsigns'⟩

/-- The valid positions are those of the keys placed, and those of a key that has a later one. -/
theorem alignedCount_eq (keys : List K) (sigs : List S) :
    alignedCount signs keys sigs =
      (placedSigners signs keys sigs).card + doubledCount signs keys sigs := by
  induction keys generalizing sigs with
  | nil => simp [alignedCount, placedSigners, doubledCount]
  | cons key keys ih =>
    cases sigs with
    | nil => simp [alignedCount, placedSigners, doubledCount]
    | cons sig sigs =>
      have hcount : alignedCount signs (key :: keys) (sig :: sigs) =
          alignedCount signs keys sigs + if signs key sig then 1 else 0 := by
        rw [alignedCount, List.zip_cons_cons, List.countP_cons, alignedCount]
      rw [hcount, ih, placedSigners_cons, doubledCount]
      by_cases hsigns : signs key sig = true
      · by_cases hplaced : key ∈ placedSigners signs keys sigs
        · rw [if_pos hsigns, if_pos hsigns, Finset.insert_eq_of_mem hplaced,
            if_pos ⟨hsigns, hplaced⟩, Nat.add_assoc]
        · rw [if_pos hsigns, if_pos hsigns, Finset.card_insert_of_notMem hplaced,
            if_neg fun h => hplaced h.2]
          omega
      · rw [if_neg hsigns, if_neg hsigns, if_neg fun h => hsigns h.1, Nat.add_zero, Nat.add_zero]

/-- Valid positions fall short of the signers by those displaced, and exceed them by keys listed
more than once. -/
theorem alignedCount_add_displacedCount (keys : List K) (sigs : List S) :
    alignedCount signs keys sigs + displacedCount signs keys sigs =
      (distinctSigners signs keys sigs).card + doubledCount signs keys sigs := by
  have hsub : placedSigners signs keys sigs ⊆ distinctSigners signs keys sigs :=
    placedSigners_subset
  have hsplit := Finset.card_sdiff_add_card_eq_card hsub
  rw [alignedCount_eq, displacedCount]
  omega

/-- No signer is displaced when every valid signature stands at its key's position. -/
theorem displacedCount_eq_zero (hplaced : ∀ key ∈ keys, ∀ sig ∈ sigs, signs key sig →
    (key, sig) ∈ keys.zip sigs) : displacedCount signs keys sigs = 0 := by
  rw [displacedCount, Finset.card_eq_zero, Finset.sdiff_eq_empty_iff_subset]
  intro key hkey
  obtain ⟨hlisted, sig, hsig, hsigns⟩ := mem_distinctSigners.mp hkey
  exact mem_placedSigners.mpr ⟨sig, hplaced key hlisted sig hsig hsigns, hsigns⟩

/-- No position is counted again when no key is listed twice. -/
theorem doubledCount_eq_zero (hnodup : keys.Nodup) : doubledCount signs keys sigs = 0 := by
  induction keys generalizing sigs with
  | nil => simp [doubledCount]
  | cons key keys ih =>
    obtain ⟨hfresh, hnodup⟩ := List.nodup_cons.mp hnodup
    cases sigs with
    | nil => simp [doubledCount]
    | cons sig sigs =>
      rw [doubledCount, ih hnodup, if_neg]
      rintro ⟨-, hplaced⟩
      obtain ⟨sig', hpair, -⟩ := mem_placedSigners.mp hplaced
      exact hfresh (List.of_mem_zip hpair).1

/-! ### A saturating byte counter -/

/-- `u8::saturating_add(1)` -/
def satSucc (count : UInt8) : UInt8 := if count = 255 then 255 else count + 1

/-- Count the elements satisfying `p` in a saturating byte. -/
def satCount (p : α → Bool) (xs : List α) : UInt8 :=
  xs.foldl (fun count x => if p x then satSucc count else count) 0

theorem toNat_satSucc (count : UInt8) : (satSucc count).toNat = min 255 (count.toNat + 1) := by
  have hlt := count.toNat_lt
  unfold satSucc
  split_ifs with h
  · subst h
    rfl
  · have hne : count.toNat ≠ 255 := fun heq => h (UInt8.toNat_inj.mp heq)
    rw [UInt8.toNat_add]
    simp only [UInt8.toNat_one]
    omega

theorem toNat_satCount (p : α → Bool) (xs : List α) :
    (satCount p xs).toNat = min 255 (xs.countP p) := by
  have hfold : ∀ (xs : List α) (count : UInt8),
      (xs.foldl (fun count x => if p x then satSucc count else count) count).toNat =
        min 255 (count.toNat + xs.countP p) := by
    intro xs
    induction xs with
    | nil =>
      intro count
      have hlt := count.toNat_lt
      simp only [List.foldl_nil, List.countP_nil]
      omega
    | cons x xs ih =>
      intro count
      rw [List.foldl_cons, ih, List.countP_cons]
      split_ifs with hp
      · rw [toNat_satSucc]
        omega
      · omega
  have hzero := hfold xs 0
  simpa [satCount] using hzero

/-- A list of at most 255 elements is counted exactly. -/
theorem toNat_satCount_of_length_le (p : α → Bool) {xs : List α} (h : xs.length ≤ 255) :
    (satCount p xs).toNat = xs.countP p := by
  have hle : xs.countP p ≤ xs.length := List.countP_le_length
  rw [toNat_satCount]
  omega

end SignerCount
