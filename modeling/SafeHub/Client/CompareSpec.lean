import SafeHub.Client.Compare

/-!
# What a comparison of checkpoints says

The comparison intersects two projections, walks the shared span with holes counted as forks, and
rechecks the digests of each epoch. On comparable checkpoints the answer has a plain reading: the
first epoch whose witnesses differ, else whether the two ranges meet, else the first number where
the entries differ, else which chain is longer. Holes and differing digests never decide it.

## Main definitions

* `InRange`, `DivergeAt`, `WitnessesDifferAt` — what two checkpoints share and where they differ
* `ComparesAs` — the reading of each outcome
* `CompareResult.swapped` — an outcome with the sides exchanged

## Main results

* `compareCheckpoints_comparesAs` — a comparison gives the outcome that holds, and compared the
  other way round the exchanged one
-/

namespace SafeHub

open FixedWidth
open Std (ExtTreeMap)

section CompareSpec

variable {D : Type} [Sha512 D] [DecidableEq D]

/-- A sequence number is in the range of a chain's entries under epochs from `window` on. -/
def InRange (window : UInt64) (chain : List (ChainEntry D)) (seq : UInt64) : Prop :=
  ∃ x ∈ chain, ∃ y ∈ chain, window ≤ x.epoch ∧ window ≤ y.epoch ∧ x.seq ≤ seq ∧ seq ≤ y.seq

/-- Two chains hold entries of a number that differ, under epochs from `window` on. -/
def DivergeAt (window : UInt64) (a b : List (ChainEntry D)) (seq : UInt64) : Prop :=
  ∃ x ∈ a, ∃ y ∈ b, window ≤ x.epoch ∧ window ≤ y.epoch ∧ x.seq = seq ∧ Disagree x y

/-- Two checkpoints have different witnesses of an epoch. -/
def WitnessesDifferAt (a b : RefCheckpoint D) (epoch : UInt64) : Prop :=
  ∃ witness witness' : Bytes, a.epochWitnesses[epoch]? = some witness ∧
    b.epochWitnesses[epoch]? = some witness' ∧ witness ≠ witness'

/-- The number of a chain's first entry under an epoch. -/
def firstUnder (chain : List (ChainEntry D)) (epoch : UInt64) : Option UInt64 :=
  (entriesUnder chain epoch).head?.map ChainEntry.seq

/-- The greater of two windows. -/
def sharedWindow (a b : RefCheckpoint D) : UInt64 := max a.windowFrom b.windowFrom

/-- The ranges of two checkpoints in their shared window meet, and nothing in it differs. -/
structure AgreeOnShared (a b : RefCheckpoint D) : Prop where
  witnesses : ∀ epoch, ¬ WitnessesDifferAt a b epoch
  meet : ∃ seq, InRange (sharedWindow a b) a.chain seq ∧ InRange (sharedWindow a b) b.chain seq
  entries : ∀ seq, ¬ DivergeAt (sharedWindow a b) a.chain b.chain seq

/-- What an outcome says of the authorized projections of two checkpoints. -/
def ComparesAs (a b : RefCheckpoint D) : CompareResult → Prop
  | .forked atSeq (.epochWitness epoch) =>
    WitnessesDifferAt a b epoch ∧ (∀ other, WitnessesDifferAt a b other → epoch ≤ other) ∧
      atSeq = firstUnder a.chain epoch
  | .windowDisjoint =>
    (∀ epoch, ¬ WitnessesDifferAt a b epoch) ∧
      ∀ seq, ¬ (InRange (sharedWindow a b) a.chain seq ∧ InRange (sharedWindow a b) b.chain seq)
  | .forked atSeq .divergentHead =>
    (∀ epoch, ¬ WitnessesDifferAt a b epoch) ∧
      ∃ seq, atSeq = some seq ∧ DivergeAt (sharedWindow a b) a.chain b.chain seq ∧
        ∀ other, DivergeAt (sharedWindow a b) a.chain b.chain other → seq ≤ other
  | .consistent => AgreeOnShared a b ∧ a.tipSeq = b.tipSeq
  | .prefixCompatible ahead =>
    AgreeOnShared a b ∧ ∃ tipA tipB, a.tipSeq = some tipA ∧ b.tipSeq = some tipB ∧
      (ahead = 'A' ∧ tipB < tipA ∨ ahead = 'B' ∧ tipA < tipB)
  -- commitments differ only where entries do
  | .forked _ (.epochCommitment _) => False

/-- An outcome with the sides exchanged, the second checkpoint's chain being `chain`. -/
def CompareResult.swapped (chain : List (ChainEntry D)) : CompareResult → CompareResult
  | .prefixCompatible ahead => .prefixCompatible (if ahead = 'A' then 'B' else 'A')
  | .forked _ (.epochWitness epoch) => .forked (firstUnder chain epoch) (.epochWitness epoch)
  | result => result

variable {a b : RefCheckpoint D} {chain : List (ChainEntry D)} {result : CompareResult}
variable {window epoch seq lo hi : UInt64} {x y : ChainEntry D}

/-! ### Exchanging the sides -/

omit [DecidableEq D] in
theorem Comparable.symm (h : Comparable a b) : Comparable b a where
  repoId := h.repoId.symm
  boundA := h.boundB
  boundB := h.boundA
  validA := h.validB
  validB := h.validA
  inWindowA := h.inWindowB
  inWindowB := h.inWindowA

omit [Sha512 D] [DecidableEq D] in
theorem sharedWindow_comm : sharedWindow a b = sharedWindow b a := by
  have hle : ∀ x y : UInt64, max x y ≤ max y x := fun x y =>
    max_le_iff_le_and_le.mpr ((max_le_iff_le_and_le.mp (UInt64.le_refl _)).symm)
  exact UInt64.le_antisymm (hle _ _) (hle _ _)

omit [Sha512 D] [DecidableEq D] in
theorem WitnessesDifferAt.symm (h : WitnessesDifferAt a b epoch) : WitnessesDifferAt b a epoch := by
  obtain ⟨witness, witness', ha, hb, hne⟩ := h
  exact ⟨witness', witness, hb, ha, hne.symm⟩

omit [Sha512 D] [DecidableEq D] in
theorem DivergeAt.symm {a b : List (ChainEntry D)} (h : DivergeAt window a b seq) :
    DivergeAt window b a seq := by
  obtain ⟨x, hx, y, hy, hxw, hyw, rfl, hseq, hdiffer⟩ := h
  exact ⟨y, hy, x, hx, hyw, hxw, hseq.symm, hseq.symm, hdiffer.imp Ne.symm Ne.symm⟩

omit [Sha512 D] [DecidableEq D] in
theorem AgreeOnShared.symm (h : AgreeOnShared a b) : AgreeOnShared b a where
  witnesses epoch hdiffer := h.witnesses epoch hdiffer.symm
  meet := by
    obtain ⟨seq, ha, hb⟩ := h.meet
    rw [sharedWindow_comm]
    exact ⟨seq, hb, ha⟩
  entries seq hdiffer := by
    rw [sharedWindow_comm] at hdiffer
    exact h.entries seq hdiffer.symm

omit [Sha512 D] [DecidableEq D] in
/-- What holds of two checkpoints holds of them the other way round, with the sides exchanged. -/
theorem ComparesAs.swapped (h : ComparesAs a b result) :
    ComparesAs b a (result.swapped b.chain) := by
  cases result with
  | consistent => exact ⟨h.1.symm, h.2.symm⟩
  | prefixCompatible ahead =>
    obtain ⟨hagree, tipA, tipB, ha, hb, ⟨rfl, hlt⟩ | ⟨rfl, hlt⟩⟩ := h
    · exact ⟨hagree.symm, tipB, tipA, hb, ha, .inr ⟨rfl, hlt⟩⟩
    · exact ⟨hagree.symm, tipB, tipA, hb, ha, .inl ⟨rfl, hlt⟩⟩
  | windowDisjoint =>
    refine ⟨fun epoch hdiffer => h.1 epoch hdiffer.symm, fun seq hmeet => ?_⟩
    rw [sharedWindow_comm] at hmeet
    exact h.2 seq hmeet.symm
  | forked atSeq reason =>
    cases reason with
    | divergentHead =>
      obtain ⟨hwitnesses, seq, rfl, hdiverge, hleast⟩ := h
      rw [sharedWindow_comm] at hdiverge hleast
      exact ⟨fun epoch hdiffer => hwitnesses epoch hdiffer.symm, seq, rfl, hdiverge.symm,
        fun other hother => hleast other hother.symm⟩
    | epochWitness epoch =>
      obtain ⟨hdiffer, hleast, -⟩ := h
      exact ⟨hdiffer.symm, fun other hother => hleast other hother.symm, rfl⟩
    | epochCommitment epoch => exact h

/-! ### One outcome holds -/

omit [Sha512 D] [DecidableEq D] in
theorem DivergeAt.inRange {a b : List (ChainEntry D)} (h : DivergeAt window a b seq) :
    InRange window a seq ∧ InRange window b seq := by
  obtain ⟨x, hx, y, hy, hxw, hyw, rfl, hseq, -⟩ := h
  have hle : y.seq ≤ x.seq ∧ x.seq ≤ y.seq := by simp [hseq]
  exact ⟨⟨x, hx, x, hx, hxw, hxw, UInt64.le_refl _, UInt64.le_refl _⟩,
    y, hy, y, hy, hyw, hyw, hle.1, hle.2⟩

omit [Sha512 D] [DecidableEq D] in
/-- At most one outcome holds of two checkpoints. -/
theorem ComparesAs.unique {other : CompareResult} (h : ComparesAs a b result)
    (h' : ComparesAs a b other) : result = other := by
  have hmeet : ∀ seq, DivergeAt (sharedWindow a b) a.chain b.chain seq →
      InRange (sharedWindow a b) a.chain seq ∧ InRange (sharedWindow a b) b.chain seq :=
    fun _ hdiverge => hdiverge.inRange
  have hantisymm : ∀ x y : UInt64, x ≤ y → y ≤ x → x = y := fun _ _ => UInt64.le_antisymm
  have hasymm : ∀ x y : UInt64, x < y → ¬ y < x := fun _ _ => UInt64.lt_asymm
  have hirrefl : ∀ x : UInt64, ¬ x < x := UInt64.lt_irrefl
  -- each outcome excludes what the others say, and fixes its own number or side
  rcases result with _ | ahead | _ | ⟨atSeq, _ | epoch | epoch⟩ <;>
    rcases other with _ | ahead' | _ | ⟨atSeq', _ | epoch' | epoch'⟩ <;>
    grind [ComparesAs, AgreeOnShared]

/-! ### The scans -/

omit [Sha512 D] [DecidableEq D] in
/-- The witness found first is of the least epoch. -/
theorem forkedWitness_eq_some (h : forkedWitness a b = some epoch) :
    WitnessesDifferAt a b epoch ∧ ∀ other, WitnessesDifferAt a b other → epoch ≤ other := by
  obtain ⟨⟨first, witness⟩, hfind, hfirst⟩ := Option.map_eq_some_iff.mp h
  obtain rfl : first = epoch := hfirst
  obtain ⟨hdiffer, before, after, hlist, hbefore⟩ := List.find?_eq_some_iff_append.mp hfind
  have hmem : ∀ entry : UInt64 × Bytes,
      entry ∈ a.epochWitnesses.toList ↔ a.epochWitnesses[entry.1]? = some entry.2 :=
    fun _ => ExtTreeMap.mem_toList_iff_getElem?_eq_some
  refine ⟨?_, fun other hother => ?_⟩
  · cases hb : b.epochWitnesses[first]? with
    | none => simp [hb] at hdiffer
    | some witness' =>
      exact ⟨witness, witness', (hmem (first, witness)).mp (by simp [hlist]), hb,
        by simpa [hb] using hdiffer⟩
  · obtain ⟨w, w', hw, hw', hne⟩ := hother
    have hin := (hmem (other, w)).mpr hw
    have hordered := ExtTreeMap.ordered_keys_toList (t := a.epochWitnesses)
    rw [hlist] at hin hordered
    rcases List.mem_append.mp hin with hearlier | hlater
    · -- no earlier witness differs
      have hagrees := hbefore _ hearlier
      simp [hw', hne] at hagrees
    · rcases List.mem_cons.mp hlater with heq | hrest
      · rw [(Prod.mk.inj heq).1]
        exact UInt64.le_refl _
      · have hcompare := (List.pairwise_cons.mp (List.pairwise_append.mp hordered).2.1).1 _ hrest
        exact UInt64.le_of_lt (Std.compare_eq_lt.mp hcompare)

omit [Sha512 D] in
/-- The scan of a span stops at the first number where two projections do not agree. -/
theorem firstDivergence_eq_some {pa pb : ExtTreeMap UInt64 (ChainEntry D) compare} {start n : ℕ}
    (h : firstDivergence pa pb start n = some seq) :
    ∃ k, start ≤ k ∧ k < start + n ∧ seq = .ofNat k ∧ ¬ AgreeAt pa pb (.ofNat k) ∧
      ∀ j, start ≤ j → j < k → AgreeAt pa pb (.ofNat j) := by
  induction n generalizing start with
  | zero => cases h
  | succ n ih =>
    by_cases hagree : AgreeAt pa pb (.ofNat start)
    · obtain ⟨x, y, hx, hy, hhash, hepoch⟩ := hagree
      rw [firstDivergence, hx, hy] at h
      simp only [hhash, hepoch, ne_eq, not_true_eq_false, or_self, if_false] at h
      obtain ⟨k, hstart, hend, hseq, hdiffer, hbefore⟩ := ih h
      refine ⟨k, by omega, by omega, hseq, hdiffer, fun j hj hjk => ?_⟩
      rcases Nat.eq_or_lt_of_le hj with rfl | hlt
      · exact ⟨x, y, hx, hy, hhash, hepoch⟩
      · exact hbefore j hlt hjk
    · refine ⟨start, le_rfl, by omega, ?_, hagree, fun j hj hjk => by omega⟩
      rw [firstDivergence] at h
      split at h
      next x y hx hy =>
        have hdiffer : x.hash ≠ y.hash ∨ x.epoch ≠ y.epoch := by
          by_contra hsame
          rw [not_or, not_not, not_not] at hsame
          exact hagree ⟨x, y, hx, hy, hsame⟩
        rw [if_pos hdiffer] at h
        exact (Option.some.inj h).symm
      next => exact (Option.some.inj h).symm

/-! ### Ranges of valid chains -/

omit [Sha512 D] [DecidableEq D] in
/-- The range of a valid chain's entries has no holes. -/
theorem InternallyValid.inRange_iff (h : InternallyValid chain) :
    InRange window chain seq ↔ ∃ entry ∈ chain, window ≤ entry.epoch ∧ entry.seq = seq := by
  constructor
  · rintro ⟨x, hx, y, hy, hxw, -, hlo, hhi⟩
    obtain ⟨entry, hentry, rfl⟩ := h.exists_between hx hy hlo hhi
    exact ⟨entry, hentry, UInt64.le_trans hxw (h.epoch_le hx hentry hlo), rfl⟩
  · rintro ⟨entry, hentry, hwindow, rfl⟩
    exact ⟨entry, hentry, entry, hentry, hwindow, hwindow, UInt64.le_refl _, UInt64.le_refl _⟩

omit [Sha512 D] [DecidableEq D] in
/-- The last number of a projection is that of the chain. -/
theorem InternallyValid.tipSeq_eq (h : InternallyValid a.chain) (hle : lo ≤ hi)
    (hspan : ∀ seq, (∃ entry ∈ a.chain, window ≤ entry.epoch ∧ entry.seq = seq) ↔
      lo ≤ seq ∧ seq ≤ hi) : a.tipSeq = some hi := by
  obtain ⟨x, hx, hwindow, hseq⟩ := (hspan hi).mpr ⟨hle, UInt64.le_refl _⟩
  have hy := List.getLast?_eq_some_getLast (List.ne_nil_of_mem hx)
  generalize a.chain.getLast (List.ne_nil_of_mem hx) = y at hy
  obtain ⟨first, hfirst⟩ := Option.isSome_iff_exists.mp
    (List.isSome_head?.mpr (List.ne_nil_of_mem hx))
  have hyin := List.mem_of_getLast? hy
  have hxy := (seq_between h.pairwise_seq hfirst hy hx).2
  have hlast := ((hspan y.seq).mp
    ⟨y, hyin, UInt64.le_trans hwindow (h.epoch_le hx hyin hxy), rfl⟩).2
  rw [RefCheckpoint.tipSeq, hy, Option.map_some, UInt64.le_antisymm hlast (hseq ▸ hxy)]

omit [Sha512 D] in
/-- Where both projections hold an entry they agree, or the entries differ. -/
theorem agreeAt_projection_iff {a b : List (ChainEntry D)} (ha : InternallyValid a)
    (hb : InternallyValid b) (hmeet : InRange window a seq ∧ InRange window b seq) :
    AgreeAt (projection a window) (projection b window) seq ↔ ¬ DivergeAt window a b seq := by
  constructor
  · rintro ⟨x, y, hx, hy, hhash, hepoch⟩ ⟨x', hx', y', hy', hxw, hyw, hseq, hseq', hdiffer⟩
    have hget := ha.getElem?_projection.mpr ⟨hx', hxw, hseq⟩
    have hget' := hb.getElem?_projection.mpr ⟨hy', hyw, hseq'.symm.trans hseq⟩
    rw [Option.some.inj (hx.symm.trans hget)] at hhash hepoch
    rw [Option.some.inj (hy.symm.trans hget')] at hhash hepoch
    exact hdiffer.elim (fun hne => hne hhash) (fun hne => hne hepoch)
  · intro hagree
    obtain ⟨x, hx, hxw, hxseq⟩ := ha.inRange_iff.mp hmeet.1
    obtain ⟨y, hy, hyw, hyseq⟩ := hb.inRange_iff.mp hmeet.2
    refine ⟨x, y, ha.getElem?_projection.mpr ⟨hx, hxw, hxseq⟩,
      hb.getElem?_projection.mpr ⟨hy, hyw, hyseq⟩, ?_⟩
    by_contra hne
    rw [Decidable.not_and_iff_or_not] at hne
    exact hagree ⟨x, hx, y, hy, hxw, hyw, hxseq, hxseq.trans hyseq.symm, hne⟩

omit [Sha512 D] [DecidableEq D] in
theorem DivergeAt.disagreeWithin {a b : List (ChainEntry D)} (h : DivergeAt window a b seq) :
    DisagreeWithin window a b := by
  obtain ⟨x, hx, y, hy, hxw, hyw, -, hdiffer⟩ := h
  exact ⟨x, hx, y, hy, hxw, hyw, hdiffer⟩

omit [Sha512 D] in
/-- The scan of a shared span finds the least number where the entries differ. -/
theorem divergeAt_of_firstDivergence {a b : List (ChainEntry D)} (ha : InternallyValid a)
    (hb : InternallyValid b) (hle : lo ≤ hi)
    (hshared : ∀ seq, InRange window a seq ∧ InRange window b seq ↔ lo ≤ seq ∧ seq ≤ hi)
    (h : firstDivergence (projection a window) (projection b window) lo.toNat
      (hi.toNat + 1 - lo.toNat) = some seq) :
    DivergeAt window a b seq ∧ ∀ other, DivergeAt window a b other → seq ≤ other := by
  obtain ⟨k, hstart, hend, rfl, hdiffer, hbefore⟩ := firstDivergence_eq_some h
  have hle' := UInt64.le_iff_toNat_le.mp hle
  have hbound := hi.toNat_lt
  have hk : (UInt64.ofNat k).toNat = k := UInt64.toNat_ofNat_of_lt' (show k < 2 ^ 64 by omega)
  have hin : lo ≤ UInt64.ofNat k ∧ UInt64.ofNat k ≤ hi := by
    rw [UInt64.le_iff_toNat_le, UInt64.le_iff_toNat_le, hk]
    omega
  rw [agreeAt_projection_iff ha hb ((hshared _).mpr hin), not_not] at hdiffer
  refine ⟨hdiffer, fun other hother => UInt64.not_lt.mp fun hlt => ?_⟩
  have hfrom := UInt64.le_iff_toNat_le.mp ((hshared other).mp hother.inRange).1
  rw [UInt64.lt_iff_toNat_lt, hk] at hlt
  have hagree := hbefore other.toNat hfrom hlt
  rw [UInt64.ofNat_toNat] at hagree
  exact (agreeAt_projection_iff ha hb hother.inRange).mp hagree hother

/-! ### What a comparison gives -/

/-- The outcome of a comparison of valid chains holds of them. -/
theorem comparesAs_compareProjections (ha : InternallyValid a.chain)
    (hb : InternallyValid b.chain) : ComparesAs a b (compareProjections a b) := by
  rw [compareProjections]
  cases hwitness : forkedWitness a b with
  | some epoch =>
    obtain ⟨hdiffer, hleast⟩ := forkedWitness_eq_some hwitness
    refine ⟨hdiffer, hleast, ?_⟩
    rw [firstUnder, entriesUnder, List.head?_filter]
    rfl
  | none =>
    have hagree : ∀ epoch, ¬ WitnessesDifferAt a b epoch := by
      intro epoch hdiffer
      have hsome := isSome_forkedWitness_iff.mpr ⟨epoch, hdiffer⟩
      rw [hwitness] at hsome
      cases hsome
    dsimp only
    rcases ha.projection_span (max a.windowFrom b.windowFrom) with
      ⟨hminA, houtA⟩ | ⟨loA, hiA, hminA, hmaxA, hspanA⟩
    · rw [hminA]
      refine ⟨hagree, fun seq hmeet => ?_⟩
      obtain ⟨entry, hentry, hin, -⟩ := ha.inRange_iff.mp hmeet.1
      exact houtA entry hentry hin
    rcases hb.projection_span (max a.windowFrom b.windowFrom) with
      ⟨hminB, houtB⟩ | ⟨loB, hiB, hminB, hmaxB, hspanB⟩
    · rw [hminA, hmaxA, hminB]
      refine ⟨hagree, fun seq hmeet => ?_⟩
      obtain ⟨entry, hentry, hin, -⟩ := hb.inRange_iff.mp hmeet.2
      exact houtB entry hentry hin
    have hshared : ∀ seq, InRange (sharedWindow a b) a.chain seq ∧
        InRange (sharedWindow a b) b.chain seq ↔
        max loA loB ≤ seq ∧ seq ≤ min hiA hiB := by
      intro seq
      rw [sharedWindow, ha.inRange_iff, hb.inRange_iff, hspanA, hspanB, max_le_iff_le_and_le,
        Std.le_min_iff, and_and_and_comm]
    rw [hminA, hmaxA, hminB, hmaxB]
    dsimp only
    split_ifs with hdisjoint
    · refine ⟨hagree, fun seq hmeet => ?_⟩
      obtain ⟨hfrom, hto⟩ := (hshared seq).mp hmeet
      exact absurd (UInt64.le_trans hfrom hto) (UInt64.not_le.mpr hdisjoint)
    · have hle := UInt64.not_lt.mp hdisjoint
      cases hscan : firstDivergence (projection a.chain (max a.windowFrom b.windowFrom))
          (projection b.chain (max a.windowFrom b.windowFrom)) (max loA loB).toNat
          ((min hiA hiB).toNat + 1 - (max loA loB).toNat) with
      | some seq =>
        obtain ⟨hdiverge, hleast⟩ := divergeAt_of_firstDivergence ha hb hle hshared hscan
        exact ⟨hagree, seq, rfl, hdiverge, hleast⟩
      | none =>
        have hsame : ¬ DisagreeWithin (sharedWindow a b) a.chain b.chain := by
          refine (firstDivergence_projection_eq_none_iff ha hb hle fun seq => ?_).mp hscan
          rw [← hshared, ha.inRange_iff, hb.inRange_iff]
        have hshare : AgreeOnShared a b := {
          witnesses := hagree
          meet := ⟨_, (hshared _).mpr ⟨UInt64.le_refl _, hle⟩⟩
          entries := fun seq hdiverge => hsame hdiverge.disagreeWithin }
        -- the rest of the comparison looks at the last numbers only
        dsimp only
        rw [sharedWindow] at hsame
        rw [forkedCommitment_eq_none ha hb hsame]
        obtain ⟨hleA, hleB⟩ := max_le_iff_le_and_le.mp hle
        have htipA := ha.tipSeq_eq (UInt64.le_trans hleA (Std.le_min_iff.mp (UInt64.le_refl _)).1)
          hspanA
        have htipB := hb.tipSeq_eq (UInt64.le_trans hleB (Std.le_min_iff.mp (UInt64.le_refl _)).2)
          hspanB
        cases hlast : compare hiA hiB with
        | eq => exact ⟨hshare, by rw [htipA, htipB, Std.LawfulEqCmp.eq_of_compare hlast]⟩
        | lt => exact ⟨hshare, hiA, hiB, htipA, htipB, .inr ⟨rfl, Std.compare_eq_lt.mp hlast⟩⟩
        | gt => exact ⟨hshare, hiA, hiB, htipA, htipB, .inl ⟨rfl, Std.compare_eq_gt.mp hlast⟩⟩

/-- Comparable checkpoints are compared by what their windows share: the outcome is the one that
holds of them, and the other way round it is the same with the sides exchanged. -/
theorem compareCheckpoints_comparesAs (h : Comparable a b) :
    ∃ result, compareCheckpoints a b = .ok result ∧
      (∀ other, compareCheckpoints a b = .ok other ↔ ComparesAs a b other) ∧
      (∀ atSeq epoch, result ≠ .forked atSeq (.epochCommitment epoch)) ∧
      compareCheckpoints b a = .ok (result.swapped b.chain) := by
  have hholds := comparesAs_compareProjections h.validA h.validB
  refine ⟨_, compareCheckpoints_eq_ok_iff.mpr ⟨h, rfl⟩, fun other => ?_, ?_, ?_⟩
  · rw [compareCheckpoints_eq_ok_iff]
    constructor
    · rintro ⟨-, rfl⟩
      exact hholds
    · intro hother
      exact ⟨h, hholds.unique hother⟩
  · intro atSeq epoch heq
    rw [heq] at hholds
    exact hholds
  · have hswap := comparesAs_compareProjections h.validB h.validA
    exact compareCheckpoints_eq_ok_iff.mpr ⟨h.symm, hswap.unique hholds.swapped⟩

end CompareSpec

section Sample

attribute [local instance] leadingSha512 leadingDigestBytes transparentHash

/-- The entry of a numbered head, whose digests repeat a byte. -/
def numberedEntry (seq epoch : UInt64) : ChainEntry Digest where
  seq := seq
  hash := Vector.replicate 64 seq.toUInt8
  prev := Vector.replicate 64 (seq - 1).toUInt8
  epoch := epoch

/-- The view of a member whose window includes the epochs from `window` on. -/
def windowedView (window : UInt64) (chain : List (ChainEntry Digest)) : RefCheckpoint Digest :=
  let view : RefCheckpoint Digest := ⟨Vector.replicate 32 5, chain, window, ∅, Sha512.zero⟩
  { view with tipBinding := bindCheckpoint view }

def wholeView : RefCheckpoint Digest :=
  windowedView 0 [numberedEntry 1 0, numberedEntry 2 1, numberedEntry 3 1]

def laterView : RefCheckpoint Digest :=
  windowedView 1 [numberedEntry 2 1, numberedEntry 3 1, numberedEntry 4 1, numberedEntry 5 2]

theorem comparable_wholeView_laterView : Comparable wholeView laterView where
  repoId := rfl
  boundA := rfl
  boundB := rfl
  validA := chainInternallyValid_eq_ok_true_iff.mp (by decide +kernel)
  validB := chainInternallyValid_eq_ok_true_iff.mp (by decide +kernel)
  inWindowA := by decide +kernel
  inWindowB := by decide +kernel

theorem comparesAs_laterView : ComparesAs wholeView laterView (.prefixCompatible 'B') := by
  have hwitnesses : ∀ epoch, ¬ WitnessesDifferAt wholeView laterView epoch := by
    rintro epoch ⟨witness, witness', hwitness, -⟩
    have hnone : wholeView.epochWitnesses[epoch]? = none := ExtTreeMap.getElem?_empty
    cases hnone.symm.trans hwitness
  have hsame : ∀ x ∈ wholeView.chain, ∀ y ∈ laterView.chain, x.seq = y.seq →
      x.hash = y.hash ∧ x.epoch = y.epoch := by decide +kernel
  refine ⟨⟨hwitnesses, ⟨2, ?_, ?_⟩, ?_⟩, 3, 5, rfl, rfl, .inr ⟨rfl, by decide⟩⟩
  · exact ⟨numberedEntry 2 1, by decide +kernel, numberedEntry 3 1, by decide +kernel, by decide,
      by decide, by decide, by decide⟩
  · exact ⟨numberedEntry 2 1, by decide +kernel, numberedEntry 3 1, by decide +kernel, by decide,
      by decide, by decide, by decide⟩
  · rintro seq ⟨x, hx, y, hy, -, -, -, hseq, hdiffer⟩
    obtain ⟨hhash, hepoch⟩ := hsame x hx y hy hseq
    exact hdiffer.elim (fun hne => hne hhash) (fun hne => hne hepoch)

/-- A member that has seen three heads from the start and one that has seen five share the two that
the second one's window includes. The second one is ahead, whichever is compared with the other. -/
theorem compareCheckpoints_comparesAs_laterView :
    compareCheckpoints wholeView laterView = .ok (.prefixCompatible 'B') ∧
      compareCheckpoints laterView wholeView = .ok (.prefixCompatible 'A') := by
  obtain ⟨result, hresult, hholds, -, hswapped⟩ :=
    compareCheckpoints_comparesAs comparable_wholeView_laterView
  have hahead := (hholds _).mpr comparesAs_laterView
  obtain rfl := Except.ok.inj (hresult.symm.trans hahead)
  exact ⟨hahead, hswapped⟩

end Sample

end SafeHub
