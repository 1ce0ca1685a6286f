import SafeHub.Crypto.Dkr
import SafeHub.Lib.Run

/-!
# The history of a key regression

After its init a chain advances and is blocked any number of times. Whatever it issued
stays with whoever got it, so what matters is the whole history: every interval is inside
one segment, the segments follow one another without overlap, and each has a seed of its own.

## Main definitions

* `DkrOp`, `DkrHistory.step` — the operations, and what has been issued and drawn
* `DkrHistory.Windowed` — the invariant of a history
* `Compatible` — two intervals are of one segment or of segments apart

## Main results

* `DkrHistory.windowed_of_run` — every run keeps the invariant while its seeds are fresh
* `dkrWindow_safe` — what holders of issued intervals can derive
-/

namespace SafeHub

open Run

theorem dkrSegmentCapacity_pos : 0 < dkrSegmentCapacity := by decide

/-- An operation after the init, with what it may draw. -/
inductive DkrOp (S : Type*)
  | advance (draws : Draws S) (epoch : ℕ)
  | forwardBlock (draw : S) (epoch : ℕ)
  | backwardBlock (draw : S) (epoch : ℕ)
  deriving DecidableEq, Repr

/-- The epoch an operation is called with. -/
def DkrOp.epoch {S : Type*} : DkrOp S → ℕ
  | .advance _ epoch => epoch
  | .forwardBlock _ epoch => epoch
  | .backwardBlock _ epoch => epoch

/-- Whether an advance re-initialises the chain. -/
def IntervalDkr.exhausted {S : Type*} (dkr : IntervalDkr S) (epoch : ℕ) : Bool :=
  decide (dkr.epoch ≤ epoch) && decide (dkrSegmentCapacity < (epoch - dkr.segmentStart) + 1)

/-- Whether an operation starts a new segment: a block does, and so does a re-init. -/
def DkrOp.startsSegment {S : Type*} (dkr : IntervalDkr S) : DkrOp S → Bool
  | .advance _ epoch => dkr.exhausted epoch
  | .forwardBlock _ _ => true
  | .backwardBlock _ _ => true

/-- A chain with all that it has issued and the seeds it has been given, latest first. -/
structure DkrHistory (S : Type*) where
  dkr : IntervalDkr S
  issued : List (DkrInterval S)
  seeds : List S
  deriving DecidableEq, Repr

variable {S K : Type} [SeedKdf S K] [DecidableEq S]

/-- The seeds that an advance draws, latest first. -/
def IntervalDkr.drawn (dkr : IntervalDkr S) (draws : Draws S) (epoch : ℕ) : List S :=
  (if dkr.exhausted epoch then [draws.reinit] else []) ++
    if dkr.seed = SeedKdf.zeroSeed then [draws.seeded] else []

namespace DkrHistory

/-- The history of a chain that has just been initialised. -/
def init (chain : IntervalDkr S) (draw : S) : DkrHistory S :=
  let (dkr, interval) := chain.init draw
  ⟨dkr, [interval], [dkr.seed]⟩

/-- One operation. The callers of a block name an epoch above the current one. -/
def step (h : DkrHistory S) : DkrOp S → Option (DkrHistory S)
  | .advance draws epoch =>
    match h.dkr.advance draws epoch with
    | .ok (dkr, interval) =>
      some ⟨dkr, interval :: h.issued, h.dkr.drawn draws epoch ++ h.seeds⟩
    -- a refused advance has seeded the chain all the same
    | .error _ =>
      some ⟨h.dkr.ensureSeeded draws.seeded, h.issued, h.dkr.drawn draws epoch ++ h.seeds⟩
  | .forwardBlock draw epoch =>
    if h.dkr.epoch < epoch then
      some ⟨h.dkr.forwardBlock draw epoch, h.issued, draw :: h.seeds⟩
    else none
  | .backwardBlock draw epoch =>
    if h.dkr.epoch < epoch then
      let (dkr, interval) := h.dkr.backwardBlock draw epoch
      some ⟨dkr, interval :: h.issued, draw :: h.seeds⟩
    else none

/-- What an operation on a seeded chain does to the history. -/
inductive StepsTo (h : DkrHistory S) (op : DkrOp S) : DkrHistory S → Prop
  /-- The chain is past the epoch. -/
  | refused (hquiet : op.startsSegment h.dkr = false) : StepsTo h op h
  /-- The segment grows. -/
  | extended (hquiet : op.startsSegment h.dkr = false) (hle : h.dkr.epoch ≤ op.epoch)
      (hspan : op.epoch - h.dkr.segmentStart < dkrSegmentCapacity) :
      StepsTo h op ⟨{ h.dkr with
          epoch := op.epoch, segmentEpochs := (op.epoch - h.dkr.segmentStart) + 1 },
        ⟨h.dkr.segmentStart, op.epoch, h.dkr.seed⟩ :: h.issued, h.seeds⟩
  /-- A new segment, and its first interval if one is issued. -/
  | renewed (draw : S) (issued : List (DkrInterval S)) (hstarts : op.startsSegment h.dkr = true)
      (hlt : h.dkr.epoch < op.epoch ∨ h.dkr.epoch ≤ op.epoch ∧
        dkrSegmentCapacity ≤ op.epoch - h.dkr.segmentStart)
      (hissued : issued = h.issued ∨ issued = ⟨op.epoch, op.epoch, draw⟩ :: h.issued) :
      StepsTo h op ⟨h.dkr.newSegment draw op.epoch, issued, draw :: h.seeds⟩

variable {h h' : DkrHistory S} {op : DkrOp S} {ops : List (DkrOp S)} {chain : IntervalDkr S}
variable {draw : S}

theorem stepsTo_of_step (hseed : h.dkr.seed ≠ SeedKdf.zeroSeed) (hstep : h.step op = some h') :
    h.StepsTo op h' := by
  cases op with
  | advance draws epoch =>
    -- a chain with a seed is not seeded again
    have hseeded : h.dkr.ensureSeeded draws.seeded = h.dkr := if_neg hseed
    simp only [step, IntervalDkr.advance, hseeded, IntervalDkr.drawn, if_neg hseed,
      List.append_nil] at hstep
    by_cases hpast : epoch < h.dkr.epoch
    · -- the chain is past the epoch, and the advance is refused
      have hquiet : h.dkr.exhausted epoch = false := by
        simp [IntervalDkr.exhausted, hpast]
      rw [if_pos hpast, hquiet] at hstep
      obtain rfl := Option.some.inj hstep
      exact .refused hquiet
    · by_cases hfull : dkrSegmentCapacity < (epoch - h.dkr.segmentStart) + 1
      · -- the window would be longer than a segment, and the advance re-initialises
        have hstarts : h.dkr.exhausted epoch = true := by
          simp [IntervalDkr.exhausted, not_lt.mp hpast, hfull]
        rw [if_neg hpast, if_pos hfull, hstarts] at hstep
        obtain rfl := Option.some.inj hstep
        exact .renewed draws.reinit _ hstarts
          (.inr ⟨not_lt.mp hpast, Nat.lt_succ_iff.mp hfull⟩) (.inr rfl)
      · have hquiet : h.dkr.exhausted epoch = false := by
          simp [IntervalDkr.exhausted, hfull]
        rw [if_neg hpast, if_neg hfull, hquiet] at hstep
        obtain rfl := Option.some.inj hstep
        exact .extended hquiet (not_lt.mp hpast) (Nat.lt_of_succ_le (not_lt.mp hfull))
  | forwardBlock draw epoch =>
    simp only [step] at hstep
    split_ifs at hstep with hlt
    obtain rfl := Option.some.inj hstep
    exact .renewed draw _ rfl (.inl hlt) (.inl rfl)
  | backwardBlock draw epoch =>
    simp only [step] at hstep
    split_ifs at hstep with hlt
    obtain rfl := Option.some.inj hstep
    exact .renewed draw _ rfl (.inl hlt) (.inr rfl)

/-- Seeds are only ever added. -/
theorem seeds_suffix_of_step (hstep : h.step op = some h') : h.seeds <:+ h'.seeds := by
  cases op with
  | advance draws epoch =>
    simp only [step] at hstep
    split at hstep
    · obtain rfl := Option.some.inj hstep
      exact List.suffix_append _ _
    · obtain rfl := Option.some.inj hstep
      exact List.suffix_append _ _
  | forwardBlock draw epoch =>
    simp only [step] at hstep
    split_ifs at hstep
    obtain rfl := Option.some.inj hstep
    exact List.suffix_cons _ _
  | backwardBlock draw epoch =>
    simp only [step] at hstep
    split_ifs at hstep
    obtain rfl := Option.some.inj hstep
    exact List.suffix_cons _ _

theorem seeds_suffix_of_run (hrun : run step h ops = some h') : h.seeds <:+ h'.seeds :=
  run_invariant (P := fun t => h.seeds <:+ t.seeds)
    (fun _ _ _ ht hstep => ht.trans (seeds_suffix_of_step hstep)) List.suffix_rfl hrun

/-- The seeds of a history are fresh: no two agree and none stands for an unseeded chain. -/
def Fresh (h : DkrHistory S) : Prop := h.seeds.Nodup ∧ SeedKdf.zeroSeed ∉ h.seeds

omit [DecidableEq S] in
theorem Fresh.of_suffix (hfresh : h'.Fresh) (hsuffix : h.seeds <:+ h'.seeds) : h.Fresh :=
  ⟨hfresh.1.sublist hsuffix.sublist, fun hmem => hfresh.2 (hsuffix.subset hmem)⟩

end DkrHistory

/-! ### The invariant -/

/-- Two intervals of one segment start together; those of two segments are apart. -/
structure Compatible {S : Type} (i j : DkrInterval S) : Prop where
  same : i.token = j.token → i.fromEpoch = j.fromEpoch
  apart : i.token ≠ j.token → i.toEpoch < j.fromEpoch ∨ j.toEpoch < i.fromEpoch

namespace Compatible

omit [SeedKdf S K] [DecidableEq S]

variable {i j : DkrInterval S}

theorem refl (i : DkrInterval S) : Compatible i i := ⟨fun _ => rfl, fun hne => absurd rfl hne⟩

theorem symm (h : Compatible i j) : Compatible j i :=
  ⟨fun htoken => (h.same htoken.symm).symm, fun hne => (h.apart hne.symm).symm⟩

/-- An interval can be added to those that it is compatible with. -/
theorem forall_cons {issued : List (DkrInterval S)} (hnew : ∀ j ∈ issued, Compatible i j)
    (hold : ∀ j ∈ issued, ∀ k ∈ issued, Compatible j k) :
    ∀ j ∈ i :: issued, ∀ k ∈ i :: issued, Compatible j k := by
  refine List.forall_mem_cons.mpr ⟨List.forall_mem_cons.mpr ⟨refl i, hnew⟩, fun j hj => ?_⟩
  exact List.forall_mem_cons.mpr ⟨(hnew j hj).symm, hold j hj⟩

end Compatible

namespace DkrHistory

/-- The current segment is nonempty and within the capacity, intervals under its seed start where
it does, and all others ended before it. -/
structure Windowed (h : DkrHistory S) : Prop where
  seed_mem : h.dkr.seed ∈ h.seeds
  start_le : h.dkr.segmentStart ≤ h.dkr.epoch
  span : h.dkr.epoch < h.dkr.segmentStart + dkrSegmentCapacity
  token_mem : ∀ i ∈ h.issued, i.token ∈ h.seeds
  nonempty : ∀ i ∈ h.issued, i.fromEpoch ≤ i.toEpoch
  capacity : ∀ i ∈ h.issued, i.toEpoch < i.fromEpoch + dkrSegmentCapacity
  reached : ∀ i ∈ h.issued, i.toEpoch ≤ h.dkr.epoch
  current : ∀ i ∈ h.issued, i.token = h.dkr.seed → i.fromEpoch = h.dkr.segmentStart
  past : ∀ i ∈ h.issued, i.token ≠ h.dkr.seed → i.toEpoch < h.dkr.segmentStart
  compatible : ∀ i ∈ h.issued, ∀ j ∈ h.issued, Compatible i j

variable {h h' : DkrHistory S} {op : DkrOp S} {ops : List (DkrOp S)} {chain : IntervalDkr S}
variable {draw : S}

theorem windowed_init (chain : IntervalDkr S) (draw : S) : (init chain draw).Windowed where
  seed_mem := List.mem_cons_self
  start_le := le_rfl
  span := Nat.lt_add_of_pos_right dkrSegmentCapacity_pos
  token_mem := List.forall_mem_singleton.mpr List.mem_cons_self
  nonempty := List.forall_mem_singleton.mpr le_rfl
  capacity := List.forall_mem_singleton.mpr (Nat.lt_add_of_pos_right dkrSegmentCapacity_pos)
  reached := List.forall_mem_singleton.mpr le_rfl
  current := List.forall_mem_singleton.mpr fun _ => rfl
  past := List.forall_mem_singleton.mpr fun hne => absurd rfl hne
  compatible := List.forall_mem_singleton.mpr (List.forall_mem_singleton.mpr (.refl _))

omit [DecidableEq S] in
/-- Growing the segment adds an interval that starts with it. -/
theorem Windowed.extend (hw : h.Windowed) {epoch segmentEpochs : ℕ} (hle : h.dkr.epoch ≤ epoch)
    (hspan : epoch - h.dkr.segmentStart < dkrSegmentCapacity) :
    Windowed (⟨{ h.dkr with epoch := epoch, segmentEpochs := segmentEpochs },
      ⟨h.dkr.segmentStart, epoch, h.dkr.seed⟩ :: h.issued, h.seeds⟩ : DkrHistory S) := by
  have hstart : h.dkr.segmentStart ≤ epoch := hw.start_le.trans hle
  have hcap : epoch < h.dkr.segmentStart + dkrSegmentCapacity := by omega
  refine ⟨hw.seed_mem, hstart, hcap, ?_, ?_, ?_, ?_, ?_, ?_, ?_⟩
  · exact List.forall_mem_cons.mpr ⟨hw.seed_mem, hw.token_mem⟩
  · exact List.forall_mem_cons.mpr ⟨hstart, hw.nonempty⟩
  · exact List.forall_mem_cons.mpr ⟨hcap, hw.capacity⟩
  · exact List.forall_mem_cons.mpr ⟨le_rfl, fun i hi => (hw.reached i hi).trans hle⟩
  · exact List.forall_mem_cons.mpr ⟨fun _ => rfl, hw.current⟩
  · exact List.forall_mem_cons.mpr ⟨fun hne => absurd rfl hne, hw.past⟩
  · refine Compatible.forall_cons (fun i hi => ⟨fun htoken => ?_, fun hne => ?_⟩) hw.compatible
    · exact (hw.current i hi htoken.symm).symm
    · exact .inr (hw.past i hi hne.symm)

omit [DecidableEq S] in
/-- A new segment starts above everything issued so far, under a seed that nothing has. -/
theorem Windowed.renew (hw : h.Windowed) {epoch : ℕ} (hlt : h.dkr.epoch < epoch)
    (hdraw : draw ∉ h.seeds) {issued : List (DkrInterval S)}
    (hissued : issued = h.issued ∨ issued = ⟨epoch, epoch, draw⟩ :: h.issued) :
    Windowed (⟨h.dkr.newSegment draw epoch, issued, draw :: h.seeds⟩ : DkrHistory S) := by
  have hother : ∀ i ∈ h.issued, i.token ≠ draw := fun i hi htoken =>
    hdraw (htoken ▸ hw.token_mem i hi)
  have hbelow : ∀ i ∈ h.issued, i.toEpoch < epoch := fun i hi => (hw.reached i hi).trans_lt hlt
  have hcap : epoch < epoch + dkrSegmentCapacity := Nat.lt_add_of_pos_right dkrSegmentCapacity_pos
  -- first with nothing issued, then with the first interval of the segment
  have hold : Windowed (⟨h.dkr.newSegment draw epoch, h.issued, draw :: h.seeds⟩ :
      DkrHistory S) :=
    { seed_mem := List.mem_cons_self
      start_le := le_rfl
      span := hcap
      token_mem := fun i hi => List.mem_cons_of_mem _ (hw.token_mem i hi)
      nonempty := hw.nonempty
      capacity := hw.capacity
      reached := fun i hi => (hbelow i hi).le
      current := fun i hi htoken => absurd htoken (hother i hi)
      past := fun i hi _ => hbelow i hi
      compatible := hw.compatible }
  rcases hissued with rfl | rfl
  · exact hold
  · exact hold.extend le_rfl (by
      change epoch - epoch < dkrSegmentCapacity
      rw [Nat.sub_self]
      exact dkrSegmentCapacity_pos)

omit [DecidableEq S] in
theorem Windowed.seed_ne (hw : h.Windowed) (hfresh : h.Fresh) :
    h.dkr.seed ≠ SeedKdf.zeroSeed := fun hzero => hfresh.2 (hzero ▸ hw.seed_mem)

omit [DecidableEq S] in
/-- A segment is exhausted above the epoch it has reached. -/
theorem Windowed.lt_of_renewed (hw : h.Windowed) {epoch : ℕ}
    (hlt : h.dkr.epoch < epoch ∨ h.dkr.epoch ≤ epoch ∧
      dkrSegmentCapacity ≤ epoch - h.dkr.segmentStart) : h.dkr.epoch < epoch := by
  have hspan := hw.span
  have hpos := dkrSegmentCapacity_pos
  omega

theorem Windowed.step (hw : h.Windowed) (hfresh : h'.Fresh) (hstep : h.step op = some h') :
    h'.Windowed := by
  have hold := hfresh.of_suffix (seeds_suffix_of_step hstep)
  cases stepsTo_of_step (hw.seed_ne hold) hstep with
  | refused => exact hw
  | extended hquiet hle hspan => exact hw.extend hle hspan
  | renewed draw issued hstarts hlt hissued =>
    exact hw.renew (hw.lt_of_renewed hlt) (List.nodup_cons.mp hfresh.1).1 hissued

/-- Every history whose seeds are fresh keeps the invariant. -/
theorem windowed_of_run (hfresh : h.Fresh) (hrun : run step (init chain draw) ops = some h) :
    h.Windowed := by
  -- freshness is assumed of the end of the run and handed down to each of its prefixes
  refine run_induction (P := fun _ t => t.Fresh → t.Windowed) (fun _ => windowed_init chain draw)
    (fun _ t _ u _ ih hstep hfresh => ?_) hrun hfresh
  exact (ih (hfresh.of_suffix (seeds_suffix_of_step hstep))).step hfresh hstep

/-- The current epoch does not decrease in one operation. -/
theorem epoch_le_of_step (hw : h.Windowed) (hfresh : h.Fresh) (hstep : h.step op = some h') :
    h.dkr.epoch ≤ h'.dkr.epoch := by
  cases stepsTo_of_step (hw.seed_ne hfresh) hstep with
  | refused => exact le_rfl
  | extended hquiet hle hspan => exact hle
  | renewed draw issued hstarts hlt hissued => exact (hw.lt_of_renewed hlt).le

theorem epoch_le_of_run (hw : h.Windowed) (hfresh : h'.Fresh) (hrun : run step h ops = some h') :
    h.dkr.epoch ≤ h'.dkr.epoch := by
  refine (run_induction (P := fun _ t => t.Fresh → t.Windowed ∧ h.dkr.epoch ≤ t.dkr.epoch)
    (fun _ => ⟨hw, le_rfl⟩) (fun _ t _ u _ ih hstep hfresh => ?_) hrun hfresh).2
  have hold := hfresh.of_suffix (seeds_suffix_of_step hstep)
  obtain ⟨hwindowed, hle⟩ := ih hold
  exact ⟨hwindowed.step hfresh hstep, hle.trans (epoch_le_of_step hwindowed hold hstep)⟩

/-- An operation that starts a segment is called with an epoch above everything issued. -/
theorem Windowed.lt_of_startsSegment (hw : h.Windowed) (hfresh : h.Fresh)
    (hstep : h.step op = some h') (hstarts : op.startsSegment h.dkr = true) :
    ∀ i ∈ h.issued, i.toEpoch < op.epoch := by
  intro i hi
  refine (hw.reached i hi).trans_lt ?_
  cases stepsTo_of_step (hw.seed_ne hfresh) hstep with
  | refused hquiet => exact absurd hstarts (by rw [hquiet]; exact Bool.false_ne_true)
  | extended hquiet => exact absurd hstarts (by rw [hquiet]; exact Bool.false_ne_true)
  | renewed draw issued _ hlt hissued => exact hw.lt_of_renewed hlt

end DkrHistory

/-! ### What the intervals derive -/

/-- Compatible intervals derive at most one key for an epoch. -/
theorem Compatible.key_unique {i j : DkrInterval S} (hij : Compatible i j) {epoch : ℕ}
    {key key' : K} (hi : deriveEpochKey i epoch = .ok key)
    (hj : deriveEpochKey j epoch = .ok key') : key = key' := by
  obtain ⟨hifrom, hito, rfl⟩ := deriveEpochKey_eq_ok_iff.mp hi
  obtain ⟨hjfrom, hjto, rfl⟩ := deriveEpochKey_eq_ok_iff.mp hj
  by_cases htoken : i.token = j.token
  · rw [htoken]
  · rcases hij.apart htoken with hlt | hlt <;> omega

omit [DecidableEq S] in
theorem deriveEpochKey_ne_ok_of_lt {i : DkrInterval S} {epoch : ℕ} (hlt : i.toEpoch < epoch)
    (key : K) : deriveEpochKey i epoch ≠ .ok key := by
  intro h
  have hle := (deriveEpochKey_eq_ok_iff.mp h).2.1
  omega

/-- Over a whole history the windows are nonempty, within the capacity and, for different tokens,
disjoint; the epoch never decreases; no epoch has two keys; and what was issued before a new
segment derives no key of the segment or of a later one. -/
theorem dkrWindow_safe (chain : IntervalDkr S) (draw : S) (ops : List (DkrOp S)) (h : DkrHistory S)
    (hrun : run DkrHistory.step (.init chain draw) ops = some h) (hdistinct : h.seeds.Nodup)
    (hnonzero : SeedKdf.zeroSeed ∉ h.seeds) :
    (∀ i ∈ h.issued, i.fromEpoch ≤ i.toEpoch ∧
      i.toEpoch - i.fromEpoch + 1 ≤ dkrSegmentCapacity) ∧
    (∀ front back mid, ops = front ++ back →
      run DkrHistory.step (.init chain draw) front = some mid → mid.dkr.epoch ≤ h.dkr.epoch) ∧
    (∀ i ∈ h.issued, ∀ j ∈ h.issued,
      (i.token ≠ j.token → i.toEpoch < j.fromEpoch ∨ j.toEpoch < i.fromEpoch) ∧
      (i.token = j.token → i.fromEpoch = j.fromEpoch)) ∧
    (∀ i ∈ h.issued, ∀ j ∈ h.issued, ∀ epoch key key', deriveEpochKey i epoch = .ok key →
      deriveEpochKey j epoch = .ok key' → key = key') ∧
    ∀ front op back mid, ops = front ++ op :: back →
      run DkrHistory.step (.init chain draw) front = some mid →
      op.startsSegment mid.dkr = true →
      ∀ i ∈ mid.issued, ∀ last epoch key, op.epoch ≤ epoch →
        deriveEpochKey i epoch ≠ .ok key ∧ deriveEpochKey (capInterval i last) epoch ≠ .ok key := by
  have hfresh : h.Fresh := ⟨hdistinct, hnonzero⟩
  have hw := DkrHistory.windowed_of_run hfresh hrun
  refine ⟨fun i hi => ?_, ?_, fun i hi j hj => ?_, fun i hi j hj _ _ _ => ?_, ?_⟩
  · have hcap := hw.capacity i hi
    have hpos := dkrSegmentCapacity_pos
    exact ⟨hw.nonempty i hi, by omega⟩
  · rintro front back mid rfl hfront
    obtain ⟨t, ht, hback⟩ := run_append_eq_some.mp hrun
    obtain rfl := Option.some.inj (hfront.symm.trans ht)
    have hmid := DkrHistory.windowed_of_run
      (hfresh.of_suffix (DkrHistory.seeds_suffix_of_run hback)) hfront
    exact DkrHistory.epoch_le_of_run hmid hfresh hback
  · exact ⟨(hw.compatible i hi j hj).apart, (hw.compatible i hi j hj).same⟩
  · exact (hw.compatible i hi j hj).key_unique
  · rintro front op back mid rfl hfront hstarts i hi last epoch key hle
    obtain ⟨t, ht, hback⟩ := run_append_eq_some.mp hrun
    obtain rfl := Option.some.inj (hfront.symm.trans ht)
    obtain ⟨next, hstep, -⟩ := run_cons_eq_some.mp hback
    have hold := hfresh.of_suffix (DkrHistory.seeds_suffix_of_run hback)
    have hlt := (DkrHistory.windowed_of_run hold hfront).lt_of_startsSegment hold hstep hstarts i hi
    refine ⟨deriveEpochKey_ne_ok_of_lt (by omega) key, deriveEpochKey_ne_ok_of_lt ?_ key⟩
    -- capping only lowers the end
    change min last i.toEpoch < epoch
    omega

section Sample

/-- Seeds that are numbers, expanded to themselves under the info string. -/
local instance : SeedKdf ℕ (ℕ × Bytes) where
  expand seed info := (seed, info)
  zeroSeed := 0

/-- A join at epoch 6, a removal at epoch 9, a refused advance, and an advance past the end of
the segment. -/
def sampleDkrOps : List (DkrOp ℕ) :=
  [.advance ⟨8, 8⟩ 5, .backwardBlock 2 6, .advance ⟨8, 8⟩ 7, .forwardBlock 3 9, .advance ⟨8, 8⟩ 3,
    .advance ⟨8, 4⟩ (9 + 2 ^ 20)]

/-- What is issued and drawn on the way. -/
def sampleDkrHistory : DkrHistory ℕ where
  dkr := ⟨4, 9 + 2 ^ 20, 9 + 2 ^ 20, 0, 3⟩
  issued := [⟨9 + 2 ^ 20, 9 + 2 ^ 20, 4⟩, ⟨6, 7, 2⟩, ⟨6, 6, 2⟩, ⟨0, 5, 1⟩, ⟨0, 0, 1⟩]
  seeds := [4, 3, 2, 1]

/-- No epoch has two keys in that history. -/
theorem dkrWindow_safe_sample :
    run DkrHistory.step (.init (IntervalDkr.withSeed 0) 1) sampleDkrOps = some sampleDkrHistory ∧
      ∀ i ∈ sampleDkrHistory.issued, ∀ j ∈ sampleDkrHistory.issued,
        ∀ (epoch : ℕ) (key key' : ℕ × Bytes), deriveEpochKey i epoch = .ok key →
          deriveEpochKey j epoch = .ok key' → key = key' := by
  have hrun : run DkrHistory.step (.init (IntervalDkr.withSeed 0) 1) sampleDkrOps =
      some sampleDkrHistory := by decide +kernel
  exact ⟨hrun, (dkrWindow_safe (IntervalDkr.withSeed 0) 1 sampleDkrOps sampleDkrHistory hrun
    (by decide) (by decide)).2.2.2.1⟩

end Sample

end SafeHub
