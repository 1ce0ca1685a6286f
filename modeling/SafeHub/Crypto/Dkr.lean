import SafeHub.Crypto.MlDsa

/-!
# Dual key regression

Interval tokens unlock epoch keys inside a window. A segment has one seed and
spans at most `dkrSegmentCapacity` epochs; forward and backward blocks, and an
exhausted segment, start a new one under fresh randomness. Random bytes are
arguments here: every operation is given what it may draw.

## Main definitions

* `SeedKdf` — expansion of a segment seed
* `IntervalDkr` — the progression with its segment boundaries
* `deriveEpochKey` — the key of an epoch inside an interval

## Main results

* `advance_withSeed_of_lt`, `advance_withSeed_of_le` — advancing a chain with an explicit seed
* `advance_withSeed_token` — where the token it returns comes from
* `deriveEpochKey_eq_ok_iff` — an interval derives exactly the keys of its window
-/

namespace SafeHub

/-- HKDF-SHA-512 over seeds of type `S`, with 32-byte keys of type `K`. -/
class SeedKdf (S : Type*) (K : outParam Type*) where
  /-- Expand a seed to a key under an info string. -/
  expand : S → (info : Bytes) → K
  /-- The all-zero seed, which stands for an unseeded chain. -/
  zeroSeed : S

/-- Interval capability: derive the keys of the epochs from `fromEpoch` to `toEpoch`. -/
structure DkrInterval (S : Type*) where
  /-- Inclusive start epoch. -/
  fromEpoch : ℕ
  /-- Inclusive end epoch. -/
  toEpoch : ℕ
  /-- The seed of the segment. -/
  token : S
  deriving DecidableEq, Repr

/-- Segment capacity `N = 2 ^ 20`. -/
def dkrSegmentCapacity : ℕ := 2 ^ 20

/-- The fresh seeds that advancing may draw: one when the chain has no seed yet,
one when its segment is exhausted. -/
structure Draws (S : Type*) where
  seeded : S
  reinit : S
  deriving DecidableEq, Repr

/-- Interval DKR with forward and backward segment boundaries. -/
structure IntervalDkr (S : Type*) where
  seed : S
  epoch : ℕ
  /-- Start of the current segment. -/
  segmentStart : ℕ
  /-- Epochs consumed in the current segment. -/
  segmentEpochs : ℕ
  /-- Generation counter, incremented when a new segment starts. -/
  segmentGen : ℕ
  deriving DecidableEq, Repr

/-- A generation counter that saturates like a 64-bit word. -/
def nextSegmentGen (gen : ℕ) : ℕ := min (gen + 1) (2 ^ 64 - 1)

/-- The info string of an epoch's key. -/
def dkrEpochInfo (epoch : ℕ) : Bytes := labelBytes s!"dkr-epoch:{epoch}"

variable {S K : Type*} [SeedKdf S K] [DecidableEq S]

namespace IntervalDkr

/-- Construct with an explicit seed. -/
def withSeed (seed : S) : IntervalDkr S := ⟨seed, 0, 0, 0, 0⟩

/-- Draw a seed if there is none. -/
def ensureSeeded (dkr : IntervalDkr S) (draw : S) : IntervalDkr S :=
  if dkr.seed = SeedKdf.zeroSeed then { dkr with seed := draw } else dkr

/-- The full-access interval of the current segment. -/
def currentInterval (dkr : IntervalDkr S) : DkrInterval S :=
  ⟨dkr.segmentStart, dkr.epoch, dkr.seed⟩

/-- Start a new segment at `epoch` under a fresh seed. -/
def newSegment (dkr : IntervalDkr S) (draw : S) (epoch : ℕ) : IntervalDkr S :=
  ⟨draw, epoch, epoch, 0, nextSegmentGen dkr.segmentGen⟩

/-- Re-init at segment exhaustion. -/
def reinitSegment (dkr : IntervalDkr S) (draw : S) (epoch : ℕ) :
    IntervalDkr S × DkrInterval S :=
  let dkr := dkr.newSegment draw epoch
  (dkr, dkr.currentInterval)

/-- Seed a fresh chain at epoch 0. -/
def init (dkr : IntervalDkr S) (draw : S) : IntervalDkr S × DkrInterval S :=
  let dkr := ⟨(dkr.ensureSeeded draw).seed, 0, 0, 0, 0⟩
  (dkr, dkr.currentInterval)

/-- Advance to `epoch`, re-initialising when the segment would exceed its capacity. -/
def advance (dkr : IntervalDkr S) (draws : Draws S) (epoch : ℕ) :
    Except CryptoError (IntervalDkr S × DkrInterval S) :=
  let dkr := dkr.ensureSeeded draws.seeded
  if epoch < dkr.epoch then
    .error (.epochOutOfWindow epoch dkr.segmentStart dkr.epoch)
  else
    let delta := (epoch - dkr.segmentStart) + 1
    if dkrSegmentCapacity < delta then
      .ok (dkr.reinitSegment draws.reinit epoch)
    else
      let dkr := { dkr with epoch := epoch, segmentEpochs := delta }
      .ok (dkr, dkr.currentInterval)

/-- Insert a forward block after a removal. -/
def forwardBlock (dkr : IntervalDkr S) (draw : S) (epoch : ℕ) : IntervalDkr S :=
  dkr.newSegment draw epoch

/-- Insert a backward block for a forward-only join at `epoch`. -/
def backwardBlock (dkr : IntervalDkr S) (draw : S) (epoch : ℕ) :
    IntervalDkr S × DkrInterval S :=
  let dkr := dkr.newSegment draw epoch
  (dkr, dkr.currentInterval)

end IntervalDkr

/-- Derive the key of `epoch` from an interval token. -/
def deriveEpochKey (interval : DkrInterval S) (epoch : ℕ) : Except CryptoError K :=
  if epoch < interval.fromEpoch ∨ interval.toEpoch < epoch then
    .error (.epochOutOfWindow epoch interval.fromEpoch interval.toEpoch)
  else
    .ok (SeedKdf.expand interval.token (dkrEpochInfo epoch))

/-- Cap an issued interval at `last`. -/
def capInterval (interval : DkrInterval S) (last : ℕ) : DkrInterval S :=
  { interval with toEpoch := min last interval.toEpoch }

/-! ### What the operations return -/

omit [DecidableEq S] in
/-- An interval derives exactly the keys of its window. -/
theorem deriveEpochKey_eq_ok_iff {interval : DkrInterval S} {epoch : ℕ} {key : K} :
    deriveEpochKey interval epoch = .ok key ↔
      interval.fromEpoch ≤ epoch ∧ epoch ≤ interval.toEpoch ∧
        SeedKdf.expand interval.token (dkrEpochInfo epoch) = key := by
  rw [deriveEpochKey]
  split_ifs with hout
  · exact iff_of_false nofun fun ⟨hlo, hhi, _⟩ => by omega
  · rw [Except.ok.injEq]
    exact ⟨fun hkey => ⟨by omega, by omega, hkey⟩, fun h => h.2.2⟩

theorem ensureSeeded_withSeed (seed draw : S) :
    (IntervalDkr.withSeed seed).ensureSeeded draw =
      IntervalDkr.withSeed (if seed = SeedKdf.zeroSeed then draw else seed) := by
  rw [IntervalDkr.ensureSeeded, apply_ite IntervalDkr.withSeed]
  rfl

/-- Within the capacity of the first segment, a seeded chain returns its own seed. -/
theorem advance_withSeed_of_lt {seed : S} (hseed : seed ≠ SeedKdf.zeroSeed) (draws : Draws S)
    {epoch : ℕ} (hlt : epoch < dkrSegmentCapacity) :
    (IntervalDkr.withSeed seed).advance draws epoch =
      .ok (⟨seed, epoch, 0, epoch + 1, 0⟩, ⟨0, epoch, seed⟩) := by
  have hdelta : ¬ dkrSegmentCapacity < epoch - 0 + 1 := by omega
  rw [IntervalDkr.advance, ensureSeeded_withSeed, if_neg hseed]
  exact (if_neg (Nat.not_lt_zero epoch)).trans (if_neg hdelta)

/-- From the capacity on, advancing a chain returns a fresh token for one epoch. -/
theorem advance_withSeed_of_le (seed : S) (draws : Draws S) {epoch : ℕ}
    (hle : dkrSegmentCapacity ≤ epoch) :
    (IntervalDkr.withSeed seed).advance draws epoch =
      .ok (⟨draws.reinit, epoch, epoch, 0, nextSegmentGen 0⟩, ⟨epoch, epoch, draws.reinit⟩) := by
  have hdelta : dkrSegmentCapacity < epoch - 0 + 1 := by omega
  rw [IntervalDkr.advance, ensureSeeded_withSeed]
  exact (if_neg (Nat.not_lt_zero epoch)).trans (if_pos hdelta)

/-- Whatever interval advancing returns, its token is the seed of the chain or was
drawn just now. -/
theorem advance_withSeed_token {seed : S} {draws : Draws S} {epoch : ℕ} {dkr : IntervalDkr S}
    {interval : DkrInterval S}
    (h : (IntervalDkr.withSeed seed).advance draws epoch = .ok (dkr, interval)) :
    interval.token = seed ∨ interval.token = draws.seeded ∨ interval.token = draws.reinit := by
  rw [IntervalDkr.advance, ensureSeeded_withSeed] at h
  change (if epoch < 0 then _ else _) = _ at h
  rw [if_neg (Nat.not_lt_zero epoch)] at h
  change (if dkrSegmentCapacity < epoch - 0 + 1 then Except.ok _ else Except.ok _) = _ at h
  rw [← apply_ite Except.ok, Except.ok.injEq] at h
  by_cases hcap : dkrSegmentCapacity < epoch - 0 + 1
  · rw [if_pos hcap] at h
    obtain ⟨-, rfl⟩ := Prod.mk.inj h
    exact .inr (.inr rfl)
  · rw [if_neg hcap] at h
    obtain ⟨-, rfl⟩ := Prod.mk.inj h
    by_cases hzero : seed = SeedKdf.zeroSeed
    · exact .inr (.inl (if_pos hzero))
    · exact .inl (if_neg hzero)

end SafeHub
