import SafeHub.Client.Error
import SafeHub.Crypto.Dkr
import Std.Data.ExtTreeMap.Lemmas

/-!
# Epoch material

What a device keeps of the group's secrets: the exports of its current epoch, the
token of its window, and the seeds and MAC keys of epochs already superseded. The
epoch key of the current epoch comes from the token, the keys of earlier epochs
come from the retained transport seeds.

## Main definitions

* `EpochMaterial` — the persisted material
* `EpochMaterial.inherit` — carrying retained seeds over to the next material
* `EpochMaterial.refsMacAt`, `EpochMaterial.epochKeyAt` — the keys of an epoch

## Main results

* `epochKeyAt_eq_ok` — what a derived key is expanded from
* `epochKeyAt_current`, `epochKeyAt_prior` — the keys within the first segment
* `epochKeyAt_error_of_capacity` — earlier epochs are out of reach beyond it
-/

namespace SafeHub

open Std (ExtTreeMap)

/-- A byte vector meant to hold a seed: `none` when its length is wrong. -/
abbrev SeedVec (S : Type*) := Option S

/-- Exporter material of one repository. -/
structure EpochMaterial (S K : Type*) where
  /-- MLS epoch at export time. -/
  epoch : ℕ
  /-- The transport export, which seeds key regression. -/
  transport : S
  /-- The refs export: the MAC key of epoch tags. -/
  refsMac : K
  /-- Inclusive start of the history window. -/
  historyFrom : ℕ
  /-- Interval token of this member's window. -/
  dkrToken : SeedVec S
  /-- Transport seeds of superseded epochs. -/
  priorTransport : ExtTreeMap ℕ (SeedVec S) compare
  /-- MAC keys of superseded epochs. -/
  priorRefsMac : ExtTreeMap ℕ K compare

namespace EpochMaterial

variable {S K : Type*}

/-- Carry the seeds of `previous` forward so its epoch stays decryptable. -/
def inherit (material : EpochMaterial S K) (previous : Option (EpochMaterial S K)) :
    EpochMaterial S K :=
  match previous with
  | none => material
  | some prev =>
    if prev.epoch = material.epoch then
      { material with
        priorTransport := prev.priorTransport
        priorRefsMac := prev.priorRefsMac }
    else
      { material with
        priorTransport := prev.priorTransport.insert prev.epoch (some prev.transport)
        priorRefsMac := prev.priorRefsMac.insert prev.epoch prev.refsMac }

/-- The MAC key of `epoch`, falling back to the retained keys. -/
def refsMacAt (material : EpochMaterial S K) (epoch : ℕ) : Option K :=
  if epoch = material.epoch then some material.refsMac else material.priorRefsMac[epoch]?

/-- The seed of the current window: the token, or the transport export when the
token has the wrong length. -/
def intervalSeed (material : EpochMaterial S K) : S := material.dkrToken.getD material.transport

/-- The seed that the key of `epoch` is derived from. -/
def seedAt (material : EpochMaterial S K) (epoch : ℕ) : Except ClientError S :=
  if epoch = material.epoch then
    .ok material.intervalSeed
  else
    match material.priorTransport[epoch]? with
    | none => .error (.other (s!"no retained transport seed for epoch {epoch} " ++
        s!"(window starts at {material.historyFrom})"))
    | some none => .error (.other s!"corrupt prior transport seed for epoch {epoch}")
    | some (some prior) => .ok prior

variable [SeedKdf S K] [DecidableEq S]

/-- Report an error of the crypto layer as a client error. -/
def orCrypto {α : Type*} : Except CryptoError α → Except ClientError α
  | .ok a => .ok a
  | .error e => .error (.crypto e)

/-- Derive the epoch key of an epoch inside the granted window. -/
def epochKeyAt (material : EpochMaterial S K) (draws : Draws S) (epoch : ℕ) :
    Except ClientError K :=
  if epoch < material.historyFrom then
    .error (.other s!"epoch {epoch} before history grant {material.historyFrom}")
  else
    match material.seedAt epoch with
    | .error e => .error e
    | .ok seed =>
      match (IntervalDkr.withSeed seed).advance draws (max material.epoch epoch) with
      | .error e => .error (.crypto e)
      | .ok (_, interval) =>
        let capped :=
          if 0 < material.historyFrom then
            { interval with fromEpoch := material.historyFrom }
          else
            interval
        orCrypto (deriveEpochKey capped epoch)

/-- The epoch key of the material's own epoch. -/
def epochKey (material : EpochMaterial S K) (draws : Draws S) : Except ClientError K :=
  material.epochKeyAt draws material.epoch

end EpochMaterial

/-! ### The keys of an epoch -/

namespace EpochMaterial

variable {S K : Type*} {material : EpochMaterial S K} {epoch : ℕ} {seed : S}

@[simp] theorem inherit_none : material.inherit none = material := rfl

/-- Inheriting replaces nothing but the retained seeds. -/
@[simp] theorem inherit_epoch {previous} : (material.inherit previous).epoch = material.epoch := by
  cases previous with
  | none => rfl
  | some prev => rw [inherit]; split_ifs <;> rfl

@[simp] theorem inherit_transport {previous} :
    (material.inherit previous).transport = material.transport := by
  cases previous with
  | none => rfl
  | some prev => rw [inherit]; split_ifs <;> rfl

@[simp] theorem inherit_refsMac {previous} :
    (material.inherit previous).refsMac = material.refsMac := by
  cases previous with
  | none => rfl
  | some prev => rw [inherit]; split_ifs <;> rfl

@[simp] theorem inherit_historyFrom {previous} :
    (material.inherit previous).historyFrom = material.historyFrom := by
  cases previous with
  | none => rfl
  | some prev => rw [inherit]; split_ifs <;> rfl

@[simp] theorem inherit_dkrToken {previous} :
    (material.inherit previous).dkrToken = material.dkrToken := by
  cases previous with
  | none => rfl
  | some prev => rw [inherit]; split_ifs <;> rfl

/-- After a move to another epoch the previous transport seed is retained, and
every seed retained before it still is. -/
theorem inherit_priorTransport_getElem? {prev : EpochMaterial S K}
    (hmoved : prev.epoch ≠ material.epoch) :
    (material.inherit (some prev)).priorTransport[epoch]? =
      if prev.epoch = epoch then some (some prev.transport) else prev.priorTransport[epoch]? := by
  rw [inherit, if_neg hmoved, ExtTreeMap.getElem?_insert]
  simp only [compare_eq_iff_eq]

theorem inherit_priorRefsMac_getElem? {prev : EpochMaterial S K}
    (hmoved : prev.epoch ≠ material.epoch) :
    (material.inherit (some prev)).priorRefsMac[epoch]? =
      if prev.epoch = epoch then some prev.refsMac else prev.priorRefsMac[epoch]? := by
  rw [inherit, if_neg hmoved, ExtTreeMap.getElem?_insert]
  simp only [compare_eq_iff_eq]

theorem seedAt_self : material.seedAt material.epoch = .ok material.intervalSeed := if_pos rfl

theorem seedAt_of_ne (hne : epoch ≠ material.epoch) :
    material.seedAt epoch = .ok seed ↔ material.priorTransport[epoch]? = some (some seed) := by
  rw [seedAt, if_neg hne]
  split
  · next hnone => simp [hnone]
  · next hcorrupt => simp [hcorrupt]
  · next prior hprior => simp [hprior]

variable [SeedKdf S K] [DecidableEq S] {draws : Draws S}

/-- Within the first segment, the key of an epoch is expanded from its seed. -/
theorem epochKeyAt_of_seedAt (hwindow : material.historyFrom ≤ epoch)
    (hcap : max material.epoch epoch < dkrSegmentCapacity)
    (hseed : material.seedAt epoch = .ok seed) (hzero : seed ≠ SeedKdf.zeroSeed) :
    material.epochKeyAt draws epoch = .ok (SeedKdf.expand seed (dkrEpochInfo epoch)) := by
  have hderive : ∀ lo, lo ≤ epoch →
      deriveEpochKey (⟨lo, max material.epoch epoch, seed⟩ : DkrInterval S) epoch =
        .ok (SeedKdf.expand seed (dkrEpochInfo epoch)) := fun lo hlo =>
    deriveEpochKey_eq_ok_iff.mpr ⟨hlo, le_max_right _ _, rfl⟩
  rw [epochKeyAt, if_neg (Nat.not_lt.mpr hwindow), hseed]
  simp only [advance_withSeed_of_lt hzero draws hcap]
  split_ifs with hgrant
  · rw [hderive _ hwindow]
    rfl
  · rw [hderive _ (Nat.zero_le _)]
    rfl

omit [DecidableEq S] in
/-- A key that is derived is expanded from the token of the window. -/
theorem orCrypto_deriveEpochKey_eq_ok {interval : DkrInterval S} {key : K}
    (h : orCrypto (deriveEpochKey interval epoch) = .ok key) :
    key = SeedKdf.expand interval.token (dkrEpochInfo epoch) := by
  cases hderive : deriveEpochKey interval epoch with
  | error e =>
    rw [hderive] at h
    cases h
  | ok derived =>
    rw [hderive] at h
    obtain rfl := Except.ok.inj h
    exact (deriveEpochKey_eq_ok_iff.mp hderive).2.2.symm

/-- A derived key lies in the window and is expanded from the epoch's seed, or from
random bytes drawn for it. -/
theorem epochKeyAt_eq_ok {key : K} (h : material.epochKeyAt draws epoch = .ok key) :
    material.historyFrom ≤ epoch ∧ ∃ seed token, material.seedAt epoch = .ok seed ∧
      (token = seed ∨ token = draws.seeded ∨ token = draws.reinit) ∧
      key = SeedKdf.expand token (dkrEpochInfo epoch) := by
  by_cases hwindow : epoch < material.historyFrom
  · rw [epochKeyAt, if_pos hwindow] at h
    cases h
  rw [epochKeyAt, if_neg hwindow] at h
  refine ⟨Nat.not_lt.mp hwindow, ?_⟩
  cases hseed : material.seedAt epoch with
  | error e =>
    rw [hseed] at h
    cases h
  | ok seed =>
    rw [hseed] at h
    cases hadvance : (IntervalDkr.withSeed seed).advance draws (max material.epoch epoch) with
    | error e =>
      simp only [hadvance] at h
      cases h
    | ok out =>
      obtain ⟨dkr, interval⟩ := out
      simp only [hadvance] at h
      refine ⟨seed, interval.token, rfl, advance_withSeed_token hadvance, ?_⟩
      -- capped or not, the interval carries the token that was drawn
      split_ifs at h with hgrant
      · have hkey := orCrypto_deriveEpochKey_eq_ok h
        exact hkey
      · exact orCrypto_deriveEpochKey_eq_ok h

/-- The key of the current epoch comes from the window's token. -/
theorem epochKeyAt_current (hwindow : material.historyFrom ≤ material.epoch)
    (hcap : material.epoch < dkrSegmentCapacity)
    (hzero : material.intervalSeed ≠ SeedKdf.zeroSeed) :
    material.epochKeyAt draws material.epoch =
      .ok (SeedKdf.expand material.intervalSeed (dkrEpochInfo material.epoch)) :=
  epochKeyAt_of_seedAt hwindow (by rwa [max_self]) seedAt_self hzero

/-- The key of an earlier epoch comes from its retained transport seed. -/
theorem epochKeyAt_prior (hwindow : material.historyFrom ≤ epoch) (hlt : epoch < material.epoch)
    (hcap : material.epoch < dkrSegmentCapacity)
    (hprior : material.priorTransport[epoch]? = some (some seed))
    (hzero : seed ≠ SeedKdf.zeroSeed) :
    material.epochKeyAt draws epoch = .ok (SeedKdf.expand seed (dkrEpochInfo epoch)) :=
  epochKeyAt_of_seedAt hwindow (by rw [max_eq_left hlt.le]; exact hcap)
    ((seedAt_of_ne hlt.ne).mpr hprior) hzero

/-- Beyond the first segment, the key of the current epoch is drawn anew every time. -/
theorem epochKeyAt_current_of_capacity (hwindow : material.historyFrom ≤ material.epoch)
    (hcap : dkrSegmentCapacity ≤ material.epoch) :
    material.epochKeyAt draws material.epoch =
      .ok (SeedKdf.expand draws.reinit (dkrEpochInfo material.epoch)) := by
  have hderive : ∀ lo, lo ≤ material.epoch →
      deriveEpochKey (⟨lo, material.epoch, draws.reinit⟩ : DkrInterval S) material.epoch =
        .ok (SeedKdf.expand draws.reinit (dkrEpochInfo material.epoch)) := fun lo hlo =>
    deriveEpochKey_eq_ok_iff.mpr ⟨hlo, le_rfl, rfl⟩
  rw [epochKeyAt, if_neg (Nat.not_lt.mpr hwindow), seedAt_self, max_self]
  simp only [advance_withSeed_of_le _ draws hcap]
  split_ifs with hgrant
  · rw [hderive _ hwindow]
    rfl
  · rw [hderive _ le_rfl]
    rfl

/-- Beyond the first segment, a full-history member derives no earlier key. -/
theorem epochKeyAt_error_of_capacity (hfull : material.historyFrom = 0)
    (hlt : epoch < material.epoch) (hcap : dkrSegmentCapacity ≤ material.epoch) (key : K) :
    material.epochKeyAt draws epoch ≠ .ok key := by
  intro hkey
  rw [epochKeyAt, hfull, if_neg (Nat.not_lt_zero epoch)] at hkey
  split at hkey
  · cases hkey
  · next seed _ =>
    -- the segment starts at the current epoch, so the window is that epoch alone
    rw [max_eq_left hlt.le, advance_withSeed_of_le seed draws hcap] at hkey
    simp only [lt_irrefl, if_false] at hkey
    rw [deriveEpochKey, if_pos (.inl hlt)] at hkey
    cases hkey

end EpochMaterial

end SafeHub
