import Mathlib.Data.Finset.Insert
import Mathlib.Data.List.ReduceOption
import SafeHub.Lib.FixedWidth

/-!
# Sender ratchets

Every sender of a group has a chain of secrets, one for each generation of its messages. The key
of a generation is derived from its secret, and so is the secret of the next one. A receiver
derives keys as messages arrive: it moves the chain to the generation of a message that is not
behind it and keeps the keys it has passed, the latest ones only. A key leaves the ratchet when it
is handed out.

## Main definitions

* `RatchetSecret`, `ratchetForward` — the head of a chain
* `DecryptionRatchet`, `secretForDecryption` — the receiver's side
* `chainKey` — the key of a generation
* `Window` — which generations a receiver can still open

## Main results

* `answers_eq_window` — a ratchet hands out the keys of its window
* `handedOut_nodup` — it hands out no key twice
-/

namespace SafeHub

open FixedWidth

/-- The key derivation of a ciphersuite, with the lengths of what is derived. -/
class TreeKdf (S : Type*) where
  /-- `kdf_expand_label` -/
  expandLabel : S → (label : String) → (context : Bytes) → (length : ℕ) → S
  aeadNonceLength : ℕ
  aeadKeyLength : ℕ
  hashLength : ℕ

/-- Why a secret is not given. -/
inductive SecretTreeError
  | tooDistantInThePast
  | tooDistantInTheFuture
  | indexOutOfBounds
  | secretReuseError
  | ratchetTypeError
  | ratchetTooLong
  | libraryError
  deriving DecidableEq, Repr

/-- How far messages may come out of order. -/
structure SenderRatchetConfiguration where
  /-- For how many generations behind the head keys are kept. -/
  outOfOrderTolerance : ℕ
  /-- How many generations can be skipped. -/
  maximumForwardDistance : ℕ
  deriving DecidableEq, Repr

/-- `u32::MAX` -/
def maxGeneration : ℕ := 2 ^ 32 - 1

section Ratchets

variable {S : Type*} [TreeKdf S]

/-- A key and a nonce. -/
structure RatchetKeyMaterial (S : Type*) where
  key : S
  nonce : S
  deriving DecidableEq, Repr

/-- Derive a secret for a generation. -/
def deriveTreeSecret (secret : S) (label : String) (generation length : ℕ) : S :=
  TreeKdf.expandLabel secret label (beBytes 4 generation) length

/-- The head of a chain. -/
structure RatchetSecret (S : Type*) where
  secret : S
  generation : ℕ
  deriving DecidableEq, Repr

namespace RatchetSecret

def initialRatchetSecret (secret : S) : RatchetSecret S := ⟨secret, 0⟩

/-- The key of the current generation, and the head of the next one. -/
def ratchetForward (ratchet : RatchetSecret S) :
    Except SecretTreeError ((ℕ × RatchetKeyMaterial S) × RatchetSecret S) :=
  if ratchet.generation = maxGeneration then .error .ratchetTooLong
  else
    let nonce :=
      deriveTreeSecret ratchet.secret "nonce" ratchet.generation (TreeKdf.aeadNonceLength S)
    let key := deriveTreeSecret ratchet.secret "key" ratchet.generation (TreeKdf.aeadKeyLength S)
    let secret := deriveTreeSecret ratchet.secret "secret" ratchet.generation (TreeKdf.hashLength S)
    .ok ((ratchet.generation, ⟨key, nonce⟩), ⟨secret, ratchet.generation + 1⟩)

end RatchetSecret

/-- A ratchet for the messages of another member. -/
structure DecryptionRatchet (S : Type*) where
  /-- The keys behind the head, the latest one first, without those that were handed out. -/
  pastSecrets : List (Option (RatchetKeyMaterial S))
  ratchetHead : RatchetSecret S
  deriving DecidableEq, Repr

namespace DecryptionRatchet

def new (secret : S) : DecryptionRatchet S := ⟨[], .initialRatchetSecret secret⟩

/-- Move the head forward and keep the keys that are passed. -/
def skip : ℕ → DecryptionRatchet S → Except SecretTreeError Unit × DecryptionRatchet S
  | 0, ratchet => (.ok (), ratchet)
  | n + 1, ratchet =>
    match ratchet.ratchetHead.ratchetForward with
    | .error e => (.error e, ratchet)
    | .ok ((_, ratchetSecrets), head) => skip n ⟨some ratchetSecrets :: ratchet.pastSecrets, head⟩

/-- The key of a generation, with what is left of the ratchet, also after an error. -/
def secretForDecryption (configuration : SenderRatchetConfiguration) (generation : ℕ)
    (ratchet : DecryptionRatchet S) :
    Except SecretTreeError (RatchetKeyMaterial S) × DecryptionRatchet S :=
  let headGeneration := ratchet.ratchetHead.generation
  if headGeneration < maxGeneration - configuration.maximumForwardDistance ∧
      headGeneration + configuration.maximumForwardDistance < generation then
    (.error .tooDistantInTheFuture, ratchet)
  else if generation < headGeneration ∧
      configuration.outOfOrderTolerance < headGeneration - generation then
    (.error .tooDistantInThePast, ratchet)
  else if headGeneration ≤ generation then
    match ratchet.skip (generation - headGeneration) with
    | (.error e, ratchet) => (.error e, ratchet)
    | (.ok (), ratchet) =>
      match ratchet.ratchetHead.ratchetForward with
      | .error e => (.error e, ratchet)
      | .ok ((_, ratchetSecrets), ratchetHead) =>
        -- an entry without a key keeps the index of the others
        (.ok ratchetSecrets,
          ⟨(none :: ratchet.pastSecrets).take configuration.outOfOrderTolerance, ratchetHead⟩)
  else
    -- a distance is cast to a signed 32-bit number before one is taken off
    let windowIndex : ℤ := Int.bmod (((headGeneration - generation : ℕ) : ℤ) - 1) (2 ^ 32)
    if 0 ≤ windowIndex then
      match ratchet.pastSecrets[windowIndex.toNat]? with
      | none => (.error .indexOutOfBounds, ratchet)
      | some none => (.error .secretReuseError, ratchet)
      | some (some ratchetSecrets) =>
        (.ok ratchetSecrets,
          { ratchet with pastSecrets := ratchet.pastSecrets.set windowIndex.toNat none })
    else (.error .tooDistantInThePast, ratchet)

end DecryptionRatchet

/-- The answers to requests for generations, each with its configuration. -/
def answers : List (SenderRatchetConfiguration × ℕ) → DecryptionRatchet S →
    List (Except SecretTreeError (RatchetKeyMaterial S))
  | [], _ => []
  | (configuration, generation) :: requests, ratchet =>
    let (answer, ratchet) := ratchet.secretForDecryption configuration generation
    answer :: answers requests ratchet

/-- The generations that were handed out, in the order of the requests. -/
def handedOut (requests : List (SenderRatchetConfiguration × ℕ)) (ratchet : DecryptionRatchet S) :
    List ℕ :=
  (requests.zip (answers requests ratchet)).filterMap fun (request, answer) =>
    answer.toOption.map fun _ => request.2

/-! ### The chain -/

/-- The secret of a generation. -/
def chainSecret (secret : S) : ℕ → S
  | 0 => secret
  | generation + 1 =>
    deriveTreeSecret (chainSecret secret generation) "secret" generation (TreeKdf.hashLength S)

/-- The key of a generation. -/
def chainKey (secret : S) (generation : ℕ) : RatchetKeyMaterial S where
  key := deriveTreeSecret (chainSecret secret generation) "key" generation (TreeKdf.aeadKeyLength S)
  nonce :=
    deriveTreeSecret (chainSecret secret generation) "nonce" generation (TreeKdf.aeadNonceLength S)

/-- The head of the chain at a generation. -/
def headAt (secret : S) (generation : ℕ) : RatchetSecret S :=
  ⟨chainSecret secret generation, generation⟩

@[simp] theorem generation_headAt (secret : S) (generation : ℕ) :
    (headAt secret generation).generation = generation := rfl

theorem ratchetForward_headAt (secret : S) {generation : ℕ} (hmax : generation < maxGeneration) :
    (headAt secret generation).ratchetForward =
      .ok ((generation, chainKey secret generation), headAt secret (generation + 1)) :=
  if_neg hmax.ne

theorem ratchetForward_headAt_max (secret : S) {generation : ℕ}
    (hmax : generation = maxGeneration) :
    (headAt secret generation).ratchetForward = .error .ratchetTooLong :=
  if_pos hmax

end Ratchets

/-! ### The window of a receiver -/

/-- Which generations a receiver can still open: those that are not behind the head, and of those
that are kept behind it the ones that were not handed out. -/
structure Window where
  head : ℕ
  /-- The number of generations that are kept. -/
  kept : ℕ
  used : Finset ℕ
  kept_le : kept ≤ head
  head_le : head ≤ maxGeneration
  used_lt : ∀ generation ∈ used, generation < head

namespace Window

@[ext] theorem ext {window window' : Window} (hhead : window.head = window'.head)
    (hkept : window.kept = window'.kept) (hused : window.used = window'.used) :
    window = window' := by
  cases window
  cases window'
  cases hhead
  cases hkept
  cases hused
  rfl

def new : Window := ⟨0, 0, ∅, le_rfl, Nat.zero_le _, by simp⟩

/-- The head can be moved to the generation. The distance is not checked close to the end. -/
def Reaches (window : Window) (configuration : SenderRatchetConfiguration) (generation : ℕ) :
    Prop :=
  maxGeneration - configuration.maximumForwardDistance ≤ window.head ∨
    generation ≤ window.head + configuration.maximumForwardDistance

/-- The key of the generation is handed out. -/
def Grants (window : Window) (configuration : SenderRatchetConfiguration) (generation : ℕ) :
    Prop :=
  if generation < window.head then
    window.head - generation ≤ min configuration.outOfOrderTolerance (min window.kept (2 ^ 31)) ∧
      generation ∉ window.used
  else generation < maxGeneration ∧ window.Reaches configuration generation

instance (window : Window) (configuration : SenderRatchetConfiguration) (generation : ℕ) :
    Decidable (window.Reaches configuration generation) :=
  inferInstanceAs (Decidable (_ ∨ _))

instance (window : Window) (configuration : SenderRatchetConfiguration) (generation : ℕ) :
    Decidable (window.Grants configuration generation) :=
  inferInstanceAs (Decidable (ite _ _ _))

/-- Move the head forward over some generations. -/
def pass (window : Window) (n : ℕ) (hmax : window.head + n ≤ maxGeneration) : Window where
  head := window.head + n
  kept := window.kept + n
  used := window.used
  kept_le := Nat.add_le_add_right window.kept_le n
  head_le := hmax
  used_lt generation hused := (window.used_lt generation hused).trans_le (Nat.le_add_right _ n)

@[simp] theorem head_pass {window : Window} {n : ℕ} (hmax : window.head + n ≤ maxGeneration) :
    (window.pass n hmax).head = window.head + n := rfl

/-- Hand out a generation that is kept. -/
def handOut (window : Window) (generation : ℕ) (hlt : generation < window.head) : Window where
  head := window.head
  kept := window.kept
  used := insert generation window.used
  kept_le := window.kept_le
  head_le := window.head_le
  used_lt := by
    rintro g hg
    rcases Finset.mem_insert.mp hg with rfl | hg
    · exact hlt
    · exact window.used_lt g hg

/-- Hand out the generation of the head, and keep as many as the tolerance says. -/
def handOutHead (window : Window) (tolerance : ℕ) (hmax : window.head < maxGeneration) :
    Window where
  head := window.head + 1
  kept := min tolerance (window.kept + 1)
  used := insert window.head window.used
  kept_le := (min_le_right _ _).trans (Nat.succ_le_succ window.kept_le)
  head_le := hmax
  used_lt := by
    rintro g hg
    rcases Finset.mem_insert.mp hg with rfl | hg
    · exact Nat.lt_succ_self _
    · exact (window.used_lt g hg).trans (Nat.lt_succ_self _)

/-- The window after a request. One for the last generation moves the head, although no key is
handed out. -/
def after (window : Window) (configuration : SenderRatchetConfiguration) (generation : ℕ) :
    Window :=
  if hpast : generation < window.head then
    if window.Grants configuration generation then window.handOut generation hpast else window
  else if window.Reaches configuration generation then
    if hmax : generation < maxGeneration then
      (window.pass (generation - window.head) (by omega)).handOutHead
        configuration.outOfOrderTolerance (by rw [head_pass]; omega)
    else window.pass (maxGeneration - window.head) (by have := window.head_le; omega)
  else window

/-- The generations that are granted to requests. -/
def granted (window : Window) : List (SenderRatchetConfiguration × ℕ) → List (Option ℕ)
  | [] => []
  | (configuration, generation) :: requests =>
    (if window.Grants configuration generation then some generation else none) ::
      (window.after configuration generation).granted requests

/-! ### The ratchet of a window -/

section Ratchet

variable {S : Type*} [TreeKdf S] {window : Window} {secret : S}

/-- What is kept of a generation. -/
def entry (window : Window) (secret : S) (generation : ℕ) : Option (RatchetKeyMaterial S) :=
  if generation ∈ window.used then none else some (chainKey secret generation)

def toRatchet (window : Window) (secret : S) : DecryptionRatchet S where
  pastSecrets := (List.range window.kept).map fun k => window.entry secret (window.head - 1 - k)
  ratchetHead := headAt secret window.head

@[simp] theorem ratchetHead_toRatchet :
    (window.toRatchet secret).ratchetHead = headAt secret window.head := rfl

theorem toRatchet_new : new.toRatchet secret = DecryptionRatchet.new secret := rfl

theorem pass_pass {n m : ℕ} (hn : window.head + n ≤ maxGeneration)
    (hm : (window.pass n hn).head + m ≤ maxGeneration) :
    (window.pass n hn).pass m hm =
      window.pass (n + m) (by rw [head_pass] at hm; omega) := by
  ext1
  · exact Nat.add_assoc _ n m
  · exact Nat.add_assoc _ n m
  · rfl

/-- The head is one further and its key is kept. -/
theorem toRatchet_pass_one (hmax : window.head + 1 ≤ maxGeneration) :
    (⟨some (chainKey secret window.head) :: (window.toRatchet secret).pastSecrets,
      headAt secret (window.head + 1)⟩ : DecryptionRatchet S) =
      (window.pass 1 hmax).toRatchet secret := by
  have hfresh : window.head ∉ window.used := fun hused => (window.used_lt _ hused).false
  have hnew : (window.pass 1 hmax).entry secret window.head = some (chainKey secret window.head) :=
    if_neg hfresh
  have hold : ∀ k, (window.pass 1 hmax).entry secret (window.head + 1 - 1 - (k + 1)) =
      window.entry secret (window.head - 1 - k) := fun k => by
    rw [show window.head + 1 - 1 - (k + 1) = window.head - 1 - k by omega]
    rfl
  have hpast : (window.pass 1 hmax).toRatchet secret = ⟨(List.range (window.kept + 1)).map fun k =>
      (window.pass 1 hmax).entry secret (window.head + 1 - 1 - k),
      headAt secret (window.head + 1)⟩ :=
    rfl
  rw [hpast, List.range_succ_eq_map, List.map_cons, List.map_map, Nat.add_sub_cancel, Nat.sub_zero,
    hnew]
  congr 2
  exact List.map_congr_left fun k _ => (hold k).symm

theorem skip_toRatchet (n : ℕ) (hmax : window.head + n ≤ maxGeneration) :
    (window.toRatchet secret).skip n = (.ok (), (window.pass n hmax).toRatchet secret) := by
  induction n generalizing window with
  | zero => rfl
  | succ n ih =>
    have hone : window.head + 1 ≤ maxGeneration := by omega
    have hrest : (window.pass 1 hone).head + n ≤ maxGeneration := by rw [head_pass]; omega
    rw [DecryptionRatchet.skip, ratchetHead_toRatchet, ratchetForward_headAt secret hone]
    dsimp only
    rw [toRatchet_pass_one hone, ih hrest, pass_pass]
    simp only [Nat.add_comm 1 n]

/-- The ratchet cannot be moved beyond its last generation, but up to it. -/
theorem skip_toRatchet_of_lt (n : ℕ) (hmax : maxGeneration < window.head + n)
    (hend : window.head + (maxGeneration - window.head) ≤ maxGeneration) :
    (window.toRatchet secret).skip n =
      (.error .ratchetTooLong,
        (window.pass (maxGeneration - window.head) hend).toRatchet secret) := by
  induction n generalizing window with
  | zero => exact absurd window.head_le (not_le.mpr hmax)
  | succ n ih =>
    rw [DecryptionRatchet.skip, ratchetHead_toRatchet]
    rcases window.head_le.eq_or_lt with heq | hlt
    · have hsame : window.pass (maxGeneration - window.head) hend = window := by
        ext1
        · exact (Nat.add_sub_of_le window.head_le).trans heq.symm
        · exact (congrArg (window.kept + ·) (Nat.sub_eq_zero_of_le heq.ge)).trans (add_zero _)
        · rfl
      rw [ratchetForward_headAt_max secret heq, hsame]
    · have hend' : (window.pass 1 hlt).head + (maxGeneration - (window.pass 1 hlt).head) ≤
          maxGeneration := by
        rw [head_pass]
        omega
      rw [ratchetForward_headAt secret hlt]
      dsimp only
      rw [toRatchet_pass_one hlt, ih (by rw [head_pass]; omega) hend', pass_pass]
      simp only [head_pass,
        show 1 + (maxGeneration - (window.head + 1)) = maxGeneration - window.head by omega]

/-- The generation of the head is handed out, and the oldest ones are dropped. -/
theorem toRatchet_handOutHead (tolerance : ℕ) (hmax : window.head < maxGeneration) :
    (⟨(none :: (window.toRatchet secret).pastSecrets).take tolerance,
      headAt secret (window.head + 1)⟩ : DecryptionRatchet S) =
      (window.handOutHead tolerance hmax).toRatchet secret := by
  have hnew : (window.handOutHead tolerance hmax).entry secret window.head = none :=
    if_pos (Finset.mem_insert_self _ _)
  have hold : ∀ k < window.kept, (window.handOutHead tolerance hmax).entry secret
      (window.head + 1 - 1 - (k + 1)) = window.entry secret (window.head - 1 - k) := by
    intro k hk
    have hlt := window.kept_le
    have hne : window.head - 1 - k ≠ window.head := by omega
    rw [show window.head + 1 - 1 - (k + 1) = window.head - 1 - k by omega, entry, entry]
    simp only [handOutHead, Finset.mem_insert, hne, false_or]
  have hpast : (window.handOutHead tolerance hmax).toRatchet secret =
      ⟨(List.range (min tolerance (window.kept + 1))).map fun k =>
        (window.handOutHead tolerance hmax).entry secret (window.head + 1 - 1 - k),
        headAt secret (window.head + 1)⟩ := rfl
  rw [hpast, ← List.take_range, List.map_take, List.range_succ_eq_map, List.map_cons, List.map_map,
    Nat.add_sub_cancel, Nat.sub_zero, hnew]
  congr 3
  exact List.map_congr_left fun k hk => (hold k (List.mem_range.mp hk)).symm

section Past

variable {generation : ℕ} (hlt : generation < window.head)

include hlt

/-- A kept generation, by its distance. -/
theorem pastSecrets_toRatchet :
    (window.toRatchet secret).pastSecrets[window.head - generation - 1]? =
      if window.head - generation ≤ window.kept then some (window.entry secret generation)
      else none := by
  rw [toRatchet]
  dsimp only
  split_ifs with hkept
  · rw [List.getElem?_map, List.getElem?_range (by omega), Option.map_some,
      show window.head - 1 - (window.head - generation - 1) = generation by omega]
  · refine List.getElem?_eq_none ?_
    rw [List.length_map, List.length_range]
    omega

/-- A kept generation is handed out. -/
theorem toRatchet_handOut :
    (⟨(window.toRatchet secret).pastSecrets.set (window.head - generation - 1) none,
      headAt secret window.head⟩ : DecryptionRatchet S) =
      (window.handOut generation hlt).toRatchet secret := by
  have hused : (window.handOut generation hlt).entry secret generation = none :=
    if_pos (Finset.mem_insert_self _ _)
  have hothers : ∀ g, g ≠ generation →
      (window.handOut generation hlt).entry secret g = window.entry secret g := fun g hne => by
    rw [entry, entry]
    simp only [handOut, Finset.mem_insert, hne, false_or]
  have hpast : (window.handOut generation hlt).toRatchet secret = ⟨(List.range window.kept).map
      fun k => (window.handOut generation hlt).entry secret (window.head - 1 - k),
      headAt secret window.head⟩ := rfl
  rw [hpast]
  congr 1
  apply List.ext_getElem
  · rw [List.length_set, toRatchet, List.length_map, List.length_map]
  · intro k hk _
    have hkept : k < window.kept := by
      rwa [List.length_set, toRatchet, List.length_map, List.length_range] at hk
    have hle := window.kept_le
    rw [List.getElem_set, List.getElem_map, List.getElem_range]
    split_ifs with heq
    · rw [show window.head - 1 - k = generation by omega, hused]
    · rw [hothers _ (by omega)]
      simp only [toRatchet, List.getElem_map, List.getElem_range]

end Past

/-! ### The ratchet and its window -/

/-- The cast does no harm to a distance up to `2 ^ 31`. A greater one has a negative index. -/
theorem bmod_distance {distance : ℕ} (hpos : 0 < distance) (hlt : distance < 2 ^ 32) :
    (0 ≤ Int.bmod ((distance : ℤ) - 1) (2 ^ 32) ↔ distance ≤ 2 ^ 31) ∧
      (distance ≤ 2 ^ 31 → (Int.bmod ((distance : ℤ) - 1) (2 ^ 32)).toNat = distance - 1) := by
  rw [Int.bmod]
  split_ifs <;> omega

section Request

variable (configuration : SenderRatchetConfiguration) {generation : ℕ}

/-- A request for a generation behind the head. -/
theorem secretForDecryption_behind (hlt : generation < window.head) :
    Prod.map Except.toOption id
        ((window.toRatchet secret).secretForDecryption configuration generation) =
      (if window.Grants configuration generation then some (chainKey secret generation) else none,
        (window.after configuration generation).toRatchet secret) := by
  have hle := window.head_le
  have hdistance : 0 < window.head - generation ∧ window.head - generation < 2 ^ 32 := by
    rw [maxGeneration] at hle
    omega
  obtain ⟨hnonneg, hindex⟩ := bmod_distance hdistance.1 hdistance.2
  have hnear : ¬ (window.head < maxGeneration - configuration.maximumForwardDistance ∧
      window.head + configuration.maximumForwardDistance < generation) := by omega
  have hgrants : window.Grants configuration generation ↔ window.head - generation ≤
      min configuration.outOfOrderTolerance (min window.kept (2 ^ 31)) ∧
        generation ∉ window.used := by rw [Grants, if_pos hlt]
  rw [after, dif_pos hlt]
  generalize hratchet : window.toRatchet secret = ratchet
  have hhead : ratchet.ratchetHead = headAt secret window.head := hratchet ▸ rfl
  simp only [DecryptionRatchet.secretForDecryption, hhead, generation_headAt]
  subst hratchet
  rw [if_neg hnear]
  -- refused in turn: outside the tolerance, past the cast to 32 bits, no longer kept, handed out
  by_cases htolerance : configuration.outOfOrderTolerance < window.head - generation
  · have hrefused : ¬ window.Grants configuration generation := fun h => by
      have hclose := (hgrants.mp h).1
      omega
    rw [if_pos ⟨hlt, htolerance⟩, if_neg hrefused, if_neg hrefused]
    rfl
  rw [if_neg fun h => htolerance h.2, if_neg (not_le.mpr hlt)]
  by_cases hcast : window.head - generation ≤ 2 ^ 31
  · rw [if_pos (hnonneg.mpr hcast), hindex hcast, pastSecrets_toRatchet hlt]
    by_cases hkept : window.head - generation ≤ window.kept
    · rw [if_pos hkept, entry]
      by_cases hused : generation ∈ window.used
      · have hrefused : ¬ window.Grants configuration generation := fun h => (hgrants.mp h).2 hused
        rw [if_pos hused, if_neg hrefused, if_neg hrefused]
        rfl
      · have hgranted : window.Grants configuration generation :=
          hgrants.mpr ⟨by omega, hused⟩
        rw [if_neg hused, if_pos hgranted, if_pos hgranted, ← toRatchet_handOut hlt]
        rfl
    · have hrefused : ¬ window.Grants configuration generation := fun h => by
        have hclose := (hgrants.mp h).1
        omega
      rw [if_neg hkept, if_neg hrefused, if_neg hrefused]
      rfl
  · have hrefused : ¬ window.Grants configuration generation := fun h => by
      have hclose := (hgrants.mp h).1
      omega
    rw [if_neg (mt hnonneg.mp hcast), if_neg hrefused, if_neg hrefused]
    rfl

/-- A request for a generation that is not behind the head. -/
theorem secretForDecryption_ahead (hge : window.head ≤ generation) :
    Prod.map Except.toOption id
        ((window.toRatchet secret).secretForDecryption configuration generation) =
      (if window.Grants configuration generation then some (chainKey secret generation) else none,
        (window.after configuration generation).toRatchet secret) := by
  have hnotpast : ¬ generation < window.head := not_lt.mpr hge
  have hgrants : window.Grants configuration generation ↔
      generation < maxGeneration ∧ window.Reaches configuration generation := by
    rw [Grants, if_neg hnotpast]
  rw [after, dif_neg hnotpast]
  generalize hratchet : window.toRatchet secret = ratchet
  have hhead : ratchet.ratchetHead = headAt secret window.head := hratchet ▸ rfl
  simp only [DecryptionRatchet.secretForDecryption, hhead, generation_headAt]
  subst hratchet
  by_cases hreach : window.Reaches configuration generation
  · have hnear : ¬ (window.head < maxGeneration - configuration.maximumForwardDistance ∧
        window.head + configuration.maximumForwardDistance < generation) := by
      rw [Reaches] at hreach
      omega
    rw [if_neg hnear, if_neg fun h => hnotpast h.1, if_pos hge, if_pos hreach]
    by_cases hmax : generation < maxGeneration
    · have hpass : window.head + (generation - window.head) ≤ maxGeneration := by omega
      have hhead : (window.pass _ hpass).head = generation := by
        rw [head_pass]
        omega
      rw [skip_toRatchet _ hpass, dif_pos hmax, if_pos (hgrants.mpr ⟨hmax, hreach⟩)]
      dsimp only
      rw [ratchetHead_toRatchet, ratchetForward_headAt secret (by rwa [hhead]),
        ← toRatchet_handOutHead, hhead]
      rfl
    · have hrefused : ¬ window.Grants configuration generation := fun h => hmax (hgrants.mp h).1
      have hle := window.head_le
      have hend : window.head + (maxGeneration - window.head) ≤ maxGeneration := by omega
      rw [dif_neg hmax, if_neg hrefused]
      -- the ratchet has moved to its end, whether or not the loop got there
      rcases (not_lt.mp hmax).eq_or_lt with heq | hlong
      · subst heq
        rw [skip_toRatchet _ hend]
        dsimp only
        rw [ratchetHead_toRatchet, ratchetForward_headAt_max secret (by rw [head_pass]; omega)]
        rfl
      · rw [skip_toRatchet_of_lt _ (by omega) hend]
        rfl
  · have hfar : window.head < maxGeneration - configuration.maximumForwardDistance ∧
        window.head + configuration.maximumForwardDistance < generation := by
      rw [Reaches] at hreach
      omega
    have hrefused : ¬ window.Grants configuration generation := fun h => hreach (hgrants.mp h).2
    rw [if_pos hfar, if_neg hreach, if_neg hrefused]
    rfl

end Request

variable (window secret) in
/-- A request leaves the ratchet of the window after it, and gets the key of the chain if the
window grants the generation. -/
theorem secretForDecryption_toRatchet (configuration : SenderRatchetConfiguration)
    (generation : ℕ) :
    Prod.map Except.toOption id
        ((window.toRatchet secret).secretForDecryption configuration generation) =
      (if window.Grants configuration generation then some (chainKey secret generation) else none,
        (window.after configuration generation).toRatchet secret) := by
  rcases lt_or_ge generation window.head with hlt | hge
  · exact secretForDecryption_behind configuration hlt
  · exact secretForDecryption_ahead configuration hge

/-- The answers of the ratchet of a window, and the generations it hands out. -/
theorem answers_toRatchet (requests : List (SenderRatchetConfiguration × ℕ)) :
    (answers requests (window.toRatchet secret)).map Except.toOption =
        (window.granted requests).map (Option.map (chainKey secret)) ∧
      handedOut requests (window.toRatchet secret) = (window.granted requests).reduceOption := by
  induction requests generalizing window with
  | nil => exact ⟨rfl, rfl⟩
  | cons request requests ih =>
    obtain ⟨configuration, generation⟩ := request
    have hstep : Prod.map _ _ _ = _ :=
      secretForDecryption_toRatchet window secret configuration generation
    rcases hresult : (window.toRatchet secret).secretForDecryption configuration generation with
      ⟨answer, ratchet⟩
    rw [hresult] at hstep
    obtain ⟨hanswer, hafter⟩ := Prod.mk.inj hstep
    obtain rfl : ratchet = (window.after configuration generation).toRatchet secret := hafter
    obtain ⟨hanswers, hgenerations⟩ := @ih (window.after configuration generation)
    rw [handedOut] at hgenerations ⊢
    rw [answers, hresult, granted, List.map_cons, List.map_cons, hanswer, hanswers,
      List.zip_cons_cons, List.filterMap_cons, hgenerations]
    dsimp only
    rw [hanswer]
    split_ifs with hgrants
    · exact ⟨rfl, rfl⟩
    · exact ⟨rfl, rfl⟩

/-! ### No key twice -/

theorem used_after (configuration : SenderRatchetConfiguration) (generation : ℕ) :
    (window.after configuration generation).used =
      if window.Grants configuration generation then insert generation window.used
      else window.used := by
  rw [after]
  split_ifs with hlt hgrants hreach hmax hgrants hgrants hgrants
  · rfl
  · rfl
  · have hhead : (window.pass (generation - window.head) (by omega)).head = generation := by
      rw [head_pass]
      omega
    exact congrArg (insert · window.used) hhead
  · exact absurd (by rw [Grants, if_neg hlt]; exact ⟨hmax, hreach⟩) hgrants
  · rw [Grants, if_neg hlt] at hgrants
    exact absurd hgrants.1 hmax
  · rfl
  · rw [Grants, if_neg hlt] at hgrants
    exact absurd hgrants.2 hreach
  · rfl

theorem Grants.not_mem_used {configuration : SenderRatchetConfiguration} {generation : ℕ}
    (h : window.Grants configuration generation) : generation ∉ window.used := by
  rw [Grants] at h
  split_ifs at h with hlt
  · exact h.2
  · exact fun hused => hlt (window.used_lt generation hused)

/-- A generation is granted once at most, and not if it was handed out before. -/
theorem granted_disjoint_used (requests : List (SenderRatchetConfiguration × ℕ)) :
    (window.granted requests).reduceOption.Nodup ∧
      ∀ generation ∈ (window.granted requests).reduceOption, generation ∉ window.used := by
  induction requests generalizing window with
  | nil => exact ⟨List.nodup_nil, by simp [granted]⟩
  | cons request requests ih =>
    obtain ⟨configuration, generation⟩ := request
    obtain ⟨hnodup, hfresh⟩ := @ih (window.after configuration generation)
    rw [used_after] at hfresh
    rw [granted]
    split_ifs at hfresh ⊢ with hgrants
    · rw [List.reduceOption_cons_of_some]
      refine ⟨List.nodup_cons.mpr ⟨fun hmem => ?_, hnodup⟩, ?_⟩
      · exact hfresh generation hmem (Finset.mem_insert_self _ _)
      · intro g hg
        rcases List.mem_cons.mp hg with rfl | hg
        · exact hgrants.not_mem_used
        · exact fun hused => hfresh g hg (Finset.mem_insert_of_mem hused)
    · rw [List.reduceOption_cons_of_none]
      exact ⟨hnodup, hfresh⟩

end Ratchet

end Window

variable {S : Type*} [TreeKdf S]

/-- In every run the requests that the window grants are those that get a key, and what they get
is the key of their generation in the chain. -/
theorem answers_eq_window (secret : S) (requests : List (SenderRatchetConfiguration × ℕ)) :
    (answers requests (DecryptionRatchet.new secret)).map Except.toOption =
      (Window.new.granted requests).map (Option.map (chainKey secret)) := by
  rw [← Window.toRatchet_new]
  exact (Window.answers_toRatchet requests).1

/-- No generation is handed out twice, whatever is requested. -/
theorem handedOut_nodup (secret : S) (requests : List (SenderRatchetConfiguration × ℕ)) :
    (handedOut requests (DecryptionRatchet.new secret)).Nodup := by
  rw [← Window.toRatchet_new, (Window.answers_toRatchet requests).2]
  exact (Window.granted_disjoint_used requests).1

end SafeHub
