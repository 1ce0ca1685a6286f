import SafeHub.Client.Error
import SafeHub.Crypto.Dkr

/-!
# Key-committing transport AEAD

A key expands to an encryption and a MAC key; the body is the commitment block
and the plaintext under a pad, and an outer MAC covers associated data and body.
HKDF, HMAC and SHA-512 are parameters with their output lengths.

## Main definitions

* `HashPrimitives` — HKDF, HMAC-SHA-512 and SHA-512
* `headSealKey`, `casSealKey` — keys derived for one head and for sealed objects
* `CommittingAead.sealDeterministic`, `CommittingAead.openSealed`

## Main results

* `CommittingAead.openSealed_sealWithNonce` — opening undoes sealing
-/

namespace SafeHub

open FixedWidth

/-- HKDF-SHA-512 from one 32-byte key to another. -/
class KeyKdf (K : Type*) where
  expand : K → (info : Bytes) → K

/-- The hash-based primitives, on byte strings. -/
class HashPrimitives where
  hkdfExpand : (secret info : Bytes) → (length : ℕ) → Bytes
  hmacSha512 : (key message : Bytes) → Bytes
  sha512 : Bytes → Bytes
  length_hkdfExpand : ∀ secret info length, (hkdfExpand secret info length).length = length
  length_hmacSha512 : ∀ key message, (hmacSha512 key message).length = 64
  length_sha512 : ∀ message, (sha512 message).length = 64

/-- Stand-in primitives that hash nothing, for evaluating the model on concrete data:
derived bytes start with the info string and the secret. -/
abbrev transparentHash : HashPrimitives where
  hkdfExpand secret info length := (info ++ secret ++ List.replicate length 0).take length
  hmacSha512 key message := (message ++ key ++ List.replicate 64 0).take 64
  sha512 message := (message ++ List.replicate 64 0).take 64
  length_hkdfExpand := fun _ _ _ => by simp; omega
  length_hmacSha512 := fun _ _ => by simp; omega
  length_sha512 := fun _ => by simp

/-- Length of an AEAD key. -/
def aeadKeyLen : ℕ := 32

/-- Length of the security parameter, of seeds and of transport exports. -/
def secParamLen : ℕ := 48

/-- Length of the outer tag. -/
def tagLen : ℕ := 32

instance [HashPrimitives] : KeyKdf Bytes where
  expand key info := HashPrimitives.hkdfExpand key info aeadKeyLen

instance [HashPrimitives] : SeedKdf Bytes Bytes where
  expand seed info := HashPrimitives.hkdfExpand seed info aeadKeyLen
  zeroSeed := List.replicate secParamLen 0

/-! ### Derived keys -/

/-- The info string of the seal key of the head at `seq`. -/
def headSealInfo (seq : UInt64) : Bytes := labelBytes "head-seal" ++ u64BE seq

/-- Per-head seal key, from the epoch key and the intended sequence number. -/
def headSealKey {K : Type*} [KeyKdf K] (epochKey : K) (seq : UInt64) : K :=
  KeyKdf.expand epochKey (headSealInfo seq)

/-- Seal key of content-addressed objects, from the transport export. -/
def casSealKey {S K : Type*} [SeedKdf S K] (transport : S) : K :=
  SeedKdf.expand transport (labelBytes "cas-obj-key")

theorem u64BE_injective : Function.Injective u64BE := by
  intro x y h
  rw [← UInt64.toNat_inj]
  exact beBytes_injective x.toNat_lt y.toNat_lt h

/-- Distinct sequence numbers have distinct info strings. -/
theorem headSealInfo_injective : Function.Injective headSealInfo := fun _ _ h =>
  u64BE_injective (List.append_cancel_left h)

/-! ### The construction -/

namespace CommittingAead

/-- Commitment block prepended to the plaintext: ASCII
`safehub-v1:kcommit-block`, padded with zeros, version byte 3. -/
def commitBlock : Bytes := labelBytes "kcommit-block" ++ List.replicate 23 0 ++ [3]

theorem length_commitBlock : commitBlock.length = 48 := by decide +kernel

/-- Cap on seals under one key with deterministic nonces. -/
def maxSealsPerKey : ℕ := 2 ^ 32

/-- 96-bit nonce: four zero bytes and the big-endian counter. -/
def deterministicNonce (counter : UInt64) : Bytes := List.replicate 4 0 ++ u64BE counter

@[simp] theorem length_deterministicNonce (counter : UInt64) :
    (deterministicNonce counter).length = 12 := by
  rw [deterministicNonce, List.length_append, List.length_replicate, u64BE, length_beBytes]

/-- Byte-wise exclusive or. -/
def xorBytes (xs pad : Bytes) : Bytes := List.zipWith (· ^^^ ·) xs pad

@[simp] theorem length_xorBytes {xs pad : Bytes} (h : pad.length = xs.length) :
    (xorBytes xs pad).length = xs.length := by
  rw [xorBytes, List.length_zipWith, h, Nat.min_self]

/-- Masking twice with the same pad is the identity. -/
theorem xorBytes_cancel {xs pad : Bytes} (h : pad.length = xs.length) :
    xorBytes (xorBytes xs pad) pad = xs := by
  induction xs generalizing pad with
  | nil => rfl
  | cons x xs ih =>
    cases pad with
    | nil => cases h
    | cons p pad =>
      have htail := ih (Nat.succ.inj h)
      simp only [xorBytes, List.zipWith_cons_cons] at htail ⊢
      rw [htail, UInt8.xor_assoc, UInt8.xor_self, UInt8.xor_zero]

variable [HashPrimitives]

/-- The encryption key and the MAC key of an AEAD key. -/
def expandAeadKeys (key : Bytes) : Bytes × Bytes :=
  let okm := HashPrimitives.hkdfExpand key (labelBytes "aead-keys") 64
  (okm.take 32, okm.drop 32)

/-- `length` pad bytes from block `counter` on, 64 bytes a block. -/
def padBlocks (padKey : Bytes) (counter length : ℕ) : Bytes :=
  if length = 0 then []
  else
    (HashPrimitives.sha512 (padKey ++ beBytes 8 counter)).take (min 64 length) ++
      padBlocks padKey (counter + 1) (length - 64)
termination_by length

/-- The pad of a message: a key bound to nonce, associated data and length, then
one hash per block. -/
def expandPad (encKey nonce aad : Bytes) (length : ℕ) : Bytes :=
  padBlocks
    (HashPrimitives.hmacSha512 encKey
      (labelBytes "aead-pad" ++ nonce ++ aad ++ beBytes 8 length))
    0 length

/-- The outer tag over associated data and body. -/
def outerHmac (macKey aad body : Bytes) : Bytes :=
  (HashPrimitives.hmacSha512 macKey (aad ++ body)).take tagLen

/-- Encrypt under an explicit nonce. -/
def sealWithNonce (key aad plaintext nonce : Bytes) : Bytes :=
  let (enc, mac) := expandAeadKeys key
  let padded := commitBlock ++ plaintext
  let body := xorBytes padded (expandPad enc nonce aad padded.length)
  nonce ++ body ++ outerHmac mac aad body

/-- Encrypt under the nonce of a per-key counter. -/
def sealDeterministic (key aad plaintext : Bytes) (counter : UInt64) : Except AeadError Bytes :=
  if maxSealsPerKey ≤ counter.toNat then
    .error .counterExhausted
  else
    .ok (sealWithNonce key aad plaintext (deterministicNonce counter))

/-- Verify the outer tag, unmask, and check the commitment block. -/
def openSealed (key aad sealed : Bytes) : Except AeadError Bytes :=
  if sealed.length < 12 + commitBlock.length + tagLen then
    .error .decrypt
  else
    let body := sealed.take (sealed.length - tagLen)
    let tag := sealed.drop (sealed.length - tagLen)
    let nonce := body.take 12
    let ciphertext := body.drop 12
    let (enc, mac) := expandAeadKeys key
    if tag ≠ outerHmac mac aad ciphertext then
      .error .decrypt
    else
      let plain := xorBytes ciphertext (expandPad enc nonce aad ciphertext.length)
      if plain.take commitBlock.length ≠ commitBlock then
        .error .decrypt
      else
        .ok (plain.drop commitBlock.length)

theorem length_padBlocks (padKey : Bytes) (counter length : ℕ) :
    (padBlocks padKey counter length).length = length := by
  induction counter, length using padBlocks.induct with
  | case1 counter => simp [padBlocks]
  | case2 counter length hne ih =>
    rw [padBlocks, if_neg hne, List.length_append, ih, List.length_take,
      HashPrimitives.length_sha512]
    omega

@[simp] theorem length_expandPad (encKey nonce aad : Bytes) (length : ℕ) :
    (expandPad encKey nonce aad length).length = length :=
  length_padBlocks _ _ _

@[simp] theorem length_outerHmac (macKey aad body : Bytes) :
    (outerHmac macKey aad body).length = tagLen := by
  rw [outerHmac, List.length_take, HashPrimitives.length_hmacSha512]
  rfl

theorem length_sealWithNonce (key aad plaintext nonce : Bytes) :
    (sealWithNonce key aad plaintext nonce).length =
      nonce.length + (commitBlock.length + plaintext.length) + tagLen := by
  change (nonce ++ xorBytes (commitBlock ++ plaintext) (expandPad _ nonce aad _) ++
    outerHmac _ aad _).length = _
  rw [List.length_append, List.length_append, length_outerHmac,
    length_xorBytes (length_expandPad _ _ _ _), List.length_append]

/-- Opening undoes sealing. -/
theorem openSealed_sealWithNonce (key aad plaintext : Bytes) {nonce : Bytes}
    (hnonce : nonce.length = 12) :
    openSealed key aad (sealWithNonce key aad plaintext nonce) = .ok plaintext := by
  obtain ⟨enc, mac, hkeys⟩ : ∃ enc mac, expandAeadKeys key = (enc, mac) := ⟨_, _, rfl⟩
  set padded := commitBlock ++ plaintext with hpadded
  set body := xorBytes padded (expandPad enc nonce aad padded.length) with hbody
  have hbodyLen : body.length = padded.length := length_xorBytes (length_expandPad _ _ _ _)
  have hpaddedLen : padded.length = commitBlock.length + plaintext.length := List.length_append
  have hseal :
      sealWithNonce key aad plaintext nonce = (nonce ++ body) ++ outerHmac mac aad body := by
    simp only [sealWithNonce, hkeys, ← hpadded, ← hbody]
  have hlength : ((nonce ++ body) ++ outerHmac mac aad body).length - tagLen =
      (nonce ++ body).length := by
    rw [List.length_append, length_outerHmac, Nat.add_sub_cancel]
  have hlong : ¬ ((nonce ++ body) ++ outerHmac mac aad body).length <
      12 + commitBlock.length + tagLen := by
    rw [List.length_append, List.length_append, length_outerHmac, hnonce, hbodyLen, hpaddedLen]
    omega
  have hunmask : xorBytes body (expandPad enc nonce aad body.length) = padded := by
    rw [hbodyLen]
    exact xorBytes_cancel (length_expandPad _ _ _ _)
  have hcommit : padded.take commitBlock.length = commitBlock := List.take_left' rfl
  have hplain : padded.drop commitBlock.length = plaintext := List.drop_left' rfl
  have htake : (nonce ++ body).take 12 = nonce := List.take_left' hnonce
  have hdrop : (nonce ++ body).drop 12 = body := List.drop_left' hnonce
  rw [hseal, openSealed, if_neg hlong, hlength, List.take_left' rfl, List.drop_left' rfl]
  simp only [htake, hdrop, hkeys, ne_eq, not_true_eq_false, if_false, hunmask, hcommit, hplain]

/-- An opened plaintext is shorter than its ciphertext by the nonce, the commitment block and
the tag. -/
theorem length_of_openSealed {key aad sealed plaintext : Bytes}
    (h : openSealed key aad sealed = .ok plaintext) :
    sealed.length = 12 + (commitBlock.length + plaintext.length) + tagLen := by
  rw [openSealed] at h
  split_ifs at h with hshort
  obtain ⟨enc, mac, hkeys⟩ : ∃ enc mac, expandAeadKeys key = (enc, mac) := ⟨_, _, rfl⟩
  simp only [hkeys] at h
  split_ifs at h
  rw [← Except.ok.inj h, List.length_drop, length_xorBytes (length_expandPad _ _ _ _),
    List.length_drop, List.length_take]
  omega

/-- What is sealed under a counter opens under the same key and associated data. -/
theorem openSealed_of_sealDeterministic {key aad plaintext sealed : Bytes} {counter : UInt64}
    (h : sealDeterministic key aad plaintext counter = .ok sealed) :
    openSealed key aad sealed = .ok plaintext := by
  rw [sealDeterministic] at h
  split_ifs at h
  obtain rfl := Except.ok.inj h
  exact openSealed_sealWithNonce key aad plaintext (length_deterministicNonce counter)

theorem length_of_sealDeterministic {key aad plaintext sealed : Bytes} {counter : UInt64}
    (h : sealDeterministic key aad plaintext counter = .ok sealed) :
    sealed.length = 12 + (commitBlock.length + plaintext.length) + tagLen := by
  rw [sealDeterministic] at h
  split_ifs at h
  obtain rfl := Except.ok.inj h
  rw [length_sealWithNonce, length_deterministicNonce]

end CommittingAead

end SafeHub
