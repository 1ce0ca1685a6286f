import SafeHub.Types.RefHead

/-!
# ML-DSA-87 detached signatures

The signature scheme itself is a parameter; the length checks in front of it and
the two transcripts that are signed with it are the program's.
-/

namespace SafeHub

open FixedWidth

/-- Errors raised by the crypto layer. -/
inductive CryptoError
  | notAdmin
  | unknownMember
  | epochOutOfWindow (epoch lo hi : ℕ)
  | kdf
  | mls (message : String)
  deriving DecidableEq, Repr

/-- The ML-DSA-87 implementation: key derivation from a seed, signing, and
verification of a decoded key, message and signature. -/
class MlDsa87 where
  publicKey : Bytes → Bytes
  sign : (seed message : Bytes) → Bytes
  accepts : (publicKey message signature : Bytes) → Bool

/-- Expected verifying-key length. -/
def mldsa87VkLen : ℕ := 2592

/-- Expected signature length. -/
def mldsa87SigLen : ℕ := 4627

/-- Expected seed length. -/
def mldsa87SeedLen : ℕ := 32

/-- Key pair: the seed and the encoded verifying key. -/
structure MlDsa87KeyPair where
  seed : Bytes
  publicKey : Bytes
  deriving DecidableEq, Repr

section Scheme

variable [MlDsa87]

/-- Sign with a raw 32-byte seed. -/
def signWithSeed (seed message : Bytes) : Except CryptoError Bytes :=
  if seed.length = mldsa87SeedLen then
    .ok (MlDsa87.sign seed message)
  else
    .error (.mls "ML-DSA-87 seed must be 32 bytes")

/-- Detached signature over `message`. -/
def MlDsa87KeyPair.sign (pair : MlDsa87KeyPair) (message : Bytes) : Except CryptoError Bytes :=
  signWithSeed pair.seed message

/-- Verify a detached signature. -/
def mldsaVerify (publicKey message signature : Bytes) : Except CryptoError Unit :=
  if publicKey.length ≠ mldsa87VkLen then
    .error (.mls "invalid ML-DSA-87 verifying key length")
  else if signature.length ≠ mldsa87SigLen then
    .error (.mls "invalid ML-DSA-87 signature length")
  else if MlDsa87.accepts publicKey message signature then
    .ok ()
  else
    .error (.mls "ML-DSA-87 signature verification failed")

/-- Whether `signature` is valid on `message` under `publicKey`. -/
def mldsaValid (publicKey message signature : Bytes) : Bool :=
  (mldsaVerify publicKey message signature).isOk

/-- What verification accepts has a key of the right length, under which the scheme
accepts it. -/
theorem accepts_of_mldsaVerify {publicKey message signature : Bytes}
    (h : mldsaVerify publicKey message signature = .ok ()) :
    publicKey.length = mldsa87VkLen ∧ MlDsa87.accepts publicKey message signature = true := by
  rw [mldsaVerify] at h
  split_ifs at h with hkey hsig haccepts
  exact ⟨not_not.mp hkey, haccepts⟩

theorem mldsaVerify_of_valid {publicKey message signature : Bytes}
    (h : mldsaValid publicKey message signature = true) :
    mldsaVerify publicKey message signature = .ok () := by
  rw [mldsaValid] at h
  cases hverify : mldsaVerify publicKey message signature with
  | ok => rfl
  | error e =>
    rw [hverify] at h
    cases h

theorem length_of_mldsaValid {publicKey message signature : Bytes}
    (h : mldsaValid publicKey message signature = true) : signature.length = mldsa87SigLen := by
  have hverify := mldsaVerify_of_valid h
  rw [mldsaVerify] at hverify
  split_ifs at hverify with hkey hsig
  exact not_not.mp hsig

end Scheme

section Transparent

/-- A seed padded to the length of a key. -/
def paddedKey (seed : Bytes) : Bytes := seed ++ List.replicate 2560 0

/-- A seed followed by the first 4595 bytes of the padded message. -/
def clearSig (seed message : Bytes) : Bytes := seed ++ (message ++ List.replicate 4595 0).take 4595

/-- A stand-in scheme that hides nothing, for evaluating the model on concrete
data. -/
abbrev transparentMlDsa87 : MlDsa87 where
  publicKey := paddedKey
  sign := clearSig
  accepts publicKey message signature := signature == clearSig (publicKey.take 32) message

attribute [local instance] transparentMlDsa87

/-- The seed all of whose bytes are `b`. -/
def flatSeed (b : UInt8) : Bytes := List.replicate 32 b

theorem flatSeed_inj {b c : UInt8} : flatSeed b = flatSeed c ↔ b = c := by
  rw [flatSeed, flatSeed, List.replicate_inj]
  simp

@[simp] theorem length_flatSeed (b : UInt8) : (flatSeed b).length = mldsa87SeedLen :=
  List.length_replicate

@[simp] theorem length_paddedKey_flatSeed (b : UInt8) :
    (paddedKey (flatSeed b)).length = mldsa87VkLen := by
  rw [paddedKey, List.length_append, length_flatSeed, List.length_replicate]
  rfl

@[simp] theorem length_clearSig_flatSeed (b : UInt8) (message : Bytes) :
    (clearSig (flatSeed b) message).length = mldsa87SigLen := by
  have htake : ((message ++ List.replicate 4595 0).take 4595).length = 4595 := by
    rw [List.length_take, List.length_append, List.length_replicate]
    omega
  rw [clearSig, List.length_append, length_flatSeed, htake]
  rfl

theorem paddedKey_flatSeed_inj {b c : UInt8} :
    paddedKey (flatSeed b) = paddedKey (flatSeed c) ↔ b = c := by
  rw [paddedKey, paddedKey, List.append_left_inj, flatSeed_inj]

/-- A flat signature is valid under the key it was made with and no other. -/
@[simp] theorem mldsaValid_flatSeed (b c : UInt8) (message : Bytes) :
    mldsaValid (paddedKey (flatSeed b)) message (clearSig (flatSeed c) message) = (c == b) := by
  have htake : (paddedKey (flatSeed b)).take 32 = flatSeed b :=
    List.take_left' (length_flatSeed b)
  have haccepts : MlDsa87.accepts (paddedKey (flatSeed b)) message
      (clearSig (flatSeed c) message) = (c == b) := by
    change (_ == clearSig ((paddedKey (flatSeed b)).take 32) message) = _
    rw [Bool.eq_iff_iff, beq_iff_eq, beq_iff_eq, htake, clearSig, clearSig, List.append_left_inj,
      flatSeed_inj]
  rw [mldsaValid, mldsaVerify, if_neg (by simp), if_neg (by simp), haccepts]
  cases c == b <;> rfl

end Transparent

/-- Transcript of the pusher's leaf signature; the signatures are not part of it. -/
def refheadLeafMessage {D : Type*} [Sha512 D] (repoId : RepoId) (seq : UInt64) (encRefs : Bytes)
    (bundleRoot : D) (dekWrap : Bytes) (prevHeadHash : D) (mlsEpoch : UInt64) (epochTag : Bytes)
    (nonFf : Bool) : Bytes :=
  labelBytes "refhead" ++ repoId.toList ++ u64LE seq ++ encRefs ++ Sha512.toBytes bundleRoot ++
    dekWrap ++ Sha512.toBytes prevHeadHash ++ u64LE mlsEpoch ++ epochTag ++
    [if nonFf then 1 else 0]

/-- Policy version bound into every admin authorization. -/
def adminCosigPolicyVersion : ℕ := 1

/-- Transcript of an admin co-signature. -/
def adminCosigMessage {D : Type*} [Sha512 D] (repoId : RepoId) (epoch : UInt64) (op : String)
    (seq : UInt64) (prevHead newRefsDigest rosterDigest : D) (policyVersion : ℕ) : Bytes :=
  labelBytes "admin-cosig" ++ repoId.toList ++ u64LE epoch ++
    leBytes 4 (strBytes op).length ++ strBytes op ++ u64LE seq ++ Sha512.toBytes prevHead ++
    Sha512.toBytes newRefsDigest ++ Sha512.toBytes rosterDigest ++ leBytes 4 policyVersion

end SafeHub
