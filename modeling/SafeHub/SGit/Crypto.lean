import SafeHub.Types.RefHead
import SafeHub.Client.Error

/-!
# Primitives of the encrypted repository

A text is encrypted by a key stream under a fresh nonce that stands in front, and a version is
signed over the root of a hash tree. The key stream, the hash, the key derivation, the signature
scheme and Base64 are parameters, of which signatures verify and Base64 is decoded as encoded.

## Main definitions

* `SgitPrimitives` — the parameters
* `enc`, `dec` — encryption under a nonce
* `dagRoot` — the root of a hash tree

## Main results

* `dec_enc` — decryption gives back what was encrypted
-/

namespace SafeHub.SGit

/-- What the implementation takes from its libraries. -/
class SgitPrimitives where
  /-- HKDF-SHA-256 of a master key for some information. -/
  hkdf : Bytes → Bytes → Bytes
  /-- The bytes of the AES-256-CTR key stream for a key and a nonce. -/
  keystream : Bytes → Bytes → ℕ → UInt8
  /-- SHA-256. -/
  digest : Bytes → Bytes
  /-- The verifying key of a signing key. -/
  verifyingKey : Bytes → Bytes
  /-- ECDSA over P-256, in DER. -/
  sign : Bytes → Bytes → Bytes
  verify : Bytes → Bytes → Bytes → Bool
  verify_sign (sk message : Bytes) : verify (verifyingKey sk) message (sign sk message) = true
  base64Encode : Bytes → String
  base64Decode : Bytes → Except String Bytes
  base64Decode_encode (bytes : Bytes) :
    base64Decode (strBytes (base64Encode bytes)) = .ok bytes

section Primitives

variable [SgitPrimitives]

def nonceLen : ℕ := 16

/-- A nonce. -/
abbrev Nonce := Vector UInt8 16

def kdf (mk : Bytes) (rid : String) : Bytes := SgitPrimitives.hkdf mk (strBytes rid)

/-- Add the key stream to some bytes. -/
def applyKeystream (key nonce buf : Bytes) : Bytes :=
  buf.mapIdx fun i byte => byte ^^^ SgitPrimitives.keystream key nonce i

/-- Encrypt under the nonce that was drawn. -/
def enc (key : Bytes) (nonce : Nonce) (pt : Bytes) : Bytes :=
  nonce.toList ++ applyKeystream key nonce.toList pt

def dec (key ct : Bytes) : Except String Bytes :=
  if ct.length < nonceLen then .error "ciphertext shorter than its nonce"
  else .ok (applyKeystream key (ct.take nonceLen) (ct.drop nonceLen))

def sha256 (parts : List Bytes) : Bytes := SgitPrimitives.digest parts.flatten

/-! ### The hash tree -/

def node (l r : Bytes) : Bytes := sha256 [strBytes "sgit-merkle-node", l, r]

/-- The level above; an odd level duplicates its last node. -/
def nextLevel : List Bytes → List Bytes
  | l :: r :: level => node l r :: nextLevel level
  | [l] => [node l l]
  | [] => []

theorem length_nextLevel (level : List Bytes) :
    (nextLevel level).length = (level.length + 1) / 2 := by
  fun_induction nextLevel level with
  | case1 l r level ih =>
    simp only [List.length_cons, ih]
    omega
  | case2 l => simp
  | case3 => rfl

/-- The last level of a tree. -/
def climb (level : List Bytes) : List Bytes :=
  if 1 < level.length then climb (nextLevel level) else level
termination_by level.length
decreasing_by
  rw [length_nextLevel]
  omega

/-- The root over some leaves. -/
def dagRoot (leaves : List Bytes) : Bytes :=
  if leaves.isEmpty then sha256 [strBytes "sgit-merkle-empty"]
  else (climb leaves).headD []

/-! ### Round trips -/

/-- Adding the key stream twice takes it away. -/
theorem applyKeystream_applyKeystream (key nonce buf : Bytes) :
    applyKeystream key nonce (applyKeystream key nonce buf) = buf := by
  rw [applyKeystream, applyKeystream]
  apply List.ext_getElem
  · rw [List.length_mapIdx, List.length_mapIdx]
  · intro i _ _
    rw [List.getElem_mapIdx, List.getElem_mapIdx, UInt8.xor_assoc, UInt8.xor_self, UInt8.xor_zero]

@[simp] theorem dec_enc (key : Bytes) (nonce : Nonce) (pt : Bytes) :
    dec key (enc key nonce pt) = .ok pt := by
  have hnonce : nonce.toList.length = nonceLen := Vector.length_toList
  rw [dec, enc, if_neg, ← hnonce, List.take_left, List.drop_left, applyKeystream_applyKeystream]
  rw [List.length_append, hnonce]
  omega

end Primitives

end SafeHub.SGit
