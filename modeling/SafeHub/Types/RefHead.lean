import SafeHub.Lib.FixedWidth

/-!
# Identifiers and ref heads

The records the host stores and sequences. A digest is 64 bytes of SHA-512 in
the program; here its type is a parameter carrying the hash function, so that a
result may assume what it needs about collisions and no more.

## Main definitions

* `Sha512`, `DigestBytes` — the hash function and the digest's bytes
* `RefHead` — the signed, hash-chained manifest tip
* `encodeRefHead`, `RefHead.hash` — canonical bytes and their digest
-/

namespace SafeHub

open FixedWidth

/-- SHA-512 with digests of type `D`. -/
class Sha512 (D : Type*) where
  /-- Hash a byte string. -/
  digest : Bytes → D
  /-- The digest as it is written into a transcript. -/
  toBytes : D → Bytes
  /-- The all-zero digest, used as the predecessor of the first head. -/
  zero : D

/-- A collision-free stand-in for SHA-512 that returns its input, for evaluating
the model on concrete data. -/
abbrev transparentSha512 : Sha512 Bytes := ⟨id, id, []⟩

/-- Digests that are 64 bytes, as the wire formats write and read them. -/
class DigestBytes (D : Type*) [Sha512 D] where
  /-- The digest with these 64 bytes. -/
  ofBytes : Bytes → D
  length_toBytes (d : D) : (Sha512.toBytes d).length = 64
  ofBytes_toBytes (d : D) : ofBytes (Sha512.toBytes d) = d
  toBytes_ofBytes (bytes : Bytes) : bytes.length = 64 → Sha512.toBytes (ofBytes bytes) = bytes

attribute [simp] DigestBytes.length_toBytes DigestBytes.ofBytes_toBytes

theorem toBytes_injective {D : Type*} [Sha512 D] [DigestBytes D] :
    Function.Injective (Sha512.toBytes : D → Bytes) :=
  Function.LeftInverse.injective DigestBytes.ofBytes_toBytes

/-- The first `n` bytes, padded with zeros. -/
def byteArray (n : ℕ) (bytes : Bytes) : Vector UInt8 n := Vector.ofFn fun i => bytes.getD i 0

@[simp] theorem byteArray_toList {n : ℕ} (v : Vector UInt8 n) : byteArray n v.toList = v := by
  ext i hi
  rw [byteArray, Vector.getElem_ofFn]
  simp [hi]

theorem toList_byteArray {n : ℕ} (bytes : Bytes) (h : bytes.length = n) :
    (byteArray n bytes).toList = bytes := by
  apply List.ext_getElem
  · rw [Vector.length_toList, h]
  · intro i hi hi'
    simp [byteArray, hi']

/-- A 64-byte digest. -/
abbrev Digest := Vector UInt8 64

/-- A hash function with 64-byte digests. -/
abbrev sha512Of (digest : Bytes → Digest) : Sha512 Digest where
  digest := digest
  toBytes := Vector.toList
  zero := Vector.replicate 64 0

/-- 64-byte digests are written as they are. -/
abbrev digestBytesOf (digest : Bytes → Digest) : @DigestBytes Digest (sha512Of digest) :=
  let _ := sha512Of digest
  { ofBytes := byteArray 64
    length_toBytes := fun d => d.length_toList
    ofBytes_toBytes := byteArray_toList
    toBytes_ofBytes := toList_byteArray }

/-- A stand-in for SHA-512 that returns the first 64 bytes of its input, for evaluating
the model on concrete data. -/
abbrev leadingSha512 : Sha512 Digest := sha512Of (byteArray 64)

/-- The bytes of the stand-in's digests. -/
abbrev leadingDigestBytes : @DigestBytes Digest leadingSha512 := digestBytesOf (byteArray 64)

/-- 32-byte repository identifier. -/
abbrev RepoId := Vector UInt8 32

/-- Content address of an encrypted blob. -/
abbrev BlobId (D : Type*) := D

/-- Digest of a ref head. -/
abbrev HeadHash (D : Type*) := D

/-- User identity handle. -/
abbrev UserId := String

/-- Domain-separation prefix of every protocol label. -/
def domainPrefix : String := "safehub-v1:"

/-- `safehub-v1:{suffix}` -/
def domainLabel (suffix : String) : String := domainPrefix ++ suffix

/-- A string's UTF-8 bytes. -/
def strBytes (s : String) : Bytes := s.toUTF8.toList

theorem toList_loop_eq (bytes : ByteArray) (i : ℕ) (acc : List UInt8) :
    ByteArray.toList.loop bytes i acc = acc.reverse ++ bytes.data.toList.drop i := by
  fun_induction ByteArray.toList.loop bytes i acc with
  | case1 i acc h ih =>
    have hi : i < bytes.data.toList.length := by simpa using h
    have hget : bytes.get! i = bytes.data.toList[i] := by
      rw [ByteArray.get!, Array.getElem_toList]
      exact getElem!_pos bytes.data i h
    rw [ih, List.reverse_cons, List.append_assoc, List.singleton_append, hget,
      ← List.drop_eq_getElem_cons hi]
  | case2 i acc h =>
    have hi : bytes.data.toList.length ≤ i := by simpa using h
    rw [List.drop_eq_nil_of_le hi, List.append_nil]

theorem strBytes_eq (s : String) : strBytes s = s.toByteArray.data.toList :=
  toList_loop_eq s.toByteArray 0 []

theorem strBytes_append (s t : String) : strBytes (s ++ t) = strBytes s ++ strBytes t := by
  rw [strBytes_eq, strBytes_eq, strBytes_eq, String.toByteArray_append, ByteArray.data_append,
    Array.toList_append]

theorem strBytes_injective : Function.Injective strBytes := by
  intro s t h
  rw [strBytes_eq, strBytes_eq, Array.toList_inj] at h
  exact String.toByteArray_inj.mp (ByteArray.ext h)

/-- The bytes of a domain label. -/
def labelBytes (suffix : String) : Bytes := strBytes (domainLabel suffix)

/-- Little-endian bytes of a 64-bit word. -/
def u64LE (x : UInt64) : Bytes := leBytes 8 x.toNat

/-- Big-endian bytes of a 64-bit word. -/
def u64BE (x : UInt64) : Bytes := beBytes 8 x.toNat

@[simp] theorem length_u64LE (x : UInt64) : (u64LE x).length = 8 := length_leBytes 8 _

@[simp] theorem length_u64BE (x : UInt64) : (u64BE x).length = 8 := length_beBytes 8 _

theorem u64LE_injective : Function.Injective u64LE := by
  intro x y h
  exact UInt64.toNat_inj.mp (leBytes_injective x.toNat_lt y.toNat_lt h)

/-- Any eight bytes are those of a word. -/
theorem exists_u64LE_eq (bytes : Bytes) (h : bytes.length = 8) : ∃ x, u64LE x = bytes := by
  have hlt : readLE bytes < 2 ^ 64 := by
    have hread := readLE_lt bytes
    rwa [h] at hread
  refine ⟨UInt64.ofNat (readLE bytes), ?_⟩
  rw [u64LE, UInt64.toNat_ofNat_of_lt' hlt, ← h, leBytes_readLE]

/-- Encrypted, leaf-signed, hash-chained, epoch-bound ref manifest tip. -/
structure RefHead (D : Type*) where
  repoId : RepoId
  /-- Monotonic sequence number. -/
  seq : UInt64
  /-- The sealed refs map. -/
  encRefs : Bytes
  /-- Digest over the encrypted chunk ids. -/
  bundleRoot : BlobId D
  /-- The sealed data-encryption key of the bundle. -/
  dekWrap : Bytes
  /-- Digest of the previous head, zero for the first. -/
  prevHeadHash : HeadHash D
  /-- The MLS epoch whose key sealed this head. -/
  mlsEpoch : UInt64
  /-- Epoch authenticator. -/
  epochTag : Bytes
  /-- Whether an admin co-signature is required. -/
  nonFf : Bool
  pusherSig : Bytes
  adminCosig : Option Bytes
  deriving DecidableEq, Repr

/-- Metadata the host stores with a chunk. -/
structure BlobMeta (D : Type) where
  id : BlobId D
  size : ℕ
  chunkIndex : ℕ
  chunkCount : ℕ
  pushId : String

/-- `opaque x<V>`: a 32-bit big-endian length, then the bytes. The program
panics on an input of `2 ^ 32` bytes or more. -/
def putOpaque (bytes : Bytes) : Bytes := beBytes 4 bytes.length ++ bytes

variable {D : Type*} [Sha512 D]

/-- Canonical bytes of a head, signatures included. -/
def encodeRefHead (head : RefHead D) : Bytes :=
  head.repoId.toList ++ u64BE head.seq ++ putOpaque head.encRefs ++
    Sha512.toBytes head.bundleRoot ++ putOpaque head.dekWrap ++
    Sha512.toBytes head.prevHeadHash ++ u64BE head.mlsEpoch ++ putOpaque head.epochTag ++
    [if head.nonFf then 1 else 0] ++ putOpaque head.pusherSig ++
    match head.adminCosig with
    | some sig => 1 :: putOpaque sig
    | none => [0]

/-- The hash used for chain linking and compare-and-swap. -/
def RefHead.hash (head : RefHead D) : HeadHash D := Sha512.digest (encodeRefHead head)

/-- The head without its signatures: what the pusher signs. -/
def RefHead.unsigned (head : RefHead D) : RefHead D :=
  { head with pusherSig := [], adminCosig := none }

/-- Hashing is ideal on a set of heads: distinct heads get distinct hashes, and
none of them is the zero digest. -/
structure IdealHashOn (heads : Set (RefHead D)) : Prop where
  injOn : Set.InjOn RefHead.hash heads
  ne_zero : ∀ head ∈ heads, head.hash ≠ Sha512.zero

theorem IdealHashOn.mono {s t : Set (RefHead D)} (ht : IdealHashOn t) (hst : s ⊆ t) :
    IdealHashOn s :=
  ⟨ht.injOn.mono hst, fun head hmem => ht.ne_zero head (hst hmem)⟩

end SafeHub
