import SafeHub.Client.Material
import SafeHub.Client.Policy
import SafeHub.Lib.Framing
import SafeHub.Lib.TreeMaps

/-!
# Opening heads

A head is sealed under a key derived from its epoch's key and its sequence number.
The refs map and the data-encryption key are sealed under that key with fixed
counters, the chunks of the bundle under the data-encryption key. The `hex` crate
and the JSON codec are parameters.

## Main definitions

* `openRefsMap`, `unwrapDek`, `openChunk` — the three kinds of ciphertext
* `framedRefsCodec`, `plainHexCodec` — codecs to evaluate the model with
-/

namespace SafeHub

open FixedWidth Framing
open Std (ExtTreeMap)

/-- Hexadecimal texts of byte strings, and content ids read from them. -/
class HexCodec (D : Type) [Sha512 D] where
  encode : Bytes → String
  blobIdFromHex : String → Except String D
  blobIdFromHex_encode : ∀ id : D, blobIdFromHex (encode (Sha512.toBytes id)) = .ok id

/-- The random bytes drawn when a head's epoch key is derived: once for its refs and
once for its data-encryption key. -/
structure OpenDraws where
  refs : Draws Bytes
  dek : Draws Bytes
  deriving DecidableEq, Repr

/-- The result of an AEAD operation as a client's result. -/
def orAead {α : Type*} : Except AeadError α → Except ClientError α
  | .ok a => .ok a
  | .error e => .error (.aead e)

@[simp] theorem orAead_eq_ok_iff {α : Type*} {r : Except AeadError α} {a : α} :
    orAead r = .ok a ↔ r = .ok a := by
  cases r <;> simp [orAead]

section Opening

variable {D : Type} [Sha512 D] [HashPrimitives] [RefsCodec]

/-- The key a head is sealed under. -/
def sealKeyAt (material : EpochMaterial Bytes Bytes) (draws : Draws Bytes) (head : RefHead D) :
    Except ClientError Bytes :=
  (material.epochKeyAt draws head.mlsEpoch.toNat).map fun epochKey => headSealKey epochKey head.seq

/-- Open the encrypted refs map of a head. -/
def openRefs (material : EpochMaterial Bytes Bytes) (draws : Draws Bytes) (head : RefHead D) :
    Except ClientError Bytes := do
  let sealKey ← sealKeyAt material draws head
  orAead (CommittingAead.openSealed sealKey (labelBytes "refs") head.encRefs)

/-- Open and parse the refs map of a head. -/
def openRefsMap (material : EpochMaterial Bytes Bytes) (draws : Draws Bytes) (head : RefHead D) :
    Except ClientError EncryptedRefsMap := do
  let raw ← openRefs material draws head
  match RefsCodec.decode raw with
  | some refs => .ok refs
  | none => .error .serde

/-- Unwrap the data-encryption key of a head. -/
def unwrapDek (material : EpochMaterial Bytes Bytes) (draws : Draws Bytes) (head : RefHead D) :
    Except ClientError Bytes := do
  let sealKey ← sealKeyAt material draws head
  let dek ← orAead (CommittingAead.openSealed sealKey (labelBytes "dek-wrap") head.dekWrap)
  if dek.length ≠ aeadKeyLen then .error (.other "invalid dek length") else .ok dek

/-- Associated data of a chunk: repository, push, index and count. -/
def chunkAad (D : Type) [Sha512 D] [HexCodec D] (repo : RepoId) (pushId : String)
    (index count : ℕ) : Bytes :=
  labelBytes "bundle-chunk" ++ strBytes "|" ++
    strBytes s!"{HexCodec.encode D repo.toList}:{pushId}:{index}:{count}"

/-- Decrypt one chunk with known push framing. -/
def openChunk (D : Type) [Sha512 D] [HexCodec D] (repo : RepoId) (pushId : String)
    (index count : ℕ) (dek ciphertext : Bytes) : Except ClientError Bytes :=
  orAead (CommittingAead.openSealed dek (chunkAad D repo pushId index count) ciphertext)

end Opening

/-! ### Codecs for evaluation -/

/-- The four fields of a refs map, one after the other. -/
def refsCode : Code EncryptedRefsMap :=
  ((((Code.string.pair Code.string).list.through (fun refs : RefMap => refs.toList)
    (fun entries => ExtTreeMap.ofList entries compare) TreeMaps.ofList_toList).pair
    Code.string.option).pair (Code.string.pair Code.string.list)).through
    (fun refs => ((refs.refs, refs.head), (refs.pushId, refs.chunkIds)))
    (fun raw => ⟨raw.1.1, raw.1.2, raw.2.1, raw.2.2⟩) fun _ => rfl

/-- A self-delimiting stand-in for JSON. -/
abbrev framedRefsCodec : RefsCodec where
  encode := refsCode.write
  decode := refsCode.readAll
  decode_encode := refsCode.readAll_write

/-- How long the stand-in's text of a refs map is. -/
theorem length_encode_framed (refs : EncryptedRefsMap) :
    (framedRefsCodec.encode refs).length =
      1 + (refs.refs.toList.map fun entry =>
        1 + ((1 + 5 * entry.1.length) + (1 + 5 * entry.2.length))).sum +
      (refs.head.elim 1 fun head => 1 + (1 + 5 * head.length)) +
      ((1 + 5 * refs.pushId.length) +
        (1 + (refs.chunkIds.map fun id => 1 + (1 + 5 * id.length)).sum)) := by
  have hpair : ∀ entry : String × String, ((Code.string.pair Code.string).write entry).length =
      (1 + 5 * entry.1.length) + (1 + 5 * entry.2.length) := by
    intro entry
    change (Code.string.write _ ++ Code.string.write _).length = _
    rw [List.length_append, Code.length_write_string, Code.length_write_string]
  have hhead : (Code.string.option.write refs.head).length =
      refs.head.elim 1 fun head => 1 + (1 + 5 * head.length) := by
    cases refs.head with
    | none => rfl
    | some head =>
      change (1 :: Code.string.write head).length = _
      rw [List.length_cons, Code.length_write_string, Nat.add_comm]
      rfl
  change ((((Code.string.pair Code.string).writeList refs.refs.toList) ++
    Code.string.option.write refs.head) ++
    (Code.string.write refs.pushId ++ Code.string.writeList refs.chunkIds)).length = _
  simp only [List.length_append, Code.length_writeList, Code.length_write_string, hpair, hhead]

/-- A stand-in for hexadecimal texts that writes every byte as the character of that
code point. -/
abbrev plainHexCodec : @HexCodec Bytes transparentSha512 :=
  letI : Sha512 Bytes := transparentSha512
  { encode := fun bytes => String.ofList (bytes.map Char.ofUInt8)
    blobIdFromHex := fun text => .ok (text.toList.map Char.toUInt8)
    blobIdFromHex_encode := by
      intro id
      have hbyte : ∀ b : UInt8, (Char.ofUInt8 b).toUInt8 = b := fun b => UInt8.toUInt8_toUInt32 b
      change Except.ok ((String.ofList (id.map Char.ofUInt8)).toList.map Char.toUInt8) = _
      rw [String.toList_ofList, List.map_map, Except.ok.injEq]
      exact (List.map_congr_left fun b _ => hbyte b).trans (List.map_id id) }

end SafeHub
