import SafeHub.SGit.Crypto
import SafeHub.SGit.OpCodec
import Std.Data.ExtTreeMap

/-!
# The encrypted repository

An author encrypts the files of the first version and from then on only what changes. By
characters, the encrypted difference is appended to the ciphertext of the first version; by lines,
the ciphertexts of changed lines are replaced in place. Every version is signed over the hash tree
of its ciphertexts, and a reader checks that signature before it puts the files together.

## Main definitions

* `CtFile`, `CtRepo` — ciphertexts and the repository
* `readFile` — a file put together
* `init`, `update`, `pull`, `share` — the protocol
-/

namespace SafeHub.SGit

open EditScript
open Std (ExtTreeMap)

/-- What a difference counts as a unit. -/
inductive Variant
  | char
  | line
  deriving DecidableEq, Repr

/-- The files of a version, by name. -/
abbrev PlainMap := ExtTreeMap String String compare

/-- The access-control file. -/
structure AccessFile where
  read : ExtTreeMap String String compare
  write : List String
  sig : String

/-- The commit tag. -/
structure Tag where
  uid : String
  sig : String

/-- A ciphertext file: a first version with differences, or one ciphertext per line. -/
structure CtFile where
  base : String
  deltas : List String
  lines : List String

abbrev CtMap := ExtTreeMap String CtFile compare

structure CtRepo where
  rid : String
  files : CtMap
  acs : AccessFile
  tag : Tag

structure Member where
  uid : String
  /-- `mk` -/
  masterKey : Bytes
  /-- The signing key. -/
  signer : Bytes

/-- What an update has cost. -/
structure UpdateCost where
  deltaPlaintextBytes : ℕ
  deltaCiphertextBytes : ℕ
  storedBytes : ℕ
  filesTouched : ℕ

/-- The nonces that are drawn for a file: for its operations, and for the lines of each. -/
abbrev FileNonces := ℕ → ℕ → Nonce

/-- Bytes that a host stores for a file. -/
def CtFile.storedBytes (f : CtFile) : ℕ :=
  f.base.utf8ByteSize + (f.deltas.map String.utf8ByteSize).sum +
    (f.lines.map String.utf8ByteSize).sum

section Protocol

variable [SgitPrimitives]

def Member.keyFor (m : Member) (rid : String) : Bytes := kdf m.masterKey rid

def Member.verifyingKey (m : Member) : Bytes := SgitPrimitives.verifyingKey m.signer

/-! ### Signatures -/

def acsMessage (acs : AccessFile) : Bytes :=
  strBytes "sgit-acs" ++ acs.write.flatMap (fun w => strBytes w ++ [0x1f]) ++ [0x1e] ++
    acs.read.toList.flatMap fun (uid, wrap) => strBytes uid ++ [0x1f] ++ strBytes wrap ++ [0x1f]

/-- What the author of a version signs for a root. -/
def rootMessage (rid uid : String) (root : Bytes) : Bytes :=
  sha256 [strBytes rid, strBytes uid, root]

def signRoot (m : Member) (rid : String) (root : Bytes) : String :=
  SgitPrimitives.base64Encode (SgitPrimitives.sign m.signer (rootMessage rid m.uid root))

def ctRoot (files : CtMap) (acs : AccessFile) : Bytes :=
  dagRoot ((files.toList.map fun (name, f) =>
    sha256 (strBytes name :: strBytes f.base :: (f.deltas.map strBytes ++ f.lines.map strBytes))) ++
      [sha256 [strBytes acs.sig]])

/-! ### Ciphertexts -/

/-- A text as it is stored. -/
def sealText (k : Bytes) (nonce : Nonce) (text : String) : String :=
  SgitPrimitives.base64Encode (enc k nonce (strBytes text))

/-- The bytes of a stored ciphertext. -/
def openBytes (k : Bytes) (ct : String) : Except String Bytes :=
  SgitPrimitives.base64Decode (strBytes ct) >>= dec k

def openText (k : Bytes) (ct : String) : Except String String := do
  match fromUtf8 (← openBytes k ct) with
  | some text => .ok text
  | none => .error "invalid utf-8 sequence"

/-- The lines of a text, each as it is stored. -/
def sealLines (k : Bytes) (nonces : ℕ → Nonce) (text : String) : List String :=
  (splitInclusive text).mapIdx fun j line => sealText k (nonces j) line

/-- Encrypt a file as a whole. -/
def encryptFile (k : Bytes) (v : Variant) (nonces : FileNonces) (body : String) : CtFile :=
  match v with
  | .char => ⟨sealText k (nonces 0 0) body, [], []⟩
  | .line => ⟨"", [], sealLines k (nonces 0) body⟩

/-- An operation applied to the ciphertexts of lines, and the bytes of the new ones counted. -/
def patchLine (k : Bytes) (nonces : FileNonces) : List String × ℕ → Op × ℕ → List String × ℕ
  | (lines, bytes), (op, i) =>
    let new := match op with
      | .insert _ m => ((sealLines k (nonces i) m).map String.utf8ByteSize).sum
      | .delete _ _ => 0
    (op.applyTo (sealLines k (nonces i)) lines, bytes + new)

def patchLines (k : Bytes) (nonces : FileNonces) (lines : List String) (ops : List Op) :
    List String × ℕ :=
  ops.zipIdx.foldl (patchLine k nonces) (lines, 0)

/-- Encrypt what has changed in a file, and count it. -/
def patchFile (k : Bytes) (v : Variant) (nonces : FileNonces) (oldBody newBody : String)
    (f : CtFile) (cost : UpdateCost) : CtFile × UpdateCost :=
  match v with
  | .char =>
    -- the difference is appended as one block, which is all that a push sends
    let ops := comDiffChar oldBody newBody
    let block := SgitPrimitives.base64Encode (enc k (nonces 0 0) (encodeOps ops))
    ({ f with deltas := f.deltas ++ [block] }, { cost with
      deltaPlaintextBytes := cost.deltaPlaintextBytes + payloadBytes ops
      deltaCiphertextBytes := cost.deltaCiphertextBytes + block.utf8ByteSize
      filesTouched := cost.filesTouched + 1 })
  | .line =>
    -- changed lines are replaced in place, so that each version stands alone
    let ops := comDiffLine oldBody newBody
    let (lines, bytes) := patchLines k nonces f.lines ops
    ({ f with lines := lines }, { cost with
      deltaPlaintextBytes := cost.deltaPlaintextBytes + payloadBytes ops
      deltaCiphertextBytes := cost.deltaCiphertextBytes + bytes
      filesTouched := cost.filesTouched + 1 })

/-- Decrypt a difference and apply it. -/
def applyBlock (k : Bytes) (text block : String) : Except String String := do
  match decodeOps (← openBytes k block) with
  | some ops => .ok (applyChars text ops)
  | none => .error "malformed delta block"

/-- Read a file. -/
def readFile (k : Bytes) (v : Variant) (f : CtFile) : Except String String :=
  match v with
  | .char => do
    let base ← openText k f.base
    f.deltas.foldlM (applyBlock k) base
  | .line => do
    let texts ← f.lines.mapM (openText k)
    return concat texts

/-! ### The protocol -/

/-- The author's signature over a version. -/
def authorTag (m : Member) (rid : String) (files : CtMap) (acs : AccessFile) : Tag :=
  ⟨m.uid, signRoot m rid (ctRoot files acs)⟩

/-- The access-control file of a new repository. -/
def ownerAcs (m : Member) : AccessFile :=
  let acs : AccessFile := ⟨∅, [m.uid], ""⟩
  { acs with sig := SgitPrimitives.base64Encode (SgitPrimitives.sign m.signer (acsMessage acs)) }

/-- Encrypt the first version. -/
def init (m : Member) (rid : String) (plain : PlainMap) (v : Variant)
    (nonces : String → FileNonces) : Except String CtRepo :=
  let k := m.keyFor rid
  let files := plain.toList.foldl
    (fun files entry => files.insert entry.1 (encryptFile k v (nonces entry.1) entry.2))
    (∅ : CtMap)
  let acs := ownerAcs m
  .ok ⟨rid, files, acs, authorTag m rid files acs⟩

/-- One file of an update. -/
def updateFile (k : Bytes) (v : Variant) (nonces : String → FileNonces) (oldPlain : PlainMap) :
    CtMap × UpdateCost → String × String → Except String (CtMap × UpdateCost)
  | (files, cost), (name, newBody) =>
    match oldPlain[name]? with
    | none =>
      -- a new file is encrypted as in a first version
      let f := encryptFile k v (nonces name) newBody
      .ok (files.insert name f, { cost with
        deltaPlaintextBytes := cost.deltaPlaintextBytes + newBody.utf8ByteSize
        deltaCiphertextBytes := cost.deltaCiphertextBytes + f.storedBytes
        filesTouched := cost.filesTouched + 1 })
    | some oldBody =>
      if oldBody ≠ newBody then
        match files[name]? with
        | none => .error s!"ciphertext missing for tracked file {name}"
        | some f =>
          let (f, cost) := patchFile k v (nonces name) oldBody newBody f cost
          .ok (files.insert name f, cost)
      else .ok (files, cost)

/-- Encrypt what has changed since the last version, and sign again. -/
def update (m : Member) (repo : CtRepo) (oldPlain newPlain : PlainMap) (v : Variant)
    (nonces : String → FileNonces) : Except String (CtRepo × UpdateCost) := do
  let k := m.keyFor repo.rid
  let (files, cost) ← newPlain.toList.foldlM (updateFile k v nonces oldPlain)
    (repo.files, ⟨0, 0, 0, 0⟩)
  -- files that the new version lacks
  let files := (oldPlain.keys.filter fun name => !newPlain.contains name).foldl
    (fun files name => files.erase name) files
  return ({ repo with files := files, tag := authorTag m repo.rid files repo.acs },
    { cost with storedBytes := (files.values.map CtFile.storedBytes).sum })

/-- Check the signatures of a repository, and read its files. -/
def pull (m : Member) (repo : CtRepo) (authorVk : Bytes) (v : Variant) :
    Except String PlainMap := do
  -- without this signature a host could add itself to the writers
  let acsSig ← (SgitPrimitives.base64Decode (strBytes repo.acs.sig)).mapError
    fun _ => "acs signature is not base64"
  if !SgitPrimitives.verify authorVk (acsMessage repo.acs) acsSig then
    .error "access-control file is not signed by the repository owner"
  else if !repo.acs.write.contains repo.tag.uid then
    .error s!"version authored by {repo.tag.uid} who has no write access"
  else
    let h := rootMessage repo.rid repo.tag.uid (ctRoot repo.files repo.acs)
    let sig ← (SgitPrimitives.base64Decode (strBytes repo.tag.sig)).mapError
      fun _ => "tag signature is not base64"
    if !SgitPrimitives.verify authorVk h sig then
      .error "version signature does not verify: repository is forged or corrupt"
    else
      let k := m.keyFor repo.rid
      repo.files.toList.foldlM (fun out entry => do
        let body ← readFile k v entry.2
        return out.insert entry.1 body) ∅

/-- Wrap the key of a repository to a recipient, record the grant, and sign again. -/
def share (owner : Member) (repo : CtRepo) (recipientUid : String) (write : Bool)
    (nonce : Nonce) : CtRepo :=
  let k := owner.keyFor repo.rid
  let wrap := SgitPrimitives.base64Encode (enc (kdf (strBytes recipientUid) "share") nonce k)
  let writers := if write && !repo.acs.write.contains recipientUid
    then repo.acs.write ++ [recipientUid] else repo.acs.write
  let acs : AccessFile := ⟨repo.acs.read.insert recipientUid wrap, writers, ""⟩
  let acs := { acs with
    sig := SgitPrimitives.base64Encode (SgitPrimitives.sign owner.signer (acsMessage acs)) }
  { repo with acs := acs, tag := authorTag owner repo.rid repo.files acs }

end Protocol

end SafeHub.SGit
