import Mathlib.Data.List.Basic
import SafeHub.Lib.TreeMaps
import SafeHub.SGit.Protocol

/-!
# The command that reads an encrypted repository

On disk the ciphertexts of a file are the lines of one file, under its name with an ending. A tag
beside them holds an author, a signature over the root of all such files, and the key that this
signature verifies under. A clone and a pull check the tag that git has fetched, load the reader's
own keys, and decrypt. Names of files are UTF-8, and links are followed.

## Main definitions

* `CommandPrimitives` — JSON and signing keys
* `CtTree`, `Checkout` — the files of a ciphertext repository
* `merkleRootOf`, `writeTag`, `verifyTag` — the tag
* `decryptInto` — the plaintext tree
* `clone`, `pull` — the commands that read
-/

namespace SafeHub.SGit

open Std (ExtTreeMap)

/-- What the command takes from its libraries besides. -/
class CommandPrimitives extends SgitPrimitives where
  /-- `serde_json::from_slice`, as the strings among the members of the value. -/
  fromSlice : Bytes → Except String (String → Option String)
  /-- An object of strings by `serde_json::to_vec`. -/
  toVec : List (String × String) → Bytes
  fromSlice_toVec (members : List (String × String)) : (members.map Prod.fst).Nodup →
    fromSlice (toVec members) = .ok fun name => members.lookup name
  /-- The signing key of some bytes. -/
  signerFromBytes : Bytes → Except String Bytes
  /-- Base64 has no line breaks, and stands for no bytes only where it is empty. -/
  base64Encode_unbroken (bytes : Bytes) :
    ∀ c ∈ (base64Encode bytes).toList, c ≠ '\n' ∧ c ≠ '\r'
  base64Encode_ne_empty (bytes : Bytes) : bytes ≠ [] → base64Encode bytes ≠ ""
  base64Decode_nil : base64Decode [] = .ok []

/-- The path of a file within a repository, by its components. -/
abbrev CtPath := List String

/-- The files of a ciphertext repository. -/
abbrev CtTree := ExtTreeMap CtPath Bytes compare

/-- A ciphertext repository on disk, with its files in the order in which they are listed. -/
structure Checkout where
  tree : CtTree
  walk : List (CtPath × Bytes)
  perm : walk.Perm tree.toList

structure Keys where
  /-- `mk` -/
  masterKey : Bytes
  signer : Bytes
  uid : String

/-- The author, the signature and the key of a tag. -/
structure TagFile where
  uid : String
  sig : Bytes
  vk : Bytes

/-- The name of every repository. -/
def commandRid : String := "sgit-repo"

/-! ### Names -/

/-- `ends_with` -/
def endsWith (suffix s : String) : Bool := suffix.toList.isSuffixOf s.toList

/-- `trim_end_matches`, on characters. -/
def trimEndMatches (suffix s : List Char) : List Char :=
  if suffix ≠ [] ∧ suffix.isSuffixOf s then
    trimEndMatches suffix (s.take (s.length - suffix.length))
  else s
termination_by s.length
decreasing_by
  rename_i h
  have hle := (List.isSuffixOf_iff_suffix.mp h.2).length_le
  have hpos := List.length_pos_of_ne_nil h.1
  rw [List.length_take]
  omega

/-- A path as it is written relative to the repository. -/
def relOf (path : CtPath) : String := String.ofList (['/'].intercalate (path.map String.toList))

def tagPath : CtPath := [".sgit", "tag.json"]

def acsPath : CtPath := [".sgit", "acs.json"]

/-- Files that are leaves of the hash tree. -/
def isLeaf (path : CtPath) : Bool :=
  !path.contains ".git" && endsWith ".sgit" (path.getLastD "")

/-- Files that are decrypted. -/
def isCiphertext (path : CtPath) : Bool :=
  !path.contains ".git" && !path.contains ".sgit" && endsWith ".sgit" (path.getLastD "")

/-- The name that a file is decrypted into. -/
def plainName (path : CtPath) : String :=
  String.ofList (trimEndMatches ".sgit".toList (relOf path).toList)

/-! ### Ciphertext files -/

/-- A line without its ending. -/
def chomp (line : String) : String :=
  match line.toList.reverse with
  | '\n' :: '\r' :: text => String.ofList text.reverse
  | '\n' :: text => String.ofList text.reverse
  | _ => line

/-- `lines` -/
def lines (s : String) : List String := (splitInclusive s).map chomp

/-- The base is the first line, and the differences are the lines after it. -/
def readCtFile (bytes : Bytes) : Except String (String × List String) :=
  match fromUtf8 bytes with
  | some s => .ok ((lines s).headD "", (lines s).tail)
  | none => .error "stream did not contain valid UTF-8"

section Command

variable [CommandPrimitives]

def Keys.verifyingKey (k : Keys) : Bytes := SgitPrimitives.verifyingKey k.signer

/-- The key that files are encrypted under. -/
def Keys.contentKey (k : Keys) : Bytes := kdf k.masterKey commandRid

/-- A member of a value, or the empty text. -/
def member (value : String → Option String) (name : String) : Except String Bytes :=
  SgitPrimitives.base64Decode (strBytes ((value name).getD ""))

/-- The keys of a reader, who must have some. -/
def loadKeysStrict (file : Option Bytes) (uid : String) : Except String Keys := do
  match file with
  | none => .error "no key material"
  | some raw =>
    let v ← CommandPrimitives.fromSlice raw
    let mk ← member v "mk"
    let sk ← member v "sk"
    return ⟨mk, ← CommandPrimitives.signerFromBytes sk, uid⟩

/-! ### The tag -/

/-- The root over the leaves of a tree, and its access file as the last one. -/
def merkleRootOf (tree : CtTree) : Bytes :=
  let files := tree.toList.filter fun entry => isLeaf entry.1
  let acs := tree[acsPath]?.getD []
  dagRoot ((files.map fun entry => sha256 [strBytes (relOf entry.1), entry.2]) ++ [sha256 [acs]])

/-- Sign a tree. -/
def writeTag (tree : CtTree) (k : Keys) (rid : String) : CtTree :=
  let h := rootMessage rid k.uid (merkleRootOf tree)
  tree.insert tagPath (CommandPrimitives.toVec [("uid", k.uid),
    ("sig", SgitPrimitives.base64Encode (SgitPrimitives.sign k.signer h)),
    ("vk", SgitPrimitives.base64Encode k.verifyingKey)])

def readTag (tree : CtTree) : Except String TagFile := do
  match tree[tagPath]? with
  | none => .error "no signed tag in ciphertext repo"
  | some raw =>
    let v ← CommandPrimitives.fromSlice raw
    let sig ← member v "sig"
    let vk ← member v "vk"
    return ⟨(v "uid").getD "", sig, vk⟩

/-- Check the tag of a tree, under the key that the tag names. -/
def verifyTag (tree : CtTree) (rid : String) : Except String Unit := do
  let tag ← readTag tree
  if SgitPrimitives.verify tag.vk (rootMessage rid tag.uid (merkleRootOf tree)) tag.sig then .ok ()
  else .error "ciphertext repository does not verify against its signed Merkle root"

/-! ### The plaintext tree -/

/-- Decrypt a difference and apply it. -/
def replayBlock (key : Bytes) (text block : String) : Except String String := do
  match decodeOps (← openBytes key block) with
  | some ops => .ok (applyChars text ops)
  | none => .error "malformed delta block in ciphertext"

def decryptBody (key : Bytes) (v : Variant) (bytes : Bytes) : Except String String := do
  let (base, deltas) ← readCtFile bytes
  match v with
  | .char => do
    let text ← openText key base
    deltas.foldlM (replayBlock key) text
  | .line => do
    let texts ← ((base :: deltas).filter fun l => !l.isEmpty).mapM (openText key)
    return concat texts

/-- Decrypt one file of a walk. -/
def decryptEntry (key : Bytes) (v : Variant) (plain : PlainMap) (entry : CtPath × Bytes) :
    Except String PlainMap := do
  if isCiphertext entry.1 then
    let body ← decryptBody key v entry.2
    return plain.insert (plainName entry.1) body
  else return plain

/-- Decrypt the files into a plaintext tree. -/
def decryptInto (walk : List (CtPath × Bytes)) (plain : PlainMap) (key : Bytes) (v : Variant) :
    Except String PlainMap :=
  walk.foldlM (decryptEntry key v) plain

/-! ### The commands -/

/-- Check and decrypt what git has fetched. -/
def readFetched (git : Except String Checkout) (keyFile : Option Bytes) (uid : String)
    (plain : PlainMap) (v : Variant) : Except String PlainMap := do
  let ct ← git
  verifyTag ct.tree commandRid
  let k ← loadKeysStrict keyFile uid
  decryptInto ct.walk plain k.contentKey v

/-- `sgit clone`, with what `git clone` has fetched. -/
def clone (git : Except String Checkout) (keyFile : Option Bytes) (uid : String) (plain : PlainMap)
    (v : Variant) : Except String PlainMap :=
  readFetched git keyFile uid plain v

/-- `sgit pull`, with what `git pull --ff-only` leaves behind. -/
def pullFetched (git : Except String Checkout) (keyFile : Option Bytes) (uid : String)
    (plain : PlainMap) (v : Variant) : Except String PlainMap :=
  readFetched git keyFile uid plain v

end Command

end SafeHub.SGit
