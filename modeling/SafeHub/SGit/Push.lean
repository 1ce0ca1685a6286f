import SafeHub.Lib.Perform
import SafeHub.SGit.Command

/-!
# The command that writes an encrypted repository

A push reads the plaintext tree, encrypts what differs from a snapshot that is kept beside the
repository, signs the repository, stores the new snapshot, commits and sends. It stops at the first
of these that fails. A pull and a clone fetch ciphertexts and write plaintext files, and leave the
snapshot as it is. Any number of clients do so with one remote, which takes a history only if it
extends its own.

## Main definitions

* `ClientDisk`, `World`, `SyncOp` — clients, what they share, and what they do
* `pushOps`, `push` — a push, and where it can stop
* `fastForward` — what a fetch makes of the files
* `syncStep` — one command
-/

namespace SafeHub.SGit

open Perform
open Std (ExtTreeMap)

/-- The files of a plaintext tree, by their relative paths. -/
abbrev WorkTree := ExtTreeMap String Bytes compare

/-- A commit of a ciphertext repository. -/
structure Commit where
  id : ℕ
  tree : CtTree

/-- What a client has on disk. -/
@[ext] structure ClientDisk where
  work : WorkTree
  /-- The checked-out ciphertext repository. -/
  tree : CtTree
  /-- The commits up to `HEAD`, oldest first, none on an unborn branch. -/
  history : List Commit
  /-- The snapshot beside the repository, empty without one. -/
  snapshot : PlainMap

/-- Where a push is cut short from outside. -/
inductive PushStop
  | never
  /-- After some writes to the disk. -/
  | writing (n : ℕ)
  /-- At `git add` or `git commit`. -/
  | committing
  /-- At `git push`. -/
  | sending
  deriving DecidableEq

/-- The clients and their remote. -/
structure World where
  clients : ℕ → ClientDisk
  remote : List Commit
  nextId : ℕ
  /-- The tree of the last push that succeeded, and the variant of that push. -/
  pushed : Option (Variant × WorkTree)

/-- What happens to a world. -/
inductive SyncOp
  /-- The user of a client edits. -/
  | edit (i : ℕ) (work : WorkTree)
  | push (i : ℕ) (v : Variant) (nonces : String → FileNonces) (stop : PushStop)
  /-- With what git does, if its history allows. -/
  | pull (i : ℕ) (v : Variant) (fetched : Bool)
  | clone (i : ℕ) (v : Variant) (fetched : Bool)

/-! ### Names and plaintext files -/

def pathOf (rel : String) : CtPath := (rel.toList.splitOn '/').map String.ofList

def ctFilePath (rel : String) : CtPath := pathOf (rel ++ ".sgit")

/-- Files that are not read. -/
def isHidden (rel : String) : Bool :=
  (pathOf rel).contains ".git" || (pathOf rel).contains ".sgit"

/-- The texts of a plaintext tree. -/
def readPlain (work : WorkTree) : PlainMap :=
  work.filterMap fun rel bytes => if isHidden rel then none else fromUtf8 bytes

def changedFiles (old new : PlainMap) : List (String × String) :=
  new.toList.filter fun entry => decide (old[entry.1]? ≠ some entry.2)

def deletedFiles (old new : PlainMap) : List String :=
  old.keys.filter fun name => !new.contains name

section Push

variable [CommandPrimitives]

/-! ### Ciphertext files -/

/-- A file of some lines. -/
def linesFile (ls : List String) : Bytes := strBytes (concat (ls.map (· ++ "\n")))

/-- A text as a file. -/
def wholeFile (key : Bytes) (v : Variant) (nonces : FileNonces) (body : String) : Bytes :=
  match v with
  | .char => linesFile [sealText key (nonces 0 0) body]
  | .line => linesFile (sealLines key (nonces 0) body)

/-- A file of a text that has changed. -/
def changedFile (key : Bytes) (v : Variant) (nonces : FileNonces) (prev body : String)
    (found : Option Bytes) : Except String Bytes :=
  match v with
  | .char =>
    -- the difference is appended to a file that must be there
    match found with
    | none => .error "No such file or directory"
    | some bytes =>
      let blob := encodeOps (comDiffChar prev body)
      let line := SgitPrimitives.base64Encode (enc key (nonces 0 0) blob)
      .ok (bytes ++ linesFile [line])
  | .line => .ok (wholeFile key .line nonces body)

/-! ### A push -/

abbrev DiskOp := ClientDisk → Except String ClientDisk

/-- What is written for a file that differs from the snapshot. -/
def writtenFile (key : Bytes) (v : Variant) (nonces : String → FileNonces) (old : PlainMap)
    (entry : String × String) (found : Option Bytes) : Except String Bytes :=
  match old[entry.1]? with
  | none => .ok (wholeFile key v (nonces entry.1) entry.2)
  | some prev => changedFile key v (nonces entry.1) prev entry.2 found

/-- Write the ciphertext of a file. On disk that of `a` has the name of a directory `a.sgit`, and
where one is there the other cannot be written; here paths are apart. -/
def writeOp (key : Bytes) (v : Variant) (nonces : String → FileNonces) (old : PlainMap)
    (entry : String × String) : DiskOp := fun d => do
  let path := ctFilePath entry.1
  let bytes ← writtenFile key v nonces old entry d.tree[path]?
  return { d with tree := d.tree.insert path bytes }

def removeOp (name : String) : DiskOp := fun d =>
  .ok { d with tree := d.tree.erase (ctFilePath name) }

def tagOp (k : Keys) : DiskOp := fun d => .ok { d with tree := writeTag d.tree k commandRid }

def snapshotOp (new : PlainMap) : DiskOp := fun d => .ok { d with snapshot := new }

/-- What a push writes to the disk. -/
def pushOps (k : Keys) (v : Variant) (nonces : String → FileNonces) (old new : PlainMap) :
    List DiskOp :=
  (changedFiles old new).map (writeOp k.contentKey v nonces old) ++
    (deletedFiles old new).map removeOp ++ [tagOp k, snapshotOp new]

/-- The files of the last commit, none before the first one. -/
def headTree (history : List Commit) : CtTree := (history.getLast?.map Commit.tree).getD ∅

/-- `git add -A` and `git commit`, which fails where nothing is to be committed. On an unborn
branch it makes the first commit. -/
def commit (id : ℕ) (d : ClientDisk) : Option ClientDisk :=
  if d.tree.toList = (headTree d.history).toList then none
  else some { d with history := d.history ++ [⟨id, d.tree⟩] }

/-- Whether one history extends another. -/
def extendsHistory (history remote : List Commit) : Bool :=
  (remote.map Commit.id).isPrefixOf (history.map Commit.id)

/-- `git push origin HEAD`, and whether it succeeded. -/
def sendHead (stop : PushStop) (history remote : List Commit) : List Commit × Bool :=
  if stop = .never ∧ history ≠ [] ∧ extendsHistory history remote then (history, true)
  else (remote, false)

/-- `sgit push`: what it leaves on disk and at the remote, and whether it succeeded. -/
def push (k : Keys) (v : Variant) (nonces : String → FileNonces) (stop : PushStop) (id : ℕ)
    (d : ClientDisk) (remote : List Commit) : ClientDisk × List Commit × Bool :=
  let new := readPlain d.work
  let old := d.snapshot
  if (changedFiles old new).isEmpty && (deletedFiles old new).isEmpty then
    (d, sendHead stop d.history remote)
  else
    let ops := pushOps k v nonces old new
    match stop with
    | .writing n => ((performAll (ops.take n) d).1, remote, false)
    | .committing => ((performAll ops d).1, remote, false)
    | _ =>
      match performAll ops d with
      | (d, false) => (d, remote, false)
      | (d, true) =>
        match commit id d with
        | none => (d, remote, false)
        | some d => (d, sendHead stop d.history remote)

/-! ### Fetching -/

/-- The files after a fast-forward: what the fetched commits touched is as they have it. -/
def fastForward (head fetched tree : CtTree) : CtTree :=
  let updated := (fetched.toList.filter fun entry => decide (head[entry.1]? ≠ some entry.2)).foldl
    (fun tree entry => tree.insert entry.1 entry.2) tree
  (head.keys.filter fun path => !fetched.contains path).foldl (fun tree path => tree.erase path)
    updated

/-- Check what was fetched, and write its texts over the plaintext tree. -/
def decryptFetched (k : Keys) (v : Variant) (d : ClientDisk) : ClientDisk :=
  match (do verifyTag d.tree commandRid; decryptInto d.tree.toList ∅ k.contentKey v) with
  | .ok plain =>
    { d with work := plain.toList.foldl (fun work e => work.insert e.1 (strBytes e.2)) d.work }
  | .error _ => d

/-- `sgit pull`, for which the remote must have a commit. An unborn branch takes what there is. -/
def pullInto (k : Keys) (v : Variant) (fetched : Bool) (d : ClientDisk) (remote : List Commit) :
    ClientDisk :=
  match remote.getLast? with
  | none => d
  | some top =>
    if !fetched then d
    else if extendsHistory remote d.history then
      decryptFetched k v
        { d with tree := fastForward (headTree d.history) top.tree d.tree, history := remote }
    else if extendsHistory d.history remote then decryptFetched k v d
    else d

/-- `sgit clone` into the place of a client, whose snapshot stays. The clone of a remote without
commits has an unborn branch. -/
def cloneInto (k : Keys) (v : Variant) (fetched : Bool) (d : ClientDisk) (remote : List Commit) :
    ClientDisk :=
  if fetched then decryptFetched k v { d with tree := headTree remote, history := remote } else d

/-! ### Worlds -/

def World.setClient (w : World) (i : ℕ) (d : ClientDisk) : World :=
  { w with clients := fun j => if j = i then d else w.clients j }

/-- One command. -/
def syncStep (k : Keys) (w : World) : SyncOp → Option World
  | .edit i work => some (w.setClient i { w.clients i with work := work })
  | .push i v nonces stop =>
    match push k v nonces stop w.nextId (w.clients i) w.remote with
    | (d, remote, sent) => some { w.setClient i d with
        remote := remote
        nextId := w.nextId + 1
        pushed := if sent then some (v, (w.clients i).work) else w.pushed }
  | .pull i v fetched => some (w.setClient i (pullInto k v fetched (w.clients i) w.remote))
  | .clone i v fetched => some (w.setClient i (cloneInto k v fetched (w.clients i) w.remote))

/-- After `sgit init` by one client, with its access file. -/
def initWorld (k : Keys) (acs : Bytes) : World :=
  let tree := writeTag ((∅ : CtTree).insert acsPath acs) k commandRid
  { clients := fun i => if i = 0 then ⟨∅, tree, [⟨0, tree⟩], ∅⟩ else ⟨∅, ∅, [], ∅⟩
    remote := []
    nextId := 1
    pushed := none }

end Push

end SafeHub.SGit
