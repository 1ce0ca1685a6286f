import SafeHub.Client.Membership
import SafeHub.Lib.Lines
import SafeHub.Lib.Perform
import SafeHub.Lib.Trim
import SafeHub.Server.HostRoutes
import SafeHub.SGit.OpCodec

/-!
# Large files

A push seals each tracked file, uploads it, and leaves a stub in its place and a pointer file
beside it, which both name the object. A fetch reads every file of the checkout. Where one reads
as a stub or as a pointer it opens the object, and writes it over the stub, or over the file that
the pointer file belongs to. The patterns are those of the configuration, which is not tracked
itself, and the files of `.git` are not walked.

## Main definitions

* `BlobFiles` — the host's blobs
* `pushFile`, `lfsPush` — a push
* `readPointer`, `fetchFile`, `lfsFetch` — a fetch

## Main results

* `readPointer_stub`, `readPointer_pointerFile` — what a push leaves names the object
* `outPath_pointerPath` — the pointer file belongs to the file
-/

namespace SafeHub

open Lines Trim Perform
open SGit (fromUtf8)

/-! ### Objects -/

section Objects

variable {D : Type} [Sha512 D]

/-- The blobs of a repository on the host, each under the digest of its bytes. -/
structure BlobFiles (D : Type) [Sha512 D] where
  files : BlobId D → Option Bytes
  addressed {id : BlobId D} {ct : Bytes} : files id = some ct → id = Sha512.digest ct

/-- Store bytes, if nothing is stored under their digest. -/
def BlobFiles.putBlob [DecidableEq D] (blobs : BlobFiles D) (ct : Bytes) : BlobFiles D where
  files id := if id = Sha512.digest ct ∧ blobs.files id = none then some ct else blobs.files id
  addressed {id ct'} h := by
    split_ifs at h with hnew
    · rw [hnew.1, Option.some.inj h]
    · exact blobs.addressed h

variable [HashPrimitives]

/-- Bytes sealed for the host, under a key of the transport export. -/
def sealObject (transport plaintext nonce : Bytes) : Bytes :=
  CommittingAead.sealWithNonce (casSealKey transport) casAad plaintext nonce

def BlobFiles.putSealedObject [DecidableEq D] (blobs : BlobFiles D)
    (transport plaintext nonce : Bytes) : BlobId D × BlobFiles D :=
  let ct := sealObject transport plaintext nonce
  (Sha512.digest ct, blobs.putBlob ct)

def BlobFiles.getSealedObject (blobs : BlobFiles D) (transport : Bytes) (id : BlobId D) :
    Except ClientError Bytes :=
  match blobs.files id with
  | none => .error (.api 404 "")
  | some ct =>
    match CommittingAead.openSealed (casSealKey transport) casAad ct with
    | .ok plaintext => .ok plaintext
    | .error e => .error (.aead e)

section Put

variable [DecidableEq D] {blobs : BlobFiles D} {id : BlobId D} {ct : Bytes}

omit [HashPrimitives]

theorem putBlob_files :
    (blobs.putBlob ct).files id =
      if id = Sha512.digest ct ∧ blobs.files id = none then some ct else blobs.files id :=
  rfl

/-- Bytes are found under their digest once they are stored, unless others have it. -/
theorem putBlob_digest
    (h : ∀ ct', blobs.files (Sha512.digest ct) = some ct' → ct' = ct) :
    (blobs.putBlob ct).files (Sha512.digest ct) = some ct := by
  rw [putBlob_files]
  cases hfile : blobs.files (Sha512.digest ct) with
  | none => rw [if_pos ⟨rfl, rfl⟩]
  | some ct' => rw [if_neg (fun hnew => by cases hnew.2), h ct' hfile]

theorem putBlob_kept {ct' : Bytes} (h : blobs.files id = some ct) :
    (blobs.putBlob ct').files id = some ct := by
  rw [putBlob_files, if_neg, h]
  rintro ⟨-, hnone⟩
  rw [h] at hnone
  cases hnone

end Put

theorem getSealedObject_eq_ok {blobs : BlobFiles D} {id : BlobId D}
    {transport plaintext nonce : Bytes} (hnonce : nonce.length = 12)
    (h : blobs.files id = some (sealObject transport plaintext nonce)) :
    blobs.getSealedObject transport id = .ok plaintext := by
  rw [BlobFiles.getSealedObject, h]
  dsimp only
  rw [sealObject, CommittingAead.openSealed_sealWithNonce _ _ _ hnonce]

end Objects

/-! ### Names -/

/-- The stem and the extension of a path whose last piece has both. -/
def splitExtension (path : String) : Option (List Char × List Char) :=
  let inLast := fun c : Char => c ≠ '.' ∧ c ≠ '/'
  let rev := path.toList.reverse
  match rev.dropWhile inLast with
  | '.' :: stem =>
    if stem = [] ∨ stem.head? = some '/' then none
    else some (stem.reverse, (rev.takeWhile inLast).reverse)
  | _ => none

def extension (path : String) : Option String :=
  (splitExtension path).map fun parts => String.ofList parts.2

def matchesPattern (path pattern : String) : Bool :=
  if "*.".toList.isPrefixOf pattern.toList then
    extension path = some (String.ofList (pattern.toList.drop 2))
  else pattern.toList <:+: path.toList

/-- A file that a push replaces. -/
def isTracked (patterns : List String) (path : String) : Bool :=
  patterns.any (matchesPattern path) && extension path ≠ some "safehub-lfs"

def pointerPath (path : String) : String := path ++ ".safehub-lfs"

/-- Where a fetch writes what a file names. -/
def outPath (path : String) : String :=
  match splitExtension path with
  | some (stem, ext) => if ext = "safehub-lfs".toList then String.ofList stem else path
  | none => path

/-! ### Pointers -/

structure LfsPointer where
  version : String
  oid : String
  size : UInt64
  deriving DecidableEq, Repr

/-- `str::lines` -/
def textLines (text : String) : List (List Char) :=
  (splitAfter (· == '\n') text.toList).map fun line =>
    if line.getLast? = some '\n' then
      if line.dropLast.getLast? = some '\r' then line.dropLast.dropLast else line.dropLast
    else line

def oidMark : List Char := "oid sha512:".toList

/-- A pointer as a push writes it: the object's identifier in hex. -/
def pointerTo {D : Type} [Sha512 D] (id : BlobId D) (plaintext : Bytes) : LfsPointer where
  version := "safehub-lfs-v1"
  oid := hexEncode (Sha512.toBytes id)
  size := UInt64.ofNat plaintext.length

/-- What takes the place of a tracked file. -/
def stub (ptr : LfsPointer) : Bytes :=
  strBytes ("version " ++ ptr.version ++ "\noid sha512:" ++ ptr.oid ++ "\nsize " ++
    toString ptr.size.toNat ++ "\n")

/-- A pointer as pushes write it. -/
def LfsPointer.Written (ptr : LfsPointer) : Prop :=
  ptr.version = "safehub-lfs-v1" ∧ ∃ bytes, ptr.oid = hexEncode bytes

/-- How pointers are written as JSON and read. -/
structure PointerJson where
  toStringPretty : LfsPointer → String
  fromStr : String → Option LfsPointer
  fromStr_toStringPretty {ptr : LfsPointer} : ptr.Written → fromStr (toStringPretty ptr) = some ptr
  /-- The lines of an object in JSON begin with its braces, or with white space. -/
  not_oidMark {ptr : LfsPointer} {line : List Char} : ptr.Written →
    line ∈ textLines (toStringPretty ptr) → ¬ oidMark <+: line

/-- The identifier that a file names. -/
def readPointer (json : PointerJson) (bytes : Bytes) : Option String := do
  let text ← fromUtf8 bytes
  match (textLines text).find? oidMark.isPrefixOf with
  | some line => some (String.ofList (trimStartMatches oidMark line))
  | none => (json.fromStr text).map LfsPointer.oid

/-! ### Push and fetch -/

inductive LfsError
  /-- ``no patterns; run `sh lfs track '*.bin'` first`` -/
  | noPatterns
  | read (file : String)
  /-- `bad oid: `, and what is wrong with it -/
  | badOid (oid : String)
  | object (error : ClientError)
  deriving DecidableEq, Repr

/-- The files of a checkout. -/
abbrev Files := String → Option Bytes

section Commands

variable {D : Type} [Sha512 D] [DigestBytes D] [DecidableEq D] [HashPrimitives]

/-- A run of push: the order in which it finds files, and the nonce it seals each with. -/
structure LfsPush where
  walk : List String
  nonces : String → Bytes
  length_nonces (file : String) : (nonces file).length = 12

/-- A checkout and the host's blobs. -/
structure LfsState (D : Type) [Sha512 D] where
  files : Files
  blobs : BlobFiles D

/-- Upload a tracked file, and leave a pointer file and a stub. -/
def pushFile (json : PointerJson) (transport : Bytes) (patterns : List String) (push : LfsPush)
    (s : LfsState D) (file : String) : Except LfsError (LfsState D) :=
  if isTracked patterns file then
    match s.files file with
    | none => .error (.read file)
    | some bytes =>
      let (id, blobs) := s.blobs.putSealedObject transport bytes (push.nonces file)
      let ptr := pointerTo id bytes
      let files := Function.update s.files (pointerPath file)
        (some (strBytes (json.toStringPretty ptr)))
      .ok ⟨Function.update files file (some (stub ptr)), blobs⟩
  else .ok s

/-- What a push leaves, and whether it failed. -/
def lfsPush (json : PointerJson) (transport : Bytes) (patterns : List String) (push : LfsPush)
    (s : LfsState D) : LfsState D × Except LfsError Unit :=
  if patterns = [] then (s, .error .noPatterns)
  else
    tryAll (push.walk.map fun file s => pushFile json transport patterns push s file) s

/-- Write the object that a file names to where it belongs. -/
def fetchFile (json : PointerJson) (transport : Bytes) (blobs : BlobFiles D) (files : Files)
    (file : String) : Except LfsError Files :=
  match (files file).bind (readPointer json) with
  | none => .ok files
  | some oid =>
    match BlobId.fromHex D (String.ofList (trim oid.toList)) with
    | none => .error (.badOid oid)
    | some id =>
      match blobs.getSealedObject transport id with
      | .error e => .error (.object e)
      | .ok plaintext => .ok (Function.update files (outPath file) (some plaintext))

omit [DecidableEq D] in
/-- What fetching a file does: nothing where it names nothing, and else it writes the object. -/
theorem fetchFile_eq_ok_iff {json : PointerJson} {transport : Bytes} {blobs : BlobFiles D}
    {files left : Files} {file : String} :
    fetchFile json transport blobs files file = .ok left ↔
      (files file).bind (readPointer json) = none ∧ left = files ∨
      ∃ oid id plaintext, (files file).bind (readPointer json) = some oid ∧
        BlobId.fromHex D (String.ofList (trim oid.toList)) = some id ∧
        blobs.getSealedObject transport id = .ok plaintext ∧
        left = Function.update files (outPath file) (some plaintext) := by
  rw [fetchFile]
  cases hread : (files file).bind (readPointer json) with
  | none => simp [eq_comm]
  | some oid =>
    dsimp only
    cases hid : BlobId.fromHex D (String.ofList (trim oid.toList)) with
    | none => simp [hid]
    | some id =>
      dsimp only
      cases hget : blobs.getSealedObject transport id with
      | error e => simp [hid, hget]
      | ok plaintext => simp [hid, hget, eq_comm]

/-- What a fetch leaves in the checkout, and whether it failed. -/
def lfsFetch (json : PointerJson) (transport : Bytes) (walk : List String) (s : LfsState D) :
    Files × Except LfsError Unit :=
  tryAll (walk.map fun file files => fetchFile json transport s.blobs files file) s.files

end Commands

/-! ### What names say -/

section Names

variable {path file : String} {stem ext : List Char} {patterns : List String}

/-- A path whose last piece is a name. -/
def EndsInName (path : String) : Prop := ∃ front last, path.toList = front ++ [last] ∧ last ≠ '/'

theorem toList_of_splitExtension (h : splitExtension path = some (stem, ext)) :
    path.toList = stem ++ '.' :: ext := by
  rw [splitExtension] at h
  dsimp only at h
  split at h
  · rename_i rest hrest
    split_ifs at h
    obtain ⟨rfl, rfl⟩ := Prod.mk.inj (Option.some.inj h)
    have hrev := List.takeWhile_append_dropWhile (p := fun c : Char => decide (c ≠ '.' ∧ c ≠ '/'))
      (l := path.toList.reverse)
    rw [hrest] at hrev
    have hpath := congrArg List.reverse hrev
    rw [List.reverse_reverse] at hpath
    refine hpath.symm.trans ?_
    rw [List.reverse_append, List.reverse_cons, List.append_assoc]
    rfl
  · cases h

theorem splitExtension_pointerPath (h : EndsInName path) :
    splitExtension (pointerPath path) = some (path.toList, "safehub-lfs".toList) := by
  obtain ⟨front, last, hpath, hlast⟩ := h
  have hrev : (pointerPath path).toList.reverse =
      "sfl-buhefas".toList ++ '.' :: last :: front.reverse := by
    rw [pointerPath, String.toList_append, hpath, List.reverse_append, List.reverse_append]
    rfl
  have hext : ∀ c ∈ "sfl-buhefas".toList, decide (c ≠ '.' ∧ c ≠ '/') = true :=
    List.all_eq_true.mp (by decide)
  rw [splitExtension, hrev]
  dsimp only
  rw [List.dropWhile_append_of_pos hext, List.takeWhile_append_of_pos hext,
    List.dropWhile_cons_of_neg (by decide), List.takeWhile_cons_of_neg (by decide)]
  change (if last :: front.reverse = [] ∨ some last = some '/' then none
    else some ((last :: front.reverse).reverse, ("sfl-buhefas".toList ++ []).reverse)) = _
  rw [if_neg, List.append_nil, List.reverse_cons, List.reverse_reverse, ← hpath]
  · rfl
  · simp [hlast]

theorem isTracked_pointerPath (h : EndsInName path) :
    isTracked patterns (pointerPath path) = false := by
  rw [isTracked, extension, splitExtension_pointerPath h, Option.map_some, String.ofList_toList]
  simp

/-- The pointer file of a file belongs to it. -/
theorem outPath_pointerPath (h : EndsInName path) : outPath (pointerPath path) = path := by
  rw [outPath, splitExtension_pointerPath h]
  dsimp only
  rw [if_pos rfl, String.ofList_toList]

theorem outPath_eq_self (h : isTracked patterns path = true) : outPath path = path := by
  rw [isTracked, Bool.and_eq_true, decide_eq_true_eq] at h
  rw [outPath]
  cases hsplit : splitExtension path with
  | none => rfl
  | some parts =>
    obtain ⟨stem, ext⟩ := parts
    dsimp only
    rw [if_neg]
    rintro rfl
    exact h.2 (by rw [extension, hsplit, Option.map_some, String.ofList_toList])

/-- What belongs to a file is the file itself or its pointer file. -/
theorem outPath_cases (h : outPath file = path) : file = path ∨ file = pointerPath path := by
  rw [outPath] at h
  split at h
  · rename_i stem ext hsplit
    split_ifs at h with hext
    · right
      apply String.toList_injective
      rw [toList_of_splitExtension hsplit, ← h, pointerPath, String.toList_append,
        String.toList_ofList, hext]
      rfl
    · exact .inl h
  · exact .inl h

theorem pointerPath_injective : Function.Injective pointerPath := by
  intro path path' h
  have hlist := congrArg String.toList h
  rw [pointerPath, pointerPath, String.toList_append, String.toList_append] at hlist
  exact String.toList_injective (List.append_cancel_right hlist)

theorem pointerPath_ne (h : EndsInName path) (htracked : isTracked patterns file = true) :
    pointerPath path ≠ file := by
  rintro rfl
  rw [isTracked_pointerPath h] at htracked
  cases htracked

end Names

/-! ### What a push leaves -/

section Left

variable {D : Type} [Sha512 D] [DigestBytes D] {json : PointerJson} {ptr : LfsPointer}
variable {bytes : Bytes} {id : BlobId D}

theorem exists_of_mem_hexEncode {c : Char} (h : c ∈ (hexEncode bytes).toList) :
    ∃ n < 16, c = Nat.digitChar n := by
  rw [hexEncode, String.toList_ofList] at h
  obtain ⟨b, -, hb⟩ := List.mem_flatMap.mp h
  have hlt := b.toNat_lt
  simp only [List.mem_cons, List.not_mem_nil, or_false] at hb
  rcases hb with rfl | rfl
  · exact ⟨_, by omega, rfl⟩
  · exact ⟨_, Nat.mod_lt _ (by decide), rfl⟩

theorem isWhitespace_hexEncode (bytes : Bytes) :
    ∀ c ∈ (hexEncode bytes).toList, isWhitespace c = false := by
  have hdigits : ∀ n < 16, isWhitespace (Nat.digitChar n) = false := by decide
  intro c hc
  obtain ⟨n, hn, rfl⟩ := exists_of_mem_hexEncode hc
  exact hdigits n hn

theorem trim_hexEncode (bytes : Bytes) :
    String.ofList (trim (hexEncode bytes).toList) = hexEncode bytes := by
  rw [trim_eq_self_iff.mpr (trimmed_of_forall (isWhitespace_hexEncode bytes)),
    String.ofList_toList]

theorem not_oidMark_hexEncode (bytes : Bytes) : ¬ oidMark <+: (hexEncode bytes).toList := by
  intro hprefix
  have hmem : ' ' ∈ (hexEncode bytes).toList := hprefix.subset (by decide)
  have hspace := isWhitespace_hexEncode bytes ' ' hmem
  exact absurd hspace (by decide)

/-- The identifier in a pointer is that of the object. -/
theorem fromHex_oid : BlobId.fromHex D (String.ofList (trim (pointerTo id bytes).oid.toList)) =
    some id := by
  rw [pointerTo, trim_hexEncode, BlobId.fromHex_hexEncode]

omit [DigestBytes D] in
theorem written_pointerTo : (pointerTo id bytes).Written := ⟨rfl, _, rfl⟩

theorem readPointer_pointerFile (h : ptr.Written) :
    readPointer json (strBytes (json.toStringPretty ptr)) = some ptr.oid := by
  have hnone : (textLines (json.toStringPretty ptr)).find? oidMark.isPrefixOf = none := by
    rw [List.find?_eq_none]
    intro line hline
    rw [List.isPrefixOf_iff_prefix]
    exact json.not_oidMark h hline
  rw [readPointer, SGit.fromUtf8_strBytes, Option.bind_eq_bind, Option.bind_some, hnone]
  dsimp only
  rw [json.fromStr_toStringPretty h, Option.map_some]

/-- A line that ends is the first of a text. -/
theorem textLines_append {text rest : String} {line : List Char}
    (h : text.toList = line ++ '\n' :: rest.toList) (hnewline : '\n' ∉ line)
    (hreturn : '\r' ∉ line) : textLines text = line :: textLines rest := by
  have hline : Terminated (· == '\n') (line ++ ['\n']) := by
    refine ⟨line, '\n', rfl, beq_self_eq_true _, fun c hc => beq_eq_false_iff_ne.mpr ?_⟩
    rintro rfl
    exact hnewline hc
  have hlast : line.getLast? ≠ some '\r' := fun hlast => hreturn (List.mem_of_getLast? hlast)
  have hends : (line ++ ['\n']).getLast? = some '\n' := List.getLast?_concat
  rw [textLines, h, List.append_cons, splitAfter_terminated hline, List.map_cons, if_pos hends,
    List.dropLast_concat, if_neg hlast, textLines]

omit [DigestBytes D] in
theorem readPointer_stub :
    readPointer json (stub (pointerTo id bytes)) = some (pointerTo id bytes).oid := by
  set oid := (pointerTo id bytes).oid with hoid
  set size := toString (pointerTo id bytes).size.toNat
  have hhex : ∀ c, isWhitespace c = true → c ∉ oidMark → c ∉ oidMark ++ oid.toList := by
    intro c hc hmark hmem
    rcases List.mem_append.mp hmem with hmark' | hmem
    · exact hmark hmark'
    · rw [isWhitespace_hexEncode _ c hmem] at hc
      cases hc
  -- the second line is the first that begins with the mark
  have hsecond : textLines ("oid sha512:" ++ oid ++ "\nsize " ++ size ++ "\n") =
      (oidMark ++ oid.toList) :: textLines ("size " ++ size ++ "\n") := by
    apply textLines_append
    · simp only [String.toList_append, List.append_assoc]
      rfl
    · exact hhex '\n' (by decide) (by decide)
    · exact hhex '\r' (by decide) (by decide)
  have hfirst : textLines ("version " ++ (pointerTo id bytes).version ++ "\noid sha512:" ++ oid ++
      "\nsize " ++ size ++ "\n") = "version safehub-lfs-v1".toList ::
        textLines ("oid sha512:" ++ oid ++ "\nsize " ++ size ++ "\n") := by
    have hline : "version safehub-lfs-v1".toList =
        "version ".toList ++ "safehub-lfs-v1".toList := by decide
    have hversion : (pointerTo id bytes).version = "safehub-lfs-v1" := rfl
    apply textLines_append
    · rw [hline, hversion]
      simp only [String.toList_append, List.append_assoc]
      rfl
    · decide
    · decide
  rw [readPointer, stub, SGit.fromUtf8_strBytes, Option.bind_eq_bind, Option.bind_some, hfirst,
    hsecond, List.find?_cons_of_neg (by decide), List.find?_cons_of_pos]
  · dsimp only
    rw [hoid, pointerTo, trimStartMatches_append (by decide) (not_oidMark_hexEncode _),
      String.ofList_toList]
  · rw [List.isPrefixOf_iff_prefix]
    exact List.prefix_append _ _

end Left

end SafeHub
