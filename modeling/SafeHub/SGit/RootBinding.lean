import SafeHub.Lib.HashTree
import SafeHub.SGit.Correctness

/-!
# What the root of a version binds

A leaf of a version is hashed over the name of a file followed by all its texts, with nothing
between them, and the last leaf over the signature of the access file. Leaves and inner nodes are
hashed alike, and an odd level ends with its last node twice. So a root does not tell where a name
ends and a text begins, which texts are which, or whether an odd number of leaves was meant. A
host that serves the texts of a version cut in another way serves a version with its root, and a
reader accepts it where its files can be read.

## Main definitions

* `leafText`, `CtVersion.tree` — what is hashed for a file and for a version
* `CtVersion.Alike` — versions that an author's signature cannot tell apart
* `AcceptsOnlySigned` — whatever signature a version is served with, it is accepted only if its
  files were signed
* `BoundByLog` — nothing that the author signed is taken for the version
* `CtFile.blank` — a file with its lines moved into its base

## Main results

* `textRoot_eq_iff_matches`, `rootMessage_eq_iff` — when roots and signed messages agree
* `exists_pull_iff` — what a reader accepts
* `pull_blank` — a host blanks any files of a version by lines
* `ctRoot_of_spells_acs` — a host adds a file that spells the access signature
* `ctRoot_binding_iff` — when a root binds its version, and when a served version was signed
-/

namespace SafeHub.SGit

open HashTree TreeMaps
open Std (ExtTreeMap)

/-! ### The texts of a file -/

/-- What is hashed for a file. -/
def leafText (name : String) (f : CtFile) : Bytes :=
  (strBytes name :: strBytes f.base :: (f.deltas.map strBytes ++ f.lines.map strBytes)).flatten

theorem strBytes_concat (texts : List String) :
    strBytes (concat texts) = (texts.map strBytes).flatten := by
  induction texts with
  | nil =>
    rw [concat, List.flatMap_nil, String.ofList_nil, strBytes_eq]
    rfl
  | cons text texts ih =>
    rw [concat, List.flatMap_cons, String.ofList_append, String.ofList_toList, strBytes_append,
      List.map_cons, List.flatten_cons, ← ih, concat]

/-- A file with all its texts in its base. -/
def CtFile.blank (f : CtFile) : CtFile := ⟨concat (f.base :: (f.deltas ++ f.lines)), [], []⟩

theorem leafText_blank (name : String) (f : CtFile) : leafText name f.blank = leafText name f := by
  rw [leafText, CtFile.blank, leafText, strBytes_concat]
  simp

section Roots

variable [SgitPrimitives]

/-! ### Roots -/

/-- What is hashed for an inner node. -/
def nodeText (l r : Bytes) : Bytes := [strBytes "sgit-merkle-node", l, r].flatten

theorem nextLevel_eq (level : List Bytes) : nextLevel level = pairUp node level := by
  fun_induction nextLevel level with
  | case1 l r level ih => rw [pairUp, ih]
  | case2 l => rfl
  | case3 => rfl

theorem climb_eq (level : List Bytes) : climb level = HashTree.climb node level := by
  fun_induction climb level with
  | case1 level hlong ih => rw [ih, nextLevel_eq, HashTree.climb.eq_def node level, if_pos hlong]
  | case2 level hshort => rw [HashTree.climb, if_neg hshort]

/-- The root over the hashes of some texts. -/
def textRoot (texts : List Bytes) : Bytes := (build texts).digest SgitPrimitives.digest nodeText

theorem dagRoot_map_digest {texts : List Bytes} (hne : texts ≠ []) :
    dagRoot (texts.map SgitPrimitives.digest) = textRoot texts := by
  rw [dagRoot, if_neg, climb_eq]
  · exact digest_build SgitPrimitives.digest nodeText hne
  · rwa [List.isEmpty_iff, List.map_eq_nil_iff]

/-- Digests of one length can be told apart in an inner node. -/
theorem nodeText_inj (hlen : ∀ bytes, (SgitPrimitives.digest bytes).length = 32)
    (x y x' y' : Bytes)
    (h : nodeText (SgitPrimitives.digest x) (SgitPrimitives.digest y) =
      nodeText (SgitPrimitives.digest x') (SgitPrimitives.digest y')) :
    SgitPrimitives.digest x = SgitPrimitives.digest x' ∧
      SgitPrimitives.digest y = SgitPrimitives.digest y' := by
  simp only [nodeText, List.flatten_cons, List.flatten_nil, List.append_nil] at h
  exact List.append_inj (List.append_cancel_left h) (by rw [hlen, hlen])

/-- All that is hashed for a message that is signed over some texts. -/
def rootInputs (rid uid : String) (texts : List Bytes) : List Bytes :=
  [strBytes rid, strBytes uid, textRoot texts].flatten ::
    (build texts).inputs SgitPrimitives.digest nodeText

/-- Roots agree exactly when the trees of texts match. -/
theorem textRoot_eq_iff_matches (hlen : ∀ bytes, (SgitPrimitives.digest bytes).length = 32)
    {texts texts' : List Bytes} {hashed : Set Bytes} (hinj : hashed.InjOn SgitPrimitives.digest)
    (hin : ∀ input ∈ (build texts).inputs SgitPrimitives.digest nodeText, input ∈ hashed)
    (hin' : ∀ input ∈ (build texts').inputs SgitPrimitives.digest nodeText, input ∈ hashed) :
    textRoot texts = textRoot texts' ↔
      Matches SgitPrimitives.digest nodeText (build texts) (build texts') :=
  digest_eq_iff_matches (nodeText_inj hlen) hinj hin hin'

/-- One message is signed exactly where the names run together to the same bytes and the trees of
texts match. -/
theorem rootMessage_eq_iff (hlen : ∀ bytes, (SgitPrimitives.digest bytes).length = 32)
    {rid uid rid' uid' : String} {texts texts' : List Bytes} {hashed : Set Bytes}
    (hinj : hashed.InjOn SgitPrimitives.digest)
    (hin : ∀ input ∈ rootInputs rid uid texts, input ∈ hashed)
    (hin' : ∀ input ∈ rootInputs rid' uid' texts', input ∈ hashed) :
    rootMessage rid uid (textRoot texts) = rootMessage rid' uid' (textRoot texts') ↔
      strBytes rid ++ strBytes uid = strBytes rid' ++ strBytes uid' ∧
        Matches SgitPrimitives.digest nodeText (build texts) (build texts') := by
  obtain ⟨hhead, htree⟩ := List.forall_mem_cons.mp hin
  obtain ⟨hhead', htree'⟩ := List.forall_mem_cons.mp hin'
  rw [← textRoot_eq_iff_matches hlen hinj htree htree', rootMessage, rootMessage, sha256, sha256,
    hinj.eq_iff hhead hhead']
  simp only [List.flatten_cons, List.flatten_nil, List.append_nil, ← List.append_assoc]
  constructor
  · intro h
    exact List.append_inj' h (by
      rw [textRoot, textRoot, TextTree.digest, TextTree.digest, hlen, hlen])
  · rintro ⟨hnames, hroot⟩
    rw [hnames, hroot]

/-! ### Signed versions -/

/-- What is hashed for the leaves of a version. -/
def ctTexts (files : CtMap) (acs : AccessFile) : List Bytes :=
  (files.toList.map fun entry => leafText entry.1 entry.2) ++ [strBytes acs.sig]

def ctTree (files : CtMap) (acs : AccessFile) : TextTree Bytes := build (ctTexts files acs)

/-- All that is hashed for a root. -/
def ctInputs (files : CtMap) (acs : AccessFile) : List Bytes :=
  (ctTree files acs).inputs SgitPrimitives.digest nodeText

theorem ctRoot_eq_textRoot (files : CtMap) (acs : AccessFile) :
    ctRoot files acs = textRoot (ctTexts files acs) := by
  have hne : ctTexts files acs ≠ [] := List.append_ne_nil_of_right_ne_nil _ (List.cons_ne_nil _ _)
  rw [← dagRoot_map_digest hne, ctTexts, List.map_append, List.map_map]
  simp only [ctRoot, sha256, List.map_singleton, List.flatten_singleton]
  rfl

/-- Files may be cut in another way, as long as their texts spell the same. -/
theorem ctRoot_map {recut : String → CtFile → CtFile}
    (h : ∀ name f, leafText name (recut name f) = leafText name f) (files : CtMap)
    (acs : AccessFile) : ctRoot (files.map recut) acs = ctRoot files acs := by
  rw [ctRoot_eq_textRoot, ctRoot_eq_textRoot, ctTexts, ctTexts, ExtTreeMap.toList_map, List.map_map]
  simp only [Function.comp_def, h]

/-- A version as it is signed. -/
structure CtVersion where
  rid : String
  uid : String
  files : CtMap
  acs : AccessFile

/-- The version that a repository is said to be. -/
def CtRepo.version (repo : CtRepo) : CtVersion := ⟨repo.rid, repo.tag.uid, repo.files, repo.acs⟩

namespace CtVersion

def message (s : CtVersion) : Bytes := rootMessage s.rid s.uid (ctRoot s.files s.acs)

def tree (s : CtVersion) : TextTree Bytes := ctTree s.files s.acs

/-- All that is hashed for the message. -/
def inputs (s : CtVersion) : List Bytes := rootInputs s.rid s.uid (ctTexts s.files s.acs)

/-- Versions whose names run together to the same bytes, and whose trees of texts match. -/
def Alike (s s' : CtVersion) : Prop :=
  strBytes s.rid ++ strBytes s.uid = strBytes s'.rid ++ strBytes s'.uid ∧
    Matches SgitPrimitives.digest nodeText s.tree s'.tree

/-- One message is signed for versions exactly when they are alike. -/
theorem message_eq_iff_alike (hlen : ∀ bytes, (SgitPrimitives.digest bytes).length = 32)
    {s s' : CtVersion} {hashed : Set Bytes} (hinj : hashed.InjOn SgitPrimitives.digest)
    (hin : ∀ input ∈ s.inputs, input ∈ hashed) (hin' : ∀ input ∈ s'.inputs, input ∈ hashed) :
    s.message = s'.message ↔ Alike s s' := by
  rw [message, message, ctRoot_eq_textRoot, ctRoot_eq_textRoot]
  exact rootMessage_eq_iff hlen hinj hin hin'

end CtVersion

/-! ### What a reader accepts -/

/-- A stored signature verifies over a message. -/
def SignedBy (vk : Bytes) (sig : String) (message : Bytes) : Prop :=
  ∃ bytes, SgitPrimitives.base64Decode (strBytes sig) = .ok bytes ∧
    SgitPrimitives.verify vk message bytes = true

/-- A reader checks the signature of the access file, the author of the version and its signature,
and reads every file. -/
theorem pull_eq_ok_iff {m : Member} {repo : CtRepo} {vk : Bytes} {v : Variant} {plain : PlainMap} :
    pull m repo vk v = .ok plain ↔
      SignedBy vk repo.acs.sig (acsMessage repo.acs) ∧ repo.tag.uid ∈ repo.acs.write ∧
        SignedBy vk repo.tag.sig repo.version.message ∧
        ∀ name : String, Option.Rel (fun f body => readFile (m.keyFor repo.rid) v f = .ok body)
          repo.files[name]? plain[name]? := by
  rw [← foldlM_insert_toList_eq_ok_iff, pull, bind_eq_ok_iff]
  simp only [mapError_eq_ok_iff]
  constructor
  · -- the checks stand in this order in the source, and each of them ends the pull
    rintro ⟨acsSig, hacs, h⟩
    split_ifs at h with hverify hwriter
    obtain ⟨sig, hsig, h⟩ := bind_eq_ok_iff.mp h
    split_ifs at h with htag
    rw [mapError_eq_ok_iff] at hsig
    simp only [Bool.not_eq_true', Bool.not_eq_false, List.contains_iff_mem] at hverify hwriter htag
    exact ⟨⟨acsSig, hacs, hverify⟩, hwriter, ⟨sig, hsig, htag⟩, h⟩
  · rintro ⟨⟨acsSig, hacs, hverify⟩, hwriter, ⟨sig, hsig, htag⟩, h⟩
    refine ⟨acsSig, hacs, ?_⟩
    rw [hverify, List.contains_iff_mem.mpr hwriter]
    refine bind_eq_ok_iff.mpr ⟨sig, mapError_eq_ok_iff.mpr hsig, ?_⟩
    rw [CtVersion.message, CtRepo.version] at htag
    rw [htag]
    exact h

/-- A reader can read every file of a repository. -/
def Readable (m : Member) (v : Variant) (rid : String) (files : CtMap) : Prop :=
  ∀ entry ∈ files.toList, ∃ body, readFile (m.keyFor rid) v entry.2 = .ok body

theorem exists_pull_iff {m : Member} {repo : CtRepo} {vk : Bytes} {v : Variant} :
    (∃ plain, pull m repo vk v = .ok plain) ↔
      SignedBy vk repo.acs.sig (acsMessage repo.acs) ∧ repo.tag.uid ∈ repo.acs.write ∧
        SignedBy vk repo.tag.sig repo.version.message ∧ Readable m v repo.rid repo.files := by
  simp only [pull_eq_ok_iff, exists_and_left]
  refine and_congr_right' (and_congr_right' (and_congr_right' ⟨?_, exists_rel_of_read⟩))
  rintro ⟨plain, hplain⟩ entry hmem
  obtain ⟨body, hread, -⟩ := exists_of_rel hplain entry hmem
  exact ⟨body, hread⟩

/-- What an author has signed. -/
structure AuthorLog where
  versions : List CtVersion
  acss : List AccessFile

def AuthorLog.messages (log : AuthorLog) : List Bytes :=
  log.versions.map CtVersion.message ++ log.acss.map acsMessage

/-- All that is hashed by the author, and by a reader of a version. -/
def AuthorLog.inputs (log : AuthorLog) (s : CtVersion) : List Bytes :=
  log.versions.flatMap CtVersion.inputs ++ s.inputs

/-- A version with its files was signed. -/
def AuthorLog.SignedFiles (log : AuthorLog) (files : CtMap) : Prop :=
  ∃ s ∈ log.versions, s.files = files

/-- A version as it is served, with a signature. -/
def CtVersion.served (s : CtVersion) (sig : String) : CtRepo :=
  ⟨s.rid, s.files, s.acs, ⟨s.uid, sig⟩⟩

/-- Whatever signature a version is served with, a reader accepts it only if its files were signed.
There are no signatures but those over messages of the log. -/
def AcceptsOnlySigned (log : AuthorLog) (m : Member) (vk : Bytes) (v : Variant) (s : CtVersion) :
    Prop :=
  ∀ sig, (SignedBy vk sig s.message → s.message ∈ log.messages) →
    (∃ plain, pull m (s.served sig) vk v = .ok plain) → log.SignedFiles s.files

/-- The files of a version were signed, or neither a version alike nor an access file with the
same message was. -/
def BoundByLog (log : AuthorLog) (s : CtVersion) : Prop :=
  log.SignedFiles s.files ∨
    (∀ s' ∈ log.versions, ¬ s'.Alike s) ∧ ∀ acs ∈ log.acss, acsMessage acs ≠ s.message

/-- The author signed the message of a version exactly if it signed a version alike, or an access
file with this message. -/
theorem message_mem_messages_iff (hlen : ∀ bytes, (SgitPrimitives.digest bytes).length = 32)
    {log : AuthorLog} {s : CtVersion}
    (hinj : Set.InjOn SgitPrimitives.digest {input | input ∈ log.inputs s}) :
    s.message ∈ log.messages ↔
      (∃ s' ∈ log.versions, s'.Alike s) ∨ ∃ acs ∈ log.acss, acsMessage acs = s.message := by
  -- versions and access files are signed with one key, so the log has messages of both
  rw [AuthorLog.messages, List.mem_append, List.mem_map, List.mem_map]
  refine or_congr_left (exists_congr fun s' => and_congr_right fun hs' => ?_)
  refine CtVersion.message_eq_iff_alike hlen hinj (fun input hin => ?_) fun input hin => ?_
  · exact List.mem_append_left _ (List.mem_flatMap.mpr ⟨s', hs', hin⟩)
  · exact List.mem_append_right _ hin

section Host

variable {log : AuthorLog} {m : Member} {vk sk : Bytes} {v : Variant} {s : CtVersion}

/-- What binds a version keeps a host from passing it off. -/
theorem BoundByLog.acceptsOnlySigned (h : BoundByLog log s)
    (hlen : ∀ bytes, (SgitPrimitives.digest bytes).length = 32)
    (hinj : Set.InjOn SgitPrimitives.digest {input | input ∈ log.inputs s}) :
    AcceptsOnlySigned log m vk v s := by
  intro sig hunforged hpull
  rcases h with hsigned | ⟨hunlike, hfresh⟩
  · exact hsigned
  · obtain ⟨-, -, htag, -⟩ := exists_pull_iff.mp hpull
    rcases (message_mem_messages_iff hlen hinj).mp (hunforged htag) with
      ⟨s', hs', halike⟩ | ⟨acs, hacs, heq⟩
    · exact absurd halike (hunlike s' hs')
    · exact absurd heq (hfresh acs hacs)

/-- A host passes unsigned files off with the signature of anything of the same message, to every
reader that can read them. -/
theorem AcceptsOnlySigned.boundByLog
    (h : AcceptsOnlySigned log m (SgitPrimitives.verifyingKey sk) v s)
    (hlen : ∀ bytes, (SgitPrimitives.digest bytes).length = 32)
    (hinj : Set.InjOn SgitPrimitives.digest {input | input ∈ log.inputs s})
    (hacs : SignedBy (SgitPrimitives.verifyingKey sk) s.acs.sig (acsMessage s.acs))
    (hwriter : s.uid ∈ s.acs.write) (hreadable : Readable m v s.rid s.files) :
    BoundByLog log s := by
  by_contra hunbound
  obtain ⟨hunsigned, hsame⟩ := not_or.mp hunbound
  have hlogged : s.message ∈ log.messages := by
    by_contra hfresh
    rw [message_mem_messages_iff hlen hinj, not_or] at hfresh
    exact hsame ⟨fun s' hs' halike => hfresh.1 ⟨s', hs', halike⟩,
      fun acs hmem heq => hfresh.2 ⟨acs, hmem, heq⟩⟩
  have htag : SignedBy (SgitPrimitives.verifyingKey sk)
      (SgitPrimitives.base64Encode (SgitPrimitives.sign sk s.message)) s.message :=
    ⟨_, SgitPrimitives.base64Decode_encode _, SgitPrimitives.verify_sign sk s.message⟩
  exact hunsigned (h _ (fun _ => hlogged) (exists_pull_iff.mpr ⟨hacs, hwriter, htag, hreadable⟩))

end Host

/-! ### Versions cut in another way -/

/-- A repository of which a host has blanked some files. -/
def CtRepo.blank (repo : CtRepo) (chosen : String → Bool) : CtRepo :=
  { repo with files := repo.files.map fun name f => if chosen name then f.blank else f }

theorem message_blank (repo : CtRepo) (chosen : String → Bool) :
    (repo.blank chosen).version.message = repo.version.message := by
  have hleaf (name : String) (f : CtFile) :
      leafText name (if chosen name then f.blank else f) = leafText name f := by
    split_ifs
    · exact leafText_blank name f
    · rfl
  simp only [CtVersion.message, CtRepo.version, CtRepo.blank]
  rw [ctRoot_map hleaf]

/-- Whatever a reader accepts of a repository by lines, it accepts with any of the files emptied. -/
theorem pull_blank {m : Member} {repo : CtRepo} {vk : Bytes} {plain : PlainMap}
    (h : pull m repo vk .line = .ok plain) (chosen : String → Bool) :
    pull m (repo.blank chosen) vk .line =
      .ok (plain.map fun name body => if chosen name then "" else body) := by
  obtain ⟨hacs, hwriter, htag, hfiles⟩ := pull_eq_ok_iff.mp h
  refine pull_eq_ok_iff.mpr ⟨hacs, hwriter, message_blank repo chosen ▸ htag, fun name => ?_⟩
  rw [CtRepo.blank, ExtTreeMap.getElem?_map, ExtTreeMap.getElem?_map]
  have hrel := hfiles name
  generalize repo.files[name]? = f?, plain[name]? = body? at hrel ⊢
  cases hrel with
  | none => exact .none
  | some hread =>
    refine .some ?_
    split_ifs
    · -- by lines a base is not read, and a blanked file has no lines
      rfl
    · exact hread

/-- After an even number of files there may be one more, that spells the access signature. -/
theorem ctRoot_of_spells_acs {files files' : CtMap} {acs : AccessFile} (heven : Even files.size)
    (hne : files.toList ≠ [])
    (hspells : files'.toList.map (fun entry => leafText entry.1 entry.2) =
      files.toList.map (fun entry => leafText entry.1 entry.2) ++ [strBytes acs.sig]) :
    ctRoot files' acs = ctRoot files acs := by
  rw [ctRoot_eq_textRoot, ctRoot_eq_textRoot, ctTexts, ctTexts, hspells, List.append_assoc,
    textRoot, textRoot]
  refine congrArg _ (build_concat_self ?_ ?_)
  · rwa [List.length_map, ExtTreeMap.length_toList]
  · rwa [ne_eq, List.map_eq_nil_iff]

/-! ### When a root binds -/

/-- The roots of two pairs of files and an access file agree exactly when their trees of texts
match, so they bind the pairs exactly when these are the same or their trees do not match. And a
reader accepts files only if they were signed when the author's log binds the served version, and
only then, if the reader can read it. -/
theorem ctRoot_binding_iff (hlen : ∀ bytes, (SgitPrimitives.digest bytes).length = 32) :
    (∀ (files files' : CtMap) (acs acs' : AccessFile),
      Set.InjOn SgitPrimitives.digest
        {input | input ∈ ctInputs files acs ++ ctInputs files' acs'} →
      (ctRoot files acs = ctRoot files' acs' ↔
        Matches SgitPrimitives.digest nodeText (ctTree files acs) (ctTree files' acs')) ∧
      ((ctRoot files acs = ctRoot files' acs' → files = files' ∧ acs.sig = acs'.sig) ↔
        (files = files' ∧ acs.sig = acs'.sig) ∨
          ¬ Matches SgitPrimitives.digest nodeText (ctTree files acs) (ctTree files' acs'))) ∧
    ∀ (log : AuthorLog) (m : Member) (sk : Bytes) (v : Variant) (s : CtVersion),
      Set.InjOn SgitPrimitives.digest {input | input ∈ log.inputs s} →
      (BoundByLog log s → AcceptsOnlySigned log m (SgitPrimitives.verifyingKey sk) v s) ∧
      (SignedBy (SgitPrimitives.verifyingKey sk) s.acs.sig (acsMessage s.acs) →
        s.uid ∈ s.acs.write → Readable m v s.rid s.files →
        (AcceptsOnlySigned log m (SgitPrimitives.verifyingKey sk) v s ↔ BoundByLog log s)) := by
  constructor
  · intro files files' acs acs' hinj
    have hroots : ctRoot files acs = ctRoot files' acs' ↔
        Matches SgitPrimitives.digest nodeText (ctTree files acs) (ctTree files' acs') := by
      rw [ctRoot_eq_textRoot, ctRoot_eq_textRoot]
      exact textRoot_eq_iff_matches hlen hinj (fun input => List.mem_append_left _)
        (fun input => List.mem_append_right _)
    exact ⟨hroots, by rw [hroots, imp_iff_or_not]⟩
  · intro log m sk v s hinj
    refine ⟨fun hbound => hbound.acceptsOnlySigned hlen hinj, fun hacs hwriter hreadable => ?_⟩
    exact ⟨fun h => h.boundByLog hlen hinj hacs hwriter hreadable,
      fun hbound => hbound.acceptsOnlySigned hlen hinj⟩

end Roots

/-! ### A line moved into the base -/

section Sample

/-- The transparent primitives, with digests of 32 bytes. -/
abbrev digestPrimitives : SgitPrimitives :=
  { transparentPrimitives with
    digest := fun bytes =>
      let value := bytes.foldl (fun value byte => value * 257 + byte.toNat + 1) 0
      (List.range 32).map fun i => UInt8.ofNat (value >>> (8 * i)) }

attribute [local instance] digestPrimitives

theorem length_digest (bytes : Bytes) : (SgitPrimitives.digest bytes).length = 32 :=
  List.length_map _

def alice : Member := ⟨"alice", [1], [2]⟩

def zeroNonces : String → FileNonces := fun _ _ _ => Vector.replicate 16 0

def signedFiles : CtMap := (∅ : CtMap).insert "a" (encryptFile [1] .line (zeroNonces "a") "x")

/-- The first version of one file with one line. -/
def signedRepo : CtRepo :=
  ⟨"r", signedFiles, ownerAcs alice, authorTag alice "r" signedFiles (ownerAcs alice)⟩

/-- What a host serves in its place. -/
def servedRepo : CtRepo := signedRepo.blank fun _ => true

def aliceLog : AuthorLog := ⟨[signedRepo.version], [signedRepo.acs]⟩

theorem injOn_aliceLog :
    Set.InjOn SgitPrimitives.digest {input | input ∈ aliceLog.inputs servedRepo.version} := by
  have h : ∀ x ∈ aliceLog.inputs servedRepo.version, ∀ y ∈ aliceLog.inputs servedRepo.version,
      SgitPrimitives.digest x = SgitPrimitives.digest y → x = y := by
    decide +kernel
  exact fun x hx y hy => h x hx y hy

theorem message_mem_aliceLog : servedRepo.version.message ∈ aliceLog.messages := by
  rw [servedRepo, message_blank]
  exact List.mem_cons_self

theorem not_signedFiles_servedRepo : ¬ aliceLog.SignedFiles servedRepo.files := by
  rintro ⟨s, hs, heq⟩
  obtain rfl := List.mem_singleton.mp hs
  have hbase := congrArg (fun files : CtMap => files["a"]?.map CtFile.base) heq
  revert hbase
  decide +kernel

theorem pull_servedRepo :
    (pull alice servedRepo alice.verifyingKey .line).toOption.map ExtTreeMap.toList =
      some [("a", "")] := by
  decide +kernel

theorem exists_pull_servedRepo :
    ∃ plain, pull alice servedRepo alice.verifyingKey .line = .ok plain := by
  obtain ⟨plain, hplain, -⟩ := Option.map_eq_some_iff.mp pull_servedRepo
  cases hpull : pull alice servedRepo alice.verifyingKey .line with
  | error e =>
    rw [hpull] at hplain
    cases hplain
  | ok plain => exact ⟨plain, rfl⟩

/-- The root does not bind, and the reader accepts what was not signed. -/
theorem not_ctRoot_binding :
    init alice "r" ((∅ : PlainMap).insert "a" "x") .line zeroNonces = .ok signedRepo ∧
      Set.InjOn SgitPrimitives.digest {input | input ∈ aliceLog.inputs servedRepo.version} ∧
      ctRoot servedRepo.files servedRepo.acs = ctRoot signedRepo.files signedRepo.acs ∧
      servedRepo.files ≠ signedRepo.files ∧
      (pull alice servedRepo alice.verifyingKey .line).toOption.map ExtTreeMap.toList =
        some [("a", "")] ∧
      ¬ AcceptsOnlySigned aliceLog alice alice.verifyingKey .line servedRepo.version := by
  refine ⟨rfl, injOn_aliceLog, by decide +kernel, fun heq => ?_, pull_servedRepo, fun h => ?_⟩
  · exact not_signedFiles_servedRepo ⟨_, List.mem_singleton_self _, heq.symm⟩
  · exact not_signedFiles_servedRepo
      (h servedRepo.tag.sig (fun _ => message_mem_aliceLog) exists_pull_servedRepo)

/-- The roots of the two versions agree, and alice's log binds the one she signed and not the one
that is served. -/
theorem ctRoot_binding_sample :
    Matches SgitPrimitives.digest nodeText (ctTree signedRepo.files signedRepo.acs)
        (ctTree servedRepo.files servedRepo.acs) ∧
      AcceptsOnlySigned aliceLog alice alice.verifyingKey .line signedRepo.version ∧
      ¬ BoundByLog aliceLog servedRepo.version := by
  have hpair : Set.InjOn SgitPrimitives.digest {input | input ∈
      ctInputs signedRepo.files signedRepo.acs ++ ctInputs servedRepo.files servedRepo.acs} := by
    refine injOn_aliceLog.mono fun input hin => ?_
    rcases List.mem_append.mp hin with hsigned | hserved
    · exact List.mem_append_left _ (List.mem_append_left _ (List.mem_cons_of_mem _ hsigned))
    · exact List.mem_append_right _ (List.mem_cons_of_mem _ hserved)
  have hsigned : Set.InjOn SgitPrimitives.digest
      {input | input ∈ aliceLog.inputs signedRepo.version} := by
    refine injOn_aliceLog.mono fun input hin => ?_
    rcases List.mem_append.mp hin with hlog | hlog
    · exact List.mem_append_left _ hlog
    · exact List.mem_append_left _ (List.mem_append_left _ hlog)
  obtain ⟨hacs, hwriter, -, hreadable⟩ := exists_pull_iff.mp exists_pull_servedRepo
  refine ⟨((ctRoot_binding_iff length_digest).1 _ _ _ _ hpair).1.mp (by decide +kernel),
    ((ctRoot_binding_iff length_digest).2 aliceLog alice alice.signer .line signedRepo.version
      hsigned).1 (.inl ⟨_, List.mem_singleton_self _, rfl⟩), fun hbound => ?_⟩
  have honly := (((ctRoot_binding_iff length_digest).2 aliceLog alice alice.signer .line
    servedRepo.version injOn_aliceLog).2 hacs hwriter hreadable).mpr hbound
  exact not_signedFiles_servedRepo
    (honly servedRepo.tag.sig (fun _ => message_mem_aliceLog) exists_pull_servedRepo)

end Sample

end SafeHub.SGit
