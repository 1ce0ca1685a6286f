import SafeHub.Lib.TreeMaps
import SafeHub.SGit.Protocol

/-!
# Correctness of the encrypted repository

A repository stores a version when each of its files holds the text of the file of that name. By
characters, a file holds the text that it is read as. By lines, each ciphertext opens to one line
of the text, so that operations on the lines of a text can be done to their ciphertexts. The first
version is stored, an update goes from one stored version to the next, and a stored version is
what is read.

## Main definitions

* `PlainTree` — files that fit into memory
* `Holds`, `Stores` — what a file and a repository store
* `updates` — a run of updates, each from the version before

## Main results

* `holds_encryptFile`, `holds_patchFile` — what an encrypted and a patched file hold
* `stores_init`, `exists_update` — the versions that are stored
* `pull_of_stores` — a stored version is read back
* `pull_of_updates` — after any number of updates the last version is read back
-/

namespace SafeHub.SGit

open EditScript TreeMaps
open Std (ExtTreeMap)

/-- Files that fit into memory. -/
structure PlainTree where
  files : PlainMap
  /-- No text is longer than `isize::MAX`. -/
  fits {name body : String} : files[name]? = some body → body.utf8ByteSize < 2 ^ 63

/-- A version, with the nonces that are drawn for it. -/
structure Version where
  tree : PlainTree
  nonces : String → FileNonces

/-- The last of some versions. -/
def latest (first : PlainTree) (versions : List Version) : PlainTree :=
  versions.foldl (fun _ version => version.tree) first

section Correctness

variable [SgitPrimitives]

/-- A ciphertext opens to a text. -/
def OpensTo (k : Bytes) (ct text : String) : Prop := openText k ct = .ok text

/-- A ciphertext file holds a text. -/
def Holds (k : Bytes) (v : Variant) (f : CtFile) (body : String) : Prop :=
  match v with
  | .char => readFile k .char f = .ok body
  | .line => List.Forall₂ (OpensTo k) f.lines (splitInclusive body)

/-- A repository of a member stores a version. -/
structure Stores (m : Member) (v : Variant) (repo : CtRepo) (plain : PlainMap) : Prop where
  files (name : String) :
    Option.Rel (Holds (m.keyFor repo.rid) v) repo.files[name]? plain[name]?
  acs : repo.acs = ownerAcs m
  tag : repo.tag = authorTag m repo.rid repo.files repo.acs

/-- A run of updates, each given the version before. -/
def updates (m : Member) (v : Variant) (repo : CtRepo) (old : PlainTree) :
    List Version → Except String CtRepo
  | [] => .ok repo
  | version :: versions => do
    let (repo, _) ← update m repo old.files version.tree.files v version.nonces
    updates m v repo version.tree versions

/-! ### Ciphertexts -/

section Files

variable {k : Bytes} {v : Variant} {nonces : FileNonces} {f : CtFile} {body old new : String}

@[simp] theorem openBytes_encode (k : Bytes) (nonce : Nonce) (pt : Bytes) :
    openBytes k (SgitPrimitives.base64Encode (enc k nonce pt)) = .ok pt := by
  rw [openBytes, SgitPrimitives.base64Decode_encode]
  exact dec_enc k nonce pt

theorem opensTo_sealText (k : Bytes) (nonce : Nonce) (text : String) :
    OpensTo k (sealText k nonce text) text := by
  refine bind_eq_ok_iff.mpr ⟨strBytes text, openBytes_encode k nonce _, ?_⟩
  rw [fromUtf8_strBytes]

/-- Every line of a text is stored as itself. -/
theorem opensTo_sealLines (k : Bytes) (nonces : ℕ → Nonce) (text : String) :
    List.Forall₂ (OpensTo k) (sealLines k nonces text) (splitInclusive text) := by
  rw [List.forall₂_iff_get]
  refine ⟨List.length_mapIdx, fun i _ _ => ?_⟩
  simp only [sealLines, List.get_eq_getElem, List.getElem_mapIdx]
  exact opensTo_sealText k _ _

/-- A file is read as what it holds. -/
theorem readFile_of_holds (h : Holds k v f body) : readFile k v f = .ok body := by
  cases v with
  | char => exact h
  | line =>
    rw [readFile, mapM_eq_ok_iff.mpr h]
    exact congrArg Except.ok concat_splitInclusive

theorem holds_encryptFile (k : Bytes) (v : Variant) (nonces : FileNonces) (body : String) :
    Holds k v (encryptFile k v nonces body) body := by
  cases v with
  | char =>
    rw [Holds, readFile, encryptFile, opensTo_sealText]
    rfl
  | line => exact opensTo_sealLines k (nonces 0) body

/-- A difference that was appended is applied last. -/
theorem readFile_append (h : readFile k .char f = .ok old) (block : String) :
    readFile k .char { f with deltas := f.deltas ++ [block] } = applyBlock k old block := by
  obtain ⟨base, hbase, hdeltas⟩ := bind_eq_ok_iff.mp h
  rw [readFile, hbase]
  change (f.deltas ++ [block]).foldlM (applyBlock k) base = applyBlock k old block
  rw [List.foldlM_append, hdeltas]
  exact bind_pure (applyBlock k old block)

/-- The operations on ciphertexts are those on lines, with what is inserted encrypted. -/
theorem foldl_patchLine_fst (entries : List (Op × ℕ)) (lines : List String) (bytes : ℕ) :
    (entries.foldl (patchLine k nonces) (lines, bytes)).1 =
      applyAll lines (entries.map fun entry => entry.1.edit (sealLines k (nonces entry.2))) := by
  induction entries generalizing lines bytes with
  | nil => rfl
  | cons entry entries ih =>
    rw [List.foldl_cons, List.map_cons, applyAll_cons, ← applyTo_eq]
    exact ih _ _

/-- The ciphertexts of the old lines become those of the new. -/
theorem opensTo_patchLines {lines : List String}
    (h : List.Forall₂ (OpensTo k) lines (splitInclusive old)) :
    List.Forall₂ (OpensTo k) (patchLines k nonces lines (comDiffLine old new)).1
      (splitInclusive new) := by
  have hdiff := applyAll_comDiffLine old new
  simp only [funext splitLines_eq] at hdiff
  rw [patchLines, foldl_patchLine_fst, ← hdiff]
  refine forall₂_applyAll h ?_
  -- an operation and its place make the ciphertexts, the operation alone the lines
  conv_rhs => rw [← List.zipIdx_map_fst 0 (comDiffLine old new), List.map_map]
  rw [List.forall₂_map_left_iff, List.forall₂_map_right_iff, List.forall₂_same]
  rintro ⟨op, i⟩ -
  cases op with
  | insert idx text => exact .insert idx (opensTo_sealLines k _ text)
  | delete idx len => exact .delete idx len

theorem holds_patchFile (h : Holds k v f old) (hold : old.utf8ByteSize < 2 ^ 63)
    (hnew : new.utf8ByteSize < 2 ^ 63) (cost : UpdateCost) :
    Holds k v (patchFile k v nonces old new f cost).1 new := by
  cases v with
  | char =>
    refine (readFile_append h _).trans (bind_eq_ok_iff.mpr ⟨_, openBytes_encode k _ _, ?_⟩)
    rw [decodeOps_encodeOps (encodable_of_comDiffChar hold hnew)]
    exact congrArg Except.ok (applyChars_comDiffChar old new)
  | line => exact opensTo_patchLines h

end Files

/-! ### The protocol -/

section Runs

variable {m : Member} {v : Variant} {k : Bytes} {repo : CtRepo} {files : CtMap} {old : PlainTree}
variable (nonces : String → FileNonces) (cost : UpdateCost)

/-- The first version is stored. -/
theorem stores_init (m : Member) (rid : String) (plain : PlainMap) (v : Variant) :
    ∃ repo, init m rid plain v nonces = .ok repo ∧ Stores m v repo plain := by
  refine ⟨_, rfl, ?_, rfl, rfl⟩
  intro name
  dsimp only
  rw [getElem?_foldl_insert_toList fun name body => encryptFile (m.keyFor rid) v (nonces name) body]
  cases plain[name]? with
  | none => exact .none
  | some body => exact .some (holds_encryptFile _ _ _ body)

/-- One file of an update is stored, and the others stay. -/
theorem exists_updateFile {name newBody : String}
    (hfile : Option.Rel (Holds k v) files[name]? old.files[name]?)
    (hnew : newBody.utf8ByteSize < 2 ^ 63) :
    ∃ out, updateFile k v nonces old.files (files, cost) (name, newBody) = .ok out ∧
      (∃ f, out.1[name]? = some f ∧ Holds k v f newBody) ∧
      ∀ other ≠ name, out.1[other]? = files[other]? := by
  rw [updateFile]
  generalize hold : old.files[name]? = oldBody? at hfile
  generalize hf : files[name]? = f? at hfile
  cases hfile with
  | none =>
    refine ⟨_, rfl, ⟨_, ExtTreeMap.getElem?_insert_self, holds_encryptFile _ _ _ _⟩, ?_⟩
    intro other hother
    exact getElem?_insert_of_ne hother
  | @some f oldBody hholds =>
    dsimp only
    split_ifs with hchanged
    · refine ⟨_, rfl, ⟨_, ExtTreeMap.getElem?_insert_self, ?_⟩, ?_⟩
      · exact holds_patchFile hholds (old.fits hold) hnew cost
      · intro other hother
        exact getElem?_insert_of_ne hother
    · rw [not_not] at hchanged
      exact ⟨_, rfl, ⟨f, hf, hchanged ▸ hholds⟩, fun _ _ => rfl⟩

/-- The files of an update are stored, one after the other, and the others stay. -/
theorem exists_updateFiles {entries : List (String × String)}
    (hkeys : (entries.map Prod.fst).Nodup)
    (hfiles : ∀ entry ∈ entries, Option.Rel (Holds k v) files[entry.1]? old.files[entry.1]?)
    (hnew : ∀ entry ∈ entries, entry.2.utf8ByteSize < 2 ^ 63) :
    ∃ out, entries.foldlM (updateFile k v nonces old.files) (files, cost) = .ok out ∧
      (∀ entry ∈ entries, ∃ f, out.1[entry.1]? = some f ∧ Holds k v f entry.2) ∧
      ∀ other : String, other ∉ entries.map Prod.fst → out.1[other]? = files[other]? := by
  -- no entry touches the file of another one, as their names differ
  induction entries generalizing files cost with
  | nil => exact ⟨_, rfl, List.forall_mem_nil _, fun _ _ => rfl⟩
  | cons entry entries ih =>
    obtain ⟨hfile, hrest⟩ := List.forall_mem_cons.mp hfiles
    obtain ⟨hbody, hbodies⟩ := List.forall_mem_cons.mp hnew
    rw [List.map_cons, List.nodup_cons] at hkeys
    obtain ⟨⟨files', cost'⟩, hstep, hstored, hothers⟩ :=
      exists_updateFile nonces cost hfile hbody
    have hcome : ∀ next ∈ entries, next.1 ≠ entry.1 := by
      intro next hmem heq
      exact hkeys.1 (heq ▸ List.mem_map_of_mem hmem)
    have hnext : ∀ next ∈ entries,
        Option.Rel (Holds k v) files'[next.1]? old.files[next.1]? := by
      intro next hmem
      rw [hothers next.1 (hcome next hmem)]
      exact hrest next hmem
    obtain ⟨out, hloop, hstores, hstay⟩ := ih cost' hkeys.2 hnext hbodies
    refine ⟨out, ?_, List.forall_mem_cons.mpr ⟨?_, hstores⟩, ?_⟩
    · rw [List.foldlM_cons, hstep]
      exact hloop
    · rw [hstay entry.1 hkeys.1]
      exact hstored
    · intro other hother
      rw [List.map_cons, List.mem_cons, not_or] at hother
      rw [hstay other hother.2, hothers other hother.1]

/-- An update of files that hold a version makes them hold the next one, and signs it. -/
theorem exists_update_holds {m : Member}
    (h : ∀ name : String,
      Option.Rel (Holds (m.keyFor repo.rid) v) repo.files[name]? old.files[name]?)
    (new : PlainTree) :
    ∃ files cost, update m repo old.files new.files v nonces = .ok
        ({ repo with files := files, tag := authorTag m repo.rid files repo.acs }, cost) ∧
      ∀ name : String, Option.Rel (Holds (m.keyFor repo.rid) v) files[name]? new.files[name]? := by
  obtain ⟨⟨files, cost⟩, hloop, hstores, hstay⟩ :=
    exists_updateFiles nonces ⟨0, 0, 0, 0⟩ nodup_map_fst_toList (fun entry _ => h entry.1)
      fun entry hmem => new.fits (ExtTreeMap.mem_toList_iff_getElem?_eq_some.mp hmem)
  refine ⟨_, _, bind_eq_ok_iff.mpr ⟨_, hloop, rfl⟩, ?_⟩
  intro name
  -- removals come last, and touch only names that the new version lacks
  rw [getElem?_foldl_erase]
  simp only [mem_removed_iff]
  cases hbody : new.files[name]? with
  | some body =>
    obtain ⟨f, hf, hholds⟩ :=
      hstores (name, body) (ExtTreeMap.mem_toList_iff_getElem?_eq_some.mpr hbody)
    have hkept : ¬ (old.files[name]? ≠ none ∧ some body = none) := by
      rintro ⟨-, hgone⟩
      cases hgone
    rw [if_neg hkept, hf]
    exact .some hholds
  | none =>
    split_ifs with hremoved
    · exact .none
    · -- a file that neither version has was not there before
      have hold : old.files[name]? = none := by
        by_contra hne
        exact hremoved ⟨hne, rfl⟩
      have hfile := h name
      rw [hold] at hfile
      rw [hstay name (mem_map_fst_toList.not.mpr (not_not.mpr hbody))]
      exact hfile

/-- An update stores the next version. -/
theorem exists_update (h : Stores m v repo old.files) (new : PlainTree) :
    ∃ out, update m repo old.files new.files v nonces = .ok out ∧
      Stores m v out.1 new.files := by
  obtain ⟨files, cost, hupdate, hfiles⟩ := exists_update_holds nonces h.files new
  exact ⟨_, hupdate, hfiles, h.acs, rfl⟩

/-- A stored version is what is read. -/
theorem pull_of_stores {plain : PlainMap} (h : Stores m v repo plain) :
    pull m repo m.verifyingKey v = .ok plain := by
  have hacs : repo.acs.sig =
      SgitPrimitives.base64Encode (SgitPrimitives.sign m.signer (acsMessage repo.acs)) := by
    rw [h.acs]
    rfl
  have htag : repo.tag.sig = signRoot m repo.rid (ctRoot repo.files repo.acs) := by
    rw [h.tag]
    rfl
  have hauthor : repo.tag.uid = m.uid := by
    rw [h.tag]
    rfl
  have hwriter : repo.acs.write.contains m.uid = true := by
    rw [h.acs]
    exact List.contains_iff_mem.mpr List.mem_cons_self
  -- the files are read only after both signatures have been checked
  have hfiles := foldlM_insert_toList fun name =>
    rel_imp (h.files name) fun _ _ => readFile_of_holds
  refine bind_eq_ok_iff.mpr ⟨SgitPrimitives.sign m.signer (acsMessage repo.acs), ?_, ?_⟩
  · rw [hacs, SgitPrimitives.base64Decode_encode]
    rfl
  rw [Member.verifyingKey, SgitPrimitives.verify_sign, hauthor, hwriter]
  refine bind_eq_ok_iff.mpr ⟨SgitPrimitives.sign m.signer
    (rootMessage repo.rid m.uid (ctRoot repo.files repo.acs)), ?_, ?_⟩
  · rw [htag, signRoot, SgitPrimitives.base64Decode_encode]
    rfl
  rw [SgitPrimitives.verify_sign]
  exact hfiles

/-- After any number of updates the last version is read back. -/
theorem exists_updates (h : Stores m v repo old.files) (versions : List Version) :
    ∃ out, updates m v repo old versions = .ok out ∧
      Stores m v out (latest old versions).files := by
  induction versions generalizing repo old with
  | nil => exact ⟨repo, rfl, h⟩
  | cons version versions ih =>
    obtain ⟨⟨next, cost⟩, hupdate, hstores⟩ := exists_update version.nonces h version.tree
    obtain ⟨out, hrun, hout⟩ := ih hstores
    exact ⟨out, bind_eq_ok_iff.mpr ⟨_, hupdate, hrun⟩, hout⟩

end Runs

/-- For both variants, every first version and every run of updates of any length by one author,
all updates succeed and the last version is read back. -/
theorem pull_of_updates (m : Member) (v : Variant) (rid : String) (first : Version)
    (versions : List Version) :
    ∃ repo out, init m rid first.tree.files v first.nonces = .ok repo ∧
      updates m v repo first.tree versions = .ok out ∧
      pull m out m.verifyingKey v = .ok (latest first.tree versions).files := by
  obtain ⟨repo, hinit, hstores⟩ := stores_init first.nonces m rid first.tree.files v
  obtain ⟨out, hupdates, hout⟩ := exists_updates hstores versions
  exact ⟨repo, out, hinit, hupdates, pull_of_stores hout⟩

end Correctness

/-! ### A run -/

section Sample

/-- Primitives that hide nothing, and write every byte as the character of that code point. -/
abbrev transparentPrimitives : SgitPrimitives where
  hkdf mk _ := mk
  keystream _ _ _ := 0
  digest bytes := bytes.take 1
  verifyingKey sk := sk
  sign sk message := sk ++ message
  verify vk message sig := vk ++ message == sig
  verify_sign _ _ := beq_self_eq_true _
  base64Encode bytes := String.ofList (bytes.map Char.ofUInt8)
  base64Decode bytes :=
    match fromUtf8 bytes with
    | some text => .ok (text.toList.map Char.toUInt8)
    | none => .error "invalid symbol"
  base64Decode_encode := by
    intro bytes
    have hbyte : ∀ b : UInt8, (Char.ofUInt8 b).toUInt8 = b := fun b => UInt8.toUInt8_toUInt32 b
    rw [fromUtf8_strBytes]
    dsimp only
    rw [String.toList_ofList, List.map_map]
    exact congrArg Except.ok ((List.map_congr_left fun b _ => hbyte b).trans (List.map_id bytes))

attribute [local instance] transparentPrimitives

/-- A line changes, and a file is added. -/
def sampleRun (m : Member) (nonces : String → FileNonces) :
    Except String (List (String × String)) := do
  let old : PlainMap := (∅ : PlainMap).insert "a" "x\ny"
  let new : PlainMap := ((∅ : PlainMap).insert "a" "x\nz").insert "b" "w"
  let repo ← init m "r" old .line nonces
  let (repo, _) ← update m repo old new .line nonces
  let plain ← pull m repo m.verifyingKey .line
  return plain.toList

example : (sampleRun ⟨"alice", [1], [2]⟩ fun _ _ _ => Vector.replicate 16 0).toOption =
    some [("a", "x\nz"), ("b", "w")] := by
  decide +kernel

end Sample

end SafeHub.SGit
