import SafeHub.Lib.Perform
import SafeHub.SGit.Correctness

/-!
# An update in place

An update changes the repository that it is given while it goes over the new files in the order of
their names, and returns at the first changed file that has no ciphertext. The files before that
one have been written by then, and the tag is the old one.

## Main definitions

* `updateInPlace` — what an update leaves of its repository, and what it returns
* `writtenCt`, `Missing` — what is written for a file, and when it cannot be
* `UpdateAtomic` — an update that fails leaves the repository as it was

## Main results

* `performAll_updateFiles` — the ciphertexts after some files
* `updateAtomic_iff` — when a failed update leaves the repository
* `comDiffLine_patch` — differences by lines, of texts and of ciphertexts
-/

namespace SafeHub.SGit

open Perform TreeMaps
open Std (ExtTreeMap)

section InPlace

variable [SgitPrimitives]

/-- `update`, with what it leaves of the repository when it fails as well. -/
def updateInPlace (m : Member) (repo : CtRepo) (oldPlain newPlain : PlainMap) (v : Variant)
    (nonces : String → FileNonces) : CtRepo × Except String UpdateCost :=
  let k := m.keyFor repo.rid
  let loop := newPlain.toList.map fun entry state => updateFile k v nonces oldPlain state entry
  match tryAll loop (repo.files, ⟨0, 0, 0, 0⟩) with
  | ((files, _), .error e) => ({ repo with files := files }, .error e)
  | ((files, cost), .ok ()) =>
    -- files that the new version lacks
    let files := (oldPlain.keys.filter fun name => !newPlain.contains name).foldl
      (fun files name => files.erase name) files
    ({ repo with files := files, tag := authorTag m repo.rid files repo.acs },
      .ok { cost with storedBytes := (files.values.map CtFile.storedBytes).sum })

/-- The ciphertext that is written for a file, from the one that is there. -/
def writtenCt (k : Bytes) (v : Variant) (nonces : FileNonces) (oldBody : Option String)
    (newBody : String) (found : Option CtFile) : Option CtFile :=
  match oldBody with
  | none => some (encryptFile k v nonces newBody)
  | some oldBody =>
    if oldBody ≠ newBody then
      found.map fun f => (patchFile k v nonces oldBody newBody f ⟨0, 0, 0, 0⟩).1
    else none

/-- A file has changed, and there is no ciphertext to change. -/
def Missing (files : CtMap) (oldPlain : PlainMap) (entry : String × String) : Prop :=
  (∃ oldBody, oldPlain[entry.1]? = some oldBody ∧ oldBody ≠ entry.2) ∧ files[entry.1]? = none

variable {k : Bytes} {v : Variant} {nonces : String → FileNonces} {oldPlain : PlainMap}
variable {files files' : CtMap} {cost cost' : UpdateCost} {entries : List (String × String)}

/-- What is written for an entry into some files. -/
abbrev writtenFor (k : Bytes) (v : Variant) (nonces : String → FileNonces) (oldPlain : PlainMap)
    (files : CtMap) (entry : String × String) : Option CtFile :=
  writtenCt k v (nonces entry.1) oldPlain[entry.1]? entry.2 files[entry.1]?

/-- One file is missing, or what is written for it is there. -/
theorem updateFile_cases (entry : String × String) :
    (Missing files oldPlain entry ∧
      ∃ e, updateFile k v nonces oldPlain (files, cost) entry = .error e) ∨
    (¬ Missing files oldPlain entry ∧ ∃ files' cost',
      updateFile k v nonces oldPlain (files, cost) entry = .ok (files', cost') ∧
        files'[entry.1]? = (writtenFor k v nonces oldPlain files entry).or files[entry.1]? ∧
        ∀ other ≠ entry.1, files'[other]? = files[other]?) := by
  obtain ⟨name, newBody⟩ := entry
  rw [updateFile]
  dsimp only [writtenFor]
  cases hold : oldPlain[name]? with
  | none =>
    have hthere : ¬ Missing files oldPlain (name, newBody) := by
      rintro ⟨⟨oldBody, hbody, -⟩, -⟩
      cases hold.symm.trans hbody
    refine .inr ⟨hthere, _, _, rfl, ?_, fun other hother => getElem?_insert_of_ne hother⟩
    exact ExtTreeMap.getElem?_insert_self
  | some oldBody =>
    dsimp only [writtenCt]
    split_ifs with hchanged
    · cases hf : files[name]? with
      | none => exact .inl ⟨⟨⟨oldBody, hold, hchanged⟩, hf⟩, _, rfl⟩
      | some f =>
        have hthere : ¬ Missing files oldPlain (name, newBody) :=
          fun h => by cases hf.symm.trans h.2
        refine .inr ⟨hthere, _, _, rfl, ?_, fun other hother => getElem?_insert_of_ne hother⟩
        rw [ExtTreeMap.getElem?_insert_self]
        cases v <;> rfl
    · have hthere : ¬ Missing files oldPlain (name, newBody) := by
        rintro ⟨⟨body, hbody, hne⟩, -⟩
        exact hchanged (Option.some.inj (hold.symm.trans hbody) ▸ hne)
      exact .inr ⟨hthere, files, cost, rfl, rfl, fun _ _ => rfl⟩

/-- The files of an update, as operations. -/
abbrev updateOps (k : Bytes) (v : Variant) (nonces : String → FileNonces) (oldPlain : PlainMap)
    (entries : List (String × String)) :
    List (CtMap × UpdateCost → Except String (CtMap × UpdateCost)) :=
  entries.map fun entry state => updateFile k v nonces oldPlain state entry

/-- The ciphertexts after some files of different names, none of which was missing. -/
theorem performAll_updateFiles (hkeys : (entries.map Prod.fst).Nodup)
    (h : performAll (updateOps k v nonces oldPlain entries) (files, cost) =
      ((files', cost'), true)) :
    (∀ entry ∈ entries, ¬ Missing files oldPlain entry ∧
      files'[entry.1]? = (writtenFor k v nonces oldPlain files entry).or files[entry.1]?) ∧
    ∀ name : String, name ∉ entries.map Prod.fst → files'[name]? = files[name]? := by
  induction entries generalizing files cost with
  | nil =>
    cases h
    exact ⟨List.forall_mem_nil _, fun _ _ => rfl⟩
  | cons entry entries ih =>
    rw [List.map_cons, List.nodup_cons] at hkeys
    obtain ⟨⟨next, nextCost⟩, hstep, hrest⟩ := performAll_cons_eq.mp h
    rcases @updateFile_cases _ k v nonces oldPlain files cost entry with
      ⟨-, e, hfailed⟩ | ⟨hthere, files₁, cost₁, hwritten, hfile, hothers⟩
    · cases hfailed.symm.trans hstep
    obtain ⟨rfl, rfl⟩ := Prod.mk.inj (Except.ok.inj (hwritten.symm.trans hstep))
    obtain ⟨hfiles, hstay⟩ := ih hkeys.2 hrest
    refine ⟨List.forall_mem_cons.mpr ⟨⟨hthere, ?_⟩, ?_⟩, ?_⟩
    · rw [hstay entry.1 hkeys.1, hfile]
    · -- no other file has the name of the first
      intro other hmem
      have hother : other.1 ≠ entry.1 := by
        intro heq
        exact hkeys.1 (heq ▸ List.mem_map_of_mem hmem)
      have hread := hfiles other hmem
      rwa [writtenFor, Missing, hothers other.1 hother] at hread
    · intro name hname
      rw [List.map_cons, List.mem_cons, not_or] at hname
      rw [hstay name hname.2, hothers name hname.1]

theorem exists_performAll_updateFiles (hkeys : (entries.map Prod.fst).Nodup)
    (h : ∀ entry ∈ entries, ¬ Missing files oldPlain entry) :
    ∃ files' cost', performAll (updateOps k v nonces oldPlain entries) (files, cost) =
      ((files', cost'), true) := by
  induction entries generalizing files cost with
  | nil => exact ⟨files, cost, rfl⟩
  | cons entry entries ih =>
    rw [List.map_cons, List.nodup_cons] at hkeys
    obtain ⟨hthere, hrest⟩ := List.forall_mem_cons.mp h
    rcases @updateFile_cases _ k v nonces oldPlain files cost entry with
      ⟨hmissing, -⟩ | ⟨-, files₁, cost₁, hwritten, -, hothers⟩
    · exact absurd hmissing hthere
    have hnext : ∀ other ∈ entries, ¬ Missing files₁ oldPlain other := by
      intro other hmem
      have hother : other.1 ≠ entry.1 := by
        intro heq
        exact hkeys.1 (heq ▸ List.mem_map_of_mem hmem)
      rw [Missing, hothers other.1 hother]
      exact hrest other hmem
    obtain ⟨files', cost', hloop⟩ := @ih files₁ cost₁ hkeys.2 hnext
    exact ⟨files', cost', performAll_cons_eq.mpr ⟨_, hwritten, hloop⟩⟩

variable {m : Member} {repo : CtRepo} {newPlain : PlainMap}

/-- An update that fails has written the files before the first one that is missing. -/
theorem updateInPlace_eq_error_iff {e : String} {left : CtRepo} :
    updateInPlace m repo oldPlain newPlain v nonces = (left, .error e) ↔
      ∃ front failing back files' cost', newPlain.toList = front ++ failing :: back ∧
        performAll (updateOps (m.keyFor repo.rid) v nonces oldPlain front)
          (repo.files, ⟨0, 0, 0, 0⟩) = ((files', cost'), true) ∧
        updateFile (m.keyFor repo.rid) v nonces oldPlain (files', cost') failing = .error e ∧
        left = { repo with files := files' } := by
  have hloop : updateInPlace m repo oldPlain newPlain v nonces = (left, .error e) ↔
      ∃ state, tryAll (updateOps (m.keyFor repo.rid) v nonces oldPlain newPlain.toList)
        (repo.files, ⟨0, 0, 0, 0⟩) = (state, .error e) ∧ left = { repo with files := state.1 } := by
    rw [updateInPlace]
    dsimp only
    generalize tryAll (updateOps (m.keyFor repo.rid) v nonces oldPlain newPlain.toList)
      (repo.files, ⟨0, 0, 0, 0⟩) = result
    obtain ⟨⟨files', cost'⟩, e' | _⟩ := result
    · constructor
      · intro h
        obtain ⟨rfl, he⟩ := Prod.mk.inj h
        obtain rfl := Except.error.inj he
        exact ⟨_, rfl, rfl⟩
      · rintro ⟨state, h, rfl⟩
        obtain ⟨rfl, he⟩ := Prod.mk.inj h
        obtain rfl := Except.error.inj he
        rfl
    · refine iff_of_false (fun h => ?_) ?_
      · cases (Prod.mk.inj h).2
      · rintro ⟨state, h, -⟩
        cases (Prod.mk.inj h).2
  rw [hloop]
  constructor
  · rintro ⟨⟨files', cost'⟩, hrun, rfl⟩
    -- the steps before the failing one are those of the names in front of it
    obtain ⟨ops, op, more, hops, hfront, hfailed⟩ := tryAll_eq_error_iff.mp hrun
    obtain ⟨front, rest, hlist, rfl, hrest⟩ := List.map_eq_append_iff.mp hops
    obtain ⟨failing, back, rfl, rfl, -⟩ := List.map_eq_cons_iff.mp hrest
    exact ⟨front, failing, back, files', cost', hlist, hfront, hfailed, rfl⟩
  · rintro ⟨front, failing, back, files', cost', hlist, hfront, hfailed, rfl⟩
    have hops : updateOps (m.keyFor repo.rid) v nonces oldPlain newPlain.toList =
        updateOps (m.keyFor repo.rid) v nonces oldPlain front ++
          (fun state => updateFile (m.keyFor repo.rid) v nonces oldPlain state failing) ::
            updateOps (m.keyFor repo.rid) v nonces oldPlain back := by
      rw [updateOps, hlist, List.map_append, List.map_cons]
    exact ⟨(files', cost'), tryAll_eq_error_iff.mpr ⟨_, _, _, hops, hfront, hfailed⟩, rfl⟩

/-- An update that succeeds leaves the repository that it is to make. -/
theorem updateInPlace_eq_ok_iff {out : CtRepo × UpdateCost} :
    updateInPlace m repo oldPlain newPlain v nonces = (out.1, .ok out.2) ↔
      update m repo oldPlain newPlain v nonces = .ok out := by
  rw [updateInPlace, update]
  dsimp only
  generalize hrun : tryAll (updateOps (m.keyFor repo.rid) v nonces oldPlain newPlain.toList)
    (repo.files, ⟨0, 0, 0, 0⟩) = result
  obtain ⟨⟨files', cost'⟩, e | _⟩ := result
  · refine iff_of_false (fun h => ?_) fun h => ?_
    · cases (Prod.mk.inj h).2
    · obtain ⟨state, hloop, -⟩ := bind_eq_ok_iff.mp h
      have hend := tryAll_eq_ok_iff.mpr (performAll_map_eq_true_iff.mpr hloop)
      cases (Prod.mk.inj (hrun.symm.trans hend)).2
  · rw [performAll_map_eq_true_iff.mp (tryAll_eq_ok_iff.mp hrun)]
    constructor
    · intro h
      obtain ⟨hrepo, hcost⟩ := Prod.mk.inj h
      exact congrArg Except.ok (Prod.ext hrepo (Except.ok.inj hcost))
    · intro h
      obtain rfl := Except.ok.inj h
      rfl

/-- An update that fails leaves the repository as it was. -/
def UpdateAtomic (m : Member) (repo : CtRepo) (oldPlain newPlain : PlainMap) (v : Variant)
    (nonces : String → FileNonces) : Prop :=
  ∀ left e, updateInPlace m repo oldPlain newPlain v nonces = (left, .error e) → left = repo

/-- It does exactly if, before the first file that is missing, nothing is written that is not
there. -/
theorem updateAtomic_iff (m : Member) (repo : CtRepo) (oldPlain newPlain : PlainMap) (v : Variant)
    (nonces : String → FileNonces) : UpdateAtomic m repo oldPlain newPlain v nonces ↔
      ∀ front failing back, newPlain.toList = front ++ failing :: back →
        (∀ entry ∈ front, ¬ Missing repo.files oldPlain entry) →
        Missing repo.files oldPlain failing →
        ∀ entry ∈ front, ∀ f,
          writtenFor (m.keyFor repo.rid) v nonces oldPlain repo.files entry = some f →
            repo.files[entry.1]? = some f := by
  -- the names of the files before one are not its name, nor each other's
  have hnames {front back : List (String × String)} {failing : String × String}
      (hlist : newPlain.toList = front ++ failing :: back) :
      (front.map Prod.fst).Nodup ∧ failing.1 ∉ front.map Prod.fst := by
    have hnodup := @nodup_map_fst_toList String String compare _ _ newPlain
    rw [hlist, List.map_append, List.map_cons, List.nodup_append] at hnodup
    refine ⟨hnodup.1, fun hmem => ?_⟩
    exact hnodup.2.2 _ hmem _ List.mem_cons_self rfl
  constructor
  · intro hatomic front failing back hlist hthere hmissing entry hmem f hwritten
    obtain ⟨hkeys, hapart⟩ := hnames hlist
    obtain ⟨files', cost', hloop⟩ := @exists_performAll_updateFiles _ (m.keyFor repo.rid) v nonces
      oldPlain repo.files ⟨0, 0, 0, 0⟩ front hkeys hthere
    obtain ⟨hfiles, hstay⟩ := performAll_updateFiles hkeys hloop
    have hfailing : Missing files' oldPlain failing := by
      rw [Missing, hstay failing.1 hapart]
      exact hmissing
    rcases @updateFile_cases _ (m.keyFor repo.rid) v nonces oldPlain files' cost' failing with
      ⟨-, e, hfailed⟩ | ⟨hthere', -⟩
    · have hleft := hatomic _ e (updateInPlace_eq_error_iff.mpr
        ⟨front, failing, back, files', cost', hlist, hloop, hfailed, rfl⟩)
      have hsame : files' = repo.files := congrArg CtRepo.files hleft
      have hfile := (hfiles entry hmem).2
      rw [hsame, hwritten, Option.some_or] at hfile
      exact hfile
    · exact absurd hfailing hthere'
  · intro h left e herror
    obtain ⟨front, failing, back, files', cost', hlist, hloop, hfailed, rfl⟩ :=
      updateInPlace_eq_error_iff.mp herror
    obtain ⟨hkeys, hapart⟩ := hnames hlist
    obtain ⟨hfiles, hstay⟩ := performAll_updateFiles hkeys hloop
    have hmissing : Missing repo.files oldPlain failing := by
      rcases @updateFile_cases _ (m.keyFor repo.rid) v nonces oldPlain files' cost' failing with
        ⟨hmissing, -⟩ | ⟨-, written, spent, hwritten, -⟩
      · rwa [Missing, hstay failing.1 hapart] at hmissing
      · cases hfailed.symm.trans hwritten
    have hsame : files' = repo.files := by
      apply ExtTreeMap.ext_getElem?
      intro name
      by_cases hname : name ∈ front.map Prod.fst
      · obtain ⟨entry, hmem, rfl⟩ := List.mem_map.mp hname
        rw [(hfiles entry hmem).2]
        cases hwritten : writtenFor (m.keyFor repo.rid) v nonces oldPlain repo.files entry with
        | none => rfl
        | some f =>
          rw [Option.some_or]
          exact (h front failing back hlist (fun entry hmem => (hfiles entry hmem).1) hmissing
            entry hmem f hwritten).symm
      · exact hstay name hname
    rw [hsame]

/-- An update that succeeds has written all files. -/
theorem getElem?_of_update {out : CtRepo × UpdateCost} {name body : String}
    (h : update m repo oldPlain newPlain v nonces = .ok out) (hbody : newPlain[name]? = some body) :
    out.1.files[name]? =
      (writtenFor (m.keyFor repo.rid) v nonces oldPlain repo.files (name, body)).or
        repo.files[name]? := by
  obtain ⟨⟨files', cost'⟩, hloop, hout⟩ := bind_eq_ok_iff.mp h
  obtain rfl := Except.ok.inj hout
  have hrun := performAll_map_eq_true_iff.mpr hloop
  obtain ⟨hfiles, -⟩ := performAll_updateFiles nodup_map_fst_toList hrun
  have hmem := ExtTreeMap.mem_toList_iff_getElem?_eq_some.mpr hbody
  dsimp only
  rw [getElem?_foldl_erase, if_neg, (hfiles _ hmem).2]
  rw [mem_removed_iff, hbody]
  rintro ⟨-, hgone⟩
  cases hgone

/-- An update goes through exactly when no changed file lacks its ciphertext. -/
theorem exists_update_iff : (∃ out, update m repo oldPlain newPlain v nonces = .ok out) ↔
    ∀ entry ∈ newPlain.toList, ¬ Missing repo.files oldPlain entry := by
  constructor
  · rintro ⟨out, h⟩ entry hmem
    obtain ⟨⟨files', cost'⟩, hloop, -⟩ := bind_eq_ok_iff.mp h
    have hrun := performAll_map_eq_true_iff.mpr hloop
    exact ((performAll_updateFiles nodup_map_fst_toList hrun).1 entry hmem).1
  · intro h
    obtain ⟨files', cost', hrun⟩ := @exists_performAll_updateFiles _ (m.keyFor repo.rid) v nonces
      oldPlain repo.files ⟨0, 0, 0, 0⟩ _ nodup_map_fst_toList h
    exact ⟨_, bind_eq_ok_iff.mpr ⟨_, performAll_map_eq_true_iff.mp hrun, rfl⟩⟩

/-- For all texts, the operations of the difference by lines make the new one of the old; and an
update by lines in which no changed file lacks its ciphertext goes through, and makes of
ciphertexts of the lines of the old text ciphertexts of the lines of the new, which are read as
the new text. -/
theorem comDiffLine_patch (old new : String) : applyLines old (comDiffLine old new) = new ∧
    ∀ (m : Member) (repo : CtRepo) (oldPlain newPlain : PlainMap) (nonces : String → FileNonces),
      (∀ entry ∈ newPlain.toList, ¬ Missing repo.files oldPlain entry) →
      ∃ out, update m repo oldPlain newPlain .line nonces = .ok out ∧
        updateInPlace m repo oldPlain newPlain .line nonces = (out.1, .ok out.2) ∧
        ∀ (name : String) (f : CtFile), oldPlain[name]? = some old → newPlain[name]? = some new →
          repo.files[name]? = some f →
          List.Forall₂ (OpensTo (m.keyFor repo.rid)) f.lines (splitInclusive old) →
          ∃ f', out.1.files[name]? = some f' ∧
            List.Forall₂ (OpensTo (m.keyFor repo.rid)) f'.lines (splitInclusive new) ∧
            readFile (m.keyFor repo.rid) .line f' = .ok new := by
  refine ⟨applyLines_comDiffLine old new, ?_⟩
  intro m repo oldPlain newPlain nonces hthere
  obtain ⟨out, hupdate⟩ := exists_update_iff.mpr hthere
  refine ⟨out, hupdate, updateInPlace_eq_ok_iff.mpr hupdate, ?_⟩
  intro name f hold hnew hf hlines
  have hfile := getElem?_of_update hupdate hnew
  dsimp only [writtenFor] at hfile
  rw [hold, hf, writtenCt] at hfile
  split_ifs at hfile with hchanged
  · have hopens := @opensTo_patchLines _ (m.keyFor repo.rid) (nonces name) old new _ hlines
    exact ⟨_, hfile, hopens, readFile_of_holds (v := .line) hopens⟩
  · obtain rfl := not_not.mp hchanged
    exact ⟨f, hfile, hlines, readFile_of_holds (v := .line) hlines⟩

end InPlace

/-! ### A file with its ciphertext, and one without -/

section Sample

attribute [local instance] transparentPrimitives

/-- A repository with one file, of the lines of a text. -/
def linesRepo (text : String) : CtRepo :=
  ⟨"r", (∅ : CtMap).insert "a" ⟨"", [], sealLines (Member.keyFor ⟨"alice", [1], [2]⟩ "r")
      (fun _ => Vector.replicate 16 0) text⟩,
    ⟨∅, ["alice"], ""⟩, ⟨"alice", ""⟩⟩

/-- The last line changes and loses its end, beside a new file. -/
theorem comDiffLine_patch_linesRepo :
    applyLines "v\nw\n" (comDiffLine "v\nw\n" "v\nx") = "v\nx" ∧
      ∃ out, update ⟨"alice", [1], [2]⟩ (linesRepo "v\nw\n") ((∅ : PlainMap).insert "a" "v\nw\n")
          (((∅ : PlainMap).insert "a" "v\nx").insert "b" "y") .line
          (fun _ _ _ => Vector.replicate 16 0) = .ok out ∧
        ∃ f', out.1.files["a"]? = some f' ∧
          readFile (Member.keyFor ⟨"alice", [1], [2]⟩ "r") .line f' = .ok "v\nx" := by
  obtain ⟨hpatch, hupdates⟩ := comDiffLine_patch "v\nw\n" "v\nx"
  have hlist : (((∅ : PlainMap).insert "a" "v\nx").insert "b" "y").toList =
      [("a", "v\nx"), ("b", "y")] := by decide +kernel
  have hthere : ∀ entry ∈ (((∅ : PlainMap).insert "a" "v\nx").insert "b" "y").toList,
      ¬ Missing (linesRepo "v\nw\n").files ((∅ : PlainMap).insert "a" "v\nw\n") entry := by
    rw [hlist]
    simp only [List.forall_mem_cons]
    refine ⟨?_, ?_, List.forall_mem_nil _⟩
    · rintro ⟨-, hnone⟩
      exact absurd hnone (by decide +kernel)
    · rintro ⟨⟨body, hbody, -⟩, -⟩
      exact absurd hbody (by simp)
  obtain ⟨out, hupdate, -, hfile⟩ := hupdates _ _ _ _ (fun _ _ _ => Vector.replicate 16 0) hthere
  obtain ⟨f', hf', -, hread⟩ := hfile "a" _ ExtTreeMap.getElem?_insert_self (by decide +kernel)
    ExtTreeMap.getElem?_insert_self (opensTo_sealLines _ _ _)
  exact ⟨hpatch, out, hupdate, f', hf', hread⟩

/-- The first file is written before the second one turns out to be missing. -/
theorem not_updateAtomic_missing :
    ¬ UpdateAtomic ⟨"alice", [1], [2]⟩ ⟨"r", ∅, ⟨∅, ["alice"], ""⟩, ⟨"alice", ""⟩⟩
      ((∅ : PlainMap).insert "b" "x") (((∅ : PlainMap).insert "a" "w").insert "b" "y") .line
      (fun _ _ _ => Vector.replicate 16 0) := by
  rw [updateAtomic_iff]
  intro h
  have hlist : (((∅ : PlainMap).insert "a" "w").insert "b" "y").toList =
      [("a", "w")] ++ ("b", "y") :: [] := by decide +kernel
  have hnew : ((∅ : PlainMap).insert "b" "x")["a"]? = none := by decide +kernel
  have hold : ((∅ : PlainMap).insert "b" "x")["b"]? = some "x" := by decide +kernel
  have hthere : ∀ entry ∈ [("a", "w")], ¬ Missing ∅ ((∅ : PlainMap).insert "b" "x") entry := by
    refine List.forall_mem_singleton.mpr ?_
    rintro ⟨⟨oldBody, hbody, -⟩, -⟩
    cases hnew.symm.trans hbody
  have hmissing : Missing ∅ ((∅ : PlainMap).insert "b" "x") ("b", "y") :=
    ⟨⟨"x", hold, by decide⟩, ExtTreeMap.getElem?_empty⟩
  have hwritten := h _ _ _ hlist hthere hmissing ("a", "w") List.mem_cons_self _ rfl
  cases hwritten

end Sample

end SafeHub.SGit
