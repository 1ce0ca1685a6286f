import SafeHub.SGit.CtFiles
import SafeHub.SGit.TagTrust

/-!
# The ciphertext tree of some texts

A ciphertext tree is decrypted into the texts that its files are read as, in whatever order the
files are listed, as long as their names come back. A push writes the files that differ from the
snapshot, from what was there before, and removes those that are gone. What it leaves are the new
texts where the snapshot tells what the tree holds of every file that is not written anew.

## Main definitions

* `Clean`, `TreeOk` — names and ciphertext files that a reader can tell
* `Encodes` — a ciphertext tree of some texts
* `Describes` — a snapshot that a push can rely on

## Main results

* `plainName_ctFilePath_iff` — the names that come back
* `decryptInto_of_encodes` — the texts of a tree are decrypted in any order
* `read_of_pushOps`, `encodes_of_pushOps` — what a push leaves on disk
-/

namespace SafeHub.SGit

open Perform TreeMaps
open Std (ExtTreeMap)

/-! ### Names -/

theorem relOf_pathOf (rel : String) : relOf (pathOf rel) = rel := by
  have hlist : (String.toList ∘ String.ofList) = id := funext fun _ => String.toList_ofList
  rw [relOf, pathOf, List.map_map, hlist, List.map_id, List.intercalate_splitOn,
    String.ofList_toList]

theorem ctFilePath_injective : Function.Injective ctFilePath := by
  intro name other h
  have happend := congrArg (fun path => (relOf path).toList) h
  simp only [ctFilePath, relOf_pathOf, String.toList_append] at happend
  exact String.toList_injective (List.append_cancel_right happend)

/-- A name whose ciphertext is decrypted into a file of that name. -/
def Clean (name : String) : Prop :=
  isCiphertext (ctFilePath name) = true ∧ plainName (ctFilePath name) = name

theorem length_trimEndMatches_le (suffix s : List Char) :
    (trimEndMatches suffix s).length ≤ s.length := by
  fun_induction trimEndMatches suffix s with
  | case1 s h ih =>
    rw [List.length_take] at ih
    omega
  | case2 s h => exact le_rfl

/-- A name comes back exactly if it does not have the ending already. -/
theorem plainName_ctFilePath_iff {name : String} :
    plainName (ctFilePath name) = name ↔ endsWith ".sgit" name = false := by
  have htrim : trimEndMatches ".sgit".toList (name.toList ++ ".sgit".toList) =
      trimEndMatches ".sgit".toList name.toList := by
    rw [trimEndMatches, if_pos, List.length_append, Nat.add_sub_cancel, List.take_left]
    exact ⟨by decide, List.isSuffixOf_iff_suffix.mpr (List.suffix_append _ _)⟩
  rw [plainName, ctFilePath, relOf_pathOf, String.toList_append, htrim, endsWith]
  constructor
  · intro h
    by_contra hsuffix
    rw [Bool.not_eq_false] at hsuffix
    -- trimming repeats, so a name with the ending loses it as well
    have hle := (List.isSuffixOf_iff_suffix.mp hsuffix).length_le
    have hlength := congrArg (List.length ∘ String.toList) h
    have hdecrease := length_trimEndMatches_le ".sgit".toList
      (name.toList.take (name.toList.length - ".sgit".toList.length))
    rw [Function.comp_apply, Function.comp_apply, String.toList_ofList, trimEndMatches,
      if_pos ⟨by decide, hsuffix⟩] at hlength
    rw [List.length_take] at hdecrease
    have hfive : ".sgit".toList.length = 5 := by decide
    omega
  · intro h
    rw [trimEndMatches, if_neg, String.ofList_toList]
    rw [h]
    simp

/-! ### Trees of ciphertexts -/

section Trees

variable {tree tree' : CtTree} {name : String} {path : CtPath} {bytes : Bytes}
variable {walk : List (CtPath × Bytes)}

/-- Every ciphertext file has a clean name, and whole lines. -/
def TreeOk (tree : CtTree) : Prop :=
  ∀ path bytes, tree[path]? = some bytes → isCiphertext path = true →
    (∃ name, Clean name ∧ path = ctFilePath name) ∧ CtLines bytes

theorem TreeOk.insert (h : TreeOk tree) (hname : Clean name) (hbytes : CtLines bytes) :
    TreeOk (tree.insert (ctFilePath name) bytes) := by
  intro path found hfound hct
  by_cases hpath : path = ctFilePath name
  · rw [hpath, ExtTreeMap.getElem?_insert_self] at hfound
    obtain rfl := Option.some.inj hfound
    exact ⟨⟨name, hname, hpath⟩, hbytes⟩
  · rw [getElem?_insert_of_ne hpath] at hfound
    exact h path found hfound hct

/-- What is no ciphertext file may be there. -/
theorem TreeOk.insert_other (h : TreeOk tree) (hpath : isCiphertext path = false) :
    TreeOk (tree.insert path bytes) := by
  intro other found hfound hct
  have hother : other ≠ path := by
    rintro rfl
    rw [hpath] at hct
    cases hct
  rw [getElem?_insert_of_ne hother] at hfound
  exact h other found hfound hct

/-- Fewer files are as good. -/
theorem TreeOk.mono (h : TreeOk tree)
    (hsub : ∀ (path : CtPath) (bytes : Bytes), tree'[path]? = some bytes →
      tree[path]? = some bytes) : TreeOk tree' :=
  fun path bytes hfound => h path bytes (hsub path bytes hfound)

/-- The files that are decrypted, by the names they are decrypted into. -/
def namedFiles (walk : List (CtPath × Bytes)) : List (String × Bytes) :=
  (walk.filter fun entry => isCiphertext entry.1).map fun entry => (plainName entry.1, entry.2)

theorem mem_namedFiles (hwalk : walk.Perm tree.toList) {name : String} {bytes : Bytes}
    (hname : Clean name) (hfound : tree[ctFilePath name]? = some bytes) :
    (name, bytes) ∈ namedFiles walk := by
  refine List.mem_map.mpr ⟨(ctFilePath name, bytes), List.mem_filter.mpr ⟨?_, hname.1⟩, ?_⟩
  · exact hwalk.mem_iff.mpr (ExtTreeMap.mem_toList_iff_getElem?_eq_some.mpr hfound)
  · rw [hname.2]

theorem exists_of_mem_namedFiles (hwalk : walk.Perm tree.toList) (htree : TreeOk tree)
    {entry : String × Bytes} (h : entry ∈ namedFiles walk) :
    Clean entry.1 ∧ tree[ctFilePath entry.1]? = some entry.2 := by
  obtain ⟨⟨path, bytes⟩, hfiltered, rfl⟩ := List.mem_map.mp h
  obtain ⟨hin, hct⟩ := List.mem_filter.mp hfiltered
  have hfound := ExtTreeMap.mem_toList_iff_getElem?_eq_some.mp (hwalk.mem_iff.mp hin)
  obtain ⟨⟨name, hname, rfl⟩, -⟩ := htree path bytes hfound hct
  dsimp only
  rw [hname.2]
  exact ⟨hname, hfound⟩

end Trees

section Encoding

variable [CommandPrimitives]
variable {k : Keys} {key : Bytes} {v : Variant} {tree : CtTree} {plain : PlainMap}
variable {walk : List (CtPath × Bytes)}

/-- Every ciphertext file is read as the text of its name. -/
structure Encodes (key : Bytes) (v : Variant) (tree : CtTree) (plain : PlainMap) : Prop where
  clean {name body : String} : plain[name]? = some body → Clean name
  files {name : String} : Clean name →
    Option.Rel (fun bytes body => decryptBody key v bytes = .ok body) tree[ctFilePath name]?
      plain[name]?

theorem decryptInto_eq (walk : List (CtPath × Bytes)) (plain : PlainMap) :
    decryptInto walk plain key v = (namedFiles walk).foldlM (fun out entry => do
      let body ← decryptBody key v entry.2
      return out.insert entry.1 body) plain := by
  induction walk generalizing plain with
  | nil => rfl
  | cons entry walk ih =>
    simp only [decryptInto, namedFiles] at ih
    rw [decryptInto, List.foldlM_cons, decryptEntry, namedFiles, List.filter_cons]
    split_ifs with hct
    · rw [List.map_cons, List.foldlM_cons, bind_assoc, bind_assoc]
      refine bind_congr fun body => ?_
      rw [pure_bind, pure_bind]
      exact ih _
    · rw [pure_bind]
      exact ih plain

/-- The texts of a tree are decrypted, in whatever order its files are listed. -/
theorem decryptInto_of_encodes (htree : TreeOk tree) (h : Encodes key v tree plain)
    (hwalk : walk.Perm tree.toList) : decryptInto walk ∅ key v = .ok plain := by
  have hentries : ∀ entry ∈ namedFiles walk,
      ∃ body, decryptBody key v entry.2 = .ok body ∧ plain[entry.1]? = some body := by
    intro entry hentry
    obtain ⟨hname, hfound⟩ := exists_of_mem_namedFiles hwalk htree hentry
    have hfile := h.files hname
    rw [hfound] at hfile
    generalize plain[entry.1]? = body? at hfile
    cases hfile with
    | some hread => exact ⟨_, hread, rfl⟩
  -- all files of a name have the one text of that name, so their order does not matter
  obtain ⟨out, hloop, hout⟩ := exists_foldlM_insert ∅ hentries
  rw [decryptInto_eq, hloop]
  congr 1
  apply ExtTreeMap.ext_getElem?
  intro name
  rw [hout]
  split_ifs with hname
  · rfl
  · -- a text has a file, from which it has been read
    cases hbody : plain[name]? with
    | none => exact ExtTreeMap.getElem?_empty
    | some body =>
      have hclean := h.clean hbody
      have hfile := h.files hclean
      rw [hbody] at hfile
      obtain ⟨bytes, hfound, -⟩ := exists_of_rel_some hfile
      exact absurd (List.mem_map_of_mem (mem_namedFiles hwalk hclean hfound)) hname

end Encoding

/-! ### A push on disk -/

section Disk

variable {old new : PlainMap} {name body : String} {stop : PushStop} {id : ℕ}
variable {d d' : ClientDisk} {remote remote' : List Commit} {sent : Bool}

theorem mem_changedFiles : (name, body) ∈ changedFiles old new ↔
    new[name]? = some body ∧ old[name]? ≠ some body := by
  rw [changedFiles, List.mem_filter, ExtTreeMap.mem_toList_iff_getElem?_eq_some, decide_eq_true_eq]

theorem nodup_changedFiles : ((changedFiles old new).map Prod.fst).Nodup :=
  nodup_map_fst_toList.sublist (List.filter_sublist.map _)

theorem mem_deletedFiles : name ∈ deletedFiles old new ↔ old[name]? ≠ none ∧ new[name]? = none :=
  mem_removed_iff

/-- With nothing to write, the snapshot is the tree. -/
theorem eq_of_unchanged (hchanged : (changedFiles old new).isEmpty)
    (hdeleted : (deletedFiles old new).isEmpty) (name : String) : new[name]? = old[name]? := by
  rw [List.isEmpty_iff] at hchanged hdeleted
  cases hbody : new[name]? with
  | some body =>
    by_contra hne
    have hmem := mem_changedFiles.mpr ⟨hbody, Ne.symm hne⟩
    rw [hchanged] at hmem
    cases hmem
  | none =>
    by_contra hne
    have hmem := mem_deletedFiles.mpr ⟨Ne.symm hne, hbody⟩
    rw [hdeleted] at hmem
    cases hmem

theorem performAll_removes (names : List String) (d : ClientDisk) :
    performAll (names.map removeOp) d = ({ d with
      tree := (names.map ctFilePath).foldl (fun tree path => tree.erase path) d.tree }, true) := by
  induction names generalizing d with
  | nil => rfl
  | cons name names ih => exact ih _

theorem headTree_eq {history : List Commit} {top : Commit} (htop : history.getLast? = some top) :
    headTree history = top.tree := by
  rw [headTree, htop, Option.map_some, Option.getD_some]

theorem commit_eq_some (h : commit id d = some d') :
    d' = { d with history := d.history ++ [⟨id, d.tree⟩] } := by
  rw [commit] at h
  split_ifs at h
  exact (Option.some.inj h).symm

/-- A remote takes a history as a whole, or stays. -/
theorem sendHead_cases {history : List Commit}
    (h : (remote', sent) = sendHead stop history remote) :
    (sent = true ∧ stop = .never ∧ history ≠ [] ∧ remote' = history) ∨
      (sent = false ∧ remote' = remote) := by
  rw [sendHead] at h
  split_ifs at h with hsend
  · obtain ⟨rfl, rfl⟩ := Prod.mk.inj h
    exact .inl ⟨rfl, hsend.1, hsend.2.1, rfl⟩
  · obtain ⟨rfl, rfl⟩ := Prod.mk.inj h
    exact .inr ⟨rfl, rfl⟩

/-- What is read of a tree of texts is the tree. -/
theorem getElem?_work {work : WorkTree}
    (h : ∀ (name : String) (bytes : Bytes), work[name]? = some bytes →
      ∃ body, (readPlain work)[name]? = some body) (name : String) :
    work[name]? = (readPlain work)[name]?.map strBytes := by
  cases hbytes : work[name]? with
  | none =>
    rw [readPlain, ExtTreeMap.getElem?_filterMap', hbytes]
    rfl
  | some bytes =>
    obtain ⟨body, hbody⟩ := h name bytes hbytes
    rw [hbody]
    rw [readPlain, ExtTreeMap.getElem?_filterMap', hbytes, Option.bind_some] at hbody
    split_ifs at hbody
    rw [Option.map_some, fromUtf8_eq_some_iff.mp hbody]

end Disk

section Writing

variable [CommandPrimitives]
variable {k : Keys} {key : Bytes} {v : Variant} {nonces : String → FileNonces}
variable {old new : PlainMap} {d d' : ClientDisk} {entries : List (String × String)}
variable {name body : String}

/-- What the snapshot must tell of the ciphertexts: the texts that stay, a text under which the
difference fits, and files that neither the snapshot nor the tree has. -/
structure Describes (key : Bytes) (v : Variant) (tree : CtTree) (old new : PlainMap) : Prop where
  kept {name body : String} : new[name]? = some body → old[name]? = some body →
    ∃ bytes, tree[ctFilePath name]? = some bytes ∧ decryptBody key v bytes = .ok body
  patched {name prev body : String} {bytes : Bytes} : v = .char → old[name]? = some prev →
    new[name]? = some body → prev ≠ body → tree[ctFilePath name]? = some bytes →
    ∃ text, decryptBody key .char bytes = .ok text ∧
      applyChars text (comDiffChar prev body) = body
  absent {name : String} : Clean name → old[name]? = none → new[name]? = none →
    tree[ctFilePath name]? = none

/-- A snapshot of what the tree encodes tells all that. -/
theorem Encodes.describes {tree : CtTree} (h : Encodes key v tree old)
    (hclean : ∀ name body : String, new[name]? = some body → Clean name) :
    Describes key v tree old new := by
  have hfile {name prev : String} (hname : Clean name) (hprev : old[name]? = some prev) :
      ∃ bytes, tree[ctFilePath name]? = some bytes ∧ decryptBody key v bytes = .ok prev := by
    have hrel := h.files hname
    rw [hprev] at hrel
    exact exists_of_rel_some hrel
  constructor
  · intro name body hnew hold
    exact hfile (hclean name body hnew) hold
  · rintro name prev body bytes rfl hold hnew - hfound
    obtain ⟨other, hother, hread⟩ := hfile (hclean name body hnew) hold
    obtain rfl := Option.some.inj (hfound.symm.trans hother)
    exact ⟨prev, hread, applyChars_comDiffChar prev body⟩
  · intro name hname hold _
    have hrel := h.files hname
    rw [hold] at hrel
    exact eq_none_of_rel_none hrel

/-- The files that a push writes, each from what was there before. -/
theorem performAll_writes (hkeys : (entries.map Prod.fst).Nodup)
    (h : performAll (entries.map (writeOp key v nonces old)) d = (d', true)) :
    (∀ entry ∈ entries, ∃ bytes,
      writtenFile key v nonces old entry d.tree[ctFilePath entry.1]? = .ok bytes ∧
        d'.tree[ctFilePath entry.1]? = some bytes) ∧
    ∀ path : CtPath, path ∉ entries.map (fun entry => ctFilePath entry.1) →
      d'.tree[path]? = d.tree[path]? := by
  induction entries generalizing d with
  | nil =>
    cases h
    exact ⟨List.forall_mem_nil _, fun _ _ => rfl⟩
  | cons entry entries ih =>
    rw [List.map_cons, List.nodup_cons] at hkeys
    rw [List.map_cons, performAll_cons_eq] at h
    obtain ⟨next, hwrite, hrest⟩ := h
    obtain ⟨bytes, hbytes, hnext⟩ := bind_eq_ok_iff.mp hwrite
    obtain rfl := Except.ok.inj hnext
    obtain ⟨hfiles, hothers⟩ := ih hkeys.2 hrest
    -- no other entry goes to the path of this one
    have hapart : ∀ other ∈ entries, ctFilePath other.1 ≠ ctFilePath entry.1 := by
      intro other hmem heq
      exact hkeys.1 (ctFilePath_injective heq ▸ List.mem_map_of_mem hmem)
    refine ⟨List.forall_mem_cons.mpr ⟨⟨bytes, hbytes, ?_⟩, ?_⟩, ?_⟩
    · rw [hothers _ ?_]
      · exact ExtTreeMap.getElem?_insert_self
      · intro hmem
        obtain ⟨other, hother, heq⟩ := List.mem_map.mp hmem
        exact hapart other hother heq
    · intro other hmem
      obtain ⟨written, hwritten, hfound⟩ := hfiles other hmem
      refine ⟨written, ?_, hfound⟩
      rw [getElem?_insert_of_ne (hapart other hmem)] at hwritten
      exact hwritten
    · intro path hpath
      rw [List.map_cons, List.mem_cons, not_or] at hpath
      rw [hothers path hpath.2]
      exact getElem?_insert_of_ne hpath.1

/-- The operations of a push that end leave its files, signed, and its snapshot. -/
theorem performAll_pushOps (h : performAll (pushOps k v nonces old new) d = (d', true)) :
    ∃ written, performAll ((changedFiles old new).map (writeOp k.contentKey v nonces old)) d =
        (written, true) ∧
      d' = { written with
        tree := writeTag (((deletedFiles old new).map ctFilePath).foldl
          (fun tree path => tree.erase path) written.tree) k commandRid
        snapshot := new } := by
  obtain ⟨removed, hwritten, hlast⟩ := performAll_append_eq.mp h
  obtain ⟨written, hwrites, hremoves⟩ := performAll_append_eq.mp hwritten
  rw [performAll_removes] at hremoves
  obtain rfl := (Prod.mk.inj hremoves).1
  exact ⟨written, hwrites, (Prod.mk.inj hlast).1.symm⟩

omit [CommandPrimitives] in
/-- A text has its file among those written exactly if it differs from the snapshot. -/
theorem mem_map_changedFiles_iff : ctFilePath name ∈ (changedFiles old new).map
    (fun entry => ctFilePath entry.1) ↔ ∃ body, (name, body) ∈ changedFiles old new := by
  rw [List.mem_map]
  constructor
  · rintro ⟨⟨other, body⟩, hmem, heq⟩
    exact ⟨body, ctFilePath_injective heq ▸ hmem⟩
  · rintro ⟨body, hmem⟩
    exact ⟨(name, body), hmem, rfl⟩

/-- A file that is written is read as the new text, whatever was there before if the snapshot does
not have it. -/
theorem decryptBody_writtenFile {found : Option Bytes} {bytes : Bytes}
    (hold : ∀ prev : String, old[name]? = some prev → prev.utf8ByteSize < 2 ^ 63)
    (hbody : body.utf8ByteSize < 2 ^ 63) (hfound : ∀ held, found = some held → CtLines held)
    (hfits : v = .char → ∀ prev : String, old[name]? = some prev → ∀ held, found = some held →
      ∃ text, decryptBody key .char held = .ok text ∧
        applyChars text (comDiffChar prev body) = body)
    (h : writtenFile key v nonces old (name, body) found = .ok bytes) :
    decryptBody key v bytes = .ok body := by
  rw [writtenFile] at h
  cases hprev : old[name]? with
  | none =>
    rw [hprev] at h
    obtain rfl := Except.ok.inj h
    exact decryptBody_wholeFile key v _ body
  | some prev =>
    rw [hprev] at h
    exact decryptBody_changedFile (hold prev hprev) hbody hfound
      (fun hchar => hfits hchar prev hprev) h

/-- Whatever is written has whole lines. -/
theorem ctLines_writtenFile {entry : String × String} {found : Option Bytes} {bytes : Bytes}
    (hfound : ∀ held, found = some held → CtLines held)
    (h : writtenFile key v nonces old entry found = .ok bytes) : CtLines bytes := by
  rw [writtenFile] at h
  split at h
  · obtain rfl := Except.ok.inj h
    exact ctLines_wholeFile _ v _ _
  · exact ctLines_changedFile hfound h

/-- What a push leaves of one name, where the snapshot tells what the tree holds of it. -/
theorem read_of_pushOps (hname : isCiphertext (ctFilePath name) = true)
    (hlines : ∀ held, d.tree[ctFilePath name]? = some held → CtLines held)
    (hold : ∀ prev : String, old[name]? = some prev → prev.utf8ByteSize < 2 ^ 63)
    (hnew : ∀ body : String, new[name]? = some body → body.utf8ByteSize < 2 ^ 63)
    (hkept : ∀ body : String, new[name]? = some body → old[name]? = some body →
      ∃ bytes, d.tree[ctFilePath name]? = some bytes ∧ decryptBody k.contentKey v bytes = .ok body)
    (hpatched : v = .char → ∀ (prev body : String) (held : Bytes), old[name]? = some prev →
      new[name]? = some body → prev ≠ body → d.tree[ctFilePath name]? = some held →
      ∃ text, decryptBody k.contentKey .char held = .ok text ∧
        applyChars text (comDiffChar prev body) = body)
    (habsent : old[name]? = none → new[name]? = none → d.tree[ctFilePath name]? = none)
    (h : performAll (pushOps k v nonces old new) d = (d', true)) :
    Option.Rel (fun bytes body => decryptBody k.contentKey v bytes = .ok body)
      d'.tree[ctFilePath name]? new[name]? := by
  obtain ⟨written, hwrites, rfl⟩ := performAll_pushOps h
  obtain ⟨hfiles, hothers⟩ := performAll_writes nodup_changedFiles hwrites
  have htag : ctFilePath name ≠ tagPath := fun heq => absurd hname (by rw [heq]; decide)
  have hremoved : ctFilePath name ∈ (deletedFiles old new).map ctFilePath ↔
      old[name]? ≠ none ∧ new[name]? = none := by
    rw [List.mem_map_of_injective ctFilePath_injective, mem_deletedFiles]
  dsimp only
  rw [writeTag, getElem?_insert_of_ne htag, getElem?_foldl_erase]
  cases hbody : new[name]? with
  | none =>
    split_ifs with hgone
    · exact .none
    · -- neither the snapshot nor the tree has the name
      rw [hremoved] at hgone
      have hnone : old[name]? = none := by
        by_contra hne
        exact hgone ⟨hne, hbody⟩
      rw [hothers, habsent hnone hbody]
      · exact .none
      · rw [mem_map_changedFiles_iff]
        rintro ⟨body, hmem⟩
        rw [mem_changedFiles, hbody] at hmem
        cases hmem.1
  | some body =>
    rw [if_neg fun hgone => by rw [hremoved, hbody] at hgone; cases hgone.2]
    by_cases hsame : old[name]? = some body
    · -- the text has not changed, and its file is the one before
      obtain ⟨bytes, hfound, hread⟩ := hkept body hbody hsame
      rw [hothers, hfound]
      · exact .some hread
      · rw [mem_map_changedFiles_iff]
        rintro ⟨other, hmem⟩
        obtain ⟨hother, hdiffers⟩ := mem_changedFiles.mp hmem
        rw [hbody] at hother
        exact hdiffers (hsame.trans hother)
    · -- a changed text is in the file that the push has written
      obtain ⟨bytes, hbytes, hfound⟩ := hfiles _ (mem_changedFiles.mpr ⟨hbody, hsame⟩)
      dsimp only at hbytes hfound
      rw [hfound]
      refine .some (decryptBody_writtenFile hold (hnew body hbody) hlines ?_ hbytes)
      intro hchar prev hprev held hheld
      refine hpatched hchar prev body held hprev hbody (fun heq => hsame ?_) hheld
      rw [hprev, heq]

/-- A push that can rely on its snapshot leaves the new texts. -/
theorem encodes_of_pushOps (htree : TreeOk d.tree)
    (hclean : ∀ name body : String, new[name]? = some body → Clean name)
    (hold : ∀ name body : String, old[name]? = some body → body.utf8ByteSize < 2 ^ 63)
    (hnew : ∀ name body : String, new[name]? = some body → body.utf8ByteSize < 2 ^ 63)
    (hdescribes : Describes k.contentKey v d.tree old new)
    (h : performAll (pushOps k v nonces old new) d = (d', true)) :
    Encodes k.contentKey v d'.tree new := by
  refine ⟨fun {name body} => hclean name body, fun {name} hname => ?_⟩
  refine read_of_pushOps hname.1 ?_ (hold name) (hnew name) ?_ ?_ ?_ h
  · exact fun held hheld => (htree _ held hheld hname.1).2
  · exact fun body => hdescribes.kept
  · exact fun hchar prev body held => hdescribes.patched hchar
  · exact hdescribes.absent hname

end Writing

end SafeHub.SGit
