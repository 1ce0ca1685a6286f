import SafeHub.Lib.Paths
import SafeHub.SGit.Consistency

/-!
# A repository that one client writes

A client that is the only one to push, and whose pushes reach their commit, has a snapshot that is
right. Its ciphertexts and its last commit are always those of the tree that it has pushed, whatever
the names of its files, and none of its commits fails.

## Main definitions

* `Shown`, `HoldsTexts` — the ciphertext tree of some texts under any names
* `SourceTree` — what a writer has to push
* `WriterOk` — a writer whose snapshot is right

## Main results

* `HoldsTexts.pushOps` — what a push leaves on disk
* `WriterOk.exists_commit` — a push ends with a commit
* `WriterOk.push` — what a push leaves, on disk and at the remote
-/

namespace SafeHub.SGit

open Perform TreeMaps
open Std (ExtTreeMap)

/-! ### Names -/

section Names

variable {name body : String} {work : WorkTree}

/-- A name whose ciphertext is decrypted, into whatever file. -/
def Shown (name : String) : Prop := isCiphertext (ctFilePath name) = true

/-- What a writer has: paths of files below its directory, of sizes that fit in memory. -/
structure SourceTree (work : WorkTree) : Prop where
  named {name : String} {bytes : Bytes} : work[name]? = some bytes → "" ∉ pathOf name
  fits {name : String} {bytes : Bytes} : work[name]? = some bytes → bytes.length < 2 ^ 63

theorem SourceTree.empty : SourceTree ∅ := by
  constructor
  · intro name bytes hbytes
    rw [ExtTreeMap.getElem?_empty] at hbytes
    cases hbytes
  · intro name bytes hbytes
    rw [ExtTreeMap.getElem?_empty] at hbytes
    cases hbytes

theorem SourceTree.insert {bytes : Bytes} (h : SourceTree work) (hname : "" ∉ pathOf name)
    (hbytes : bytes.length < 2 ^ 63) : SourceTree (work.insert name bytes) := by
  constructor
  · intro other found hfound
    by_cases hother : other = name
    · rwa [hother]
    · rw [getElem?_insert_of_ne hother] at hfound
      exact h.named hfound
  · intro other found hfound
    by_cases hother : other = name
    · rw [hother, ExtTreeMap.getElem?_insert_self] at hfound
      rwa [← Option.some.inj hfound]
    · rw [getElem?_insert_of_ne hother] at hfound
      exact h.fits hfound

/-- Files that are read are decrypted. -/
theorem shown_of_visible (hvisible : isHidden name = false) (hname : "" ∉ pathOf name) :
    Shown name := by
  obtain ⟨front, last, hpath, hmore⟩ : ∃ front last, pathOf name = front ++ [last] ∧
      ctFilePath name = front ++ [last ++ ".sgit"] := Paths.pieces_append (by decide)
  rw [hpath] at hname
  rw [isHidden, hpath] at hvisible
  simp only [List.contains_eq_mem, List.mem_append, List.mem_singleton, Bool.or_eq_false_iff,
    decide_eq_false_iff_not, not_or] at hname hvisible
  obtain ⟨⟨hgit, -⟩, hsgit, -⟩ := hvisible
  -- the last component has an ending and something before it
  have hlast : 5 < (last ++ ".sgit").toList.length := by
    rw [String.toList_append, List.length_append]
    have hpos := List.length_pos_of_ne_nil fun hnil => hname.2 (String.toList_injective hnil).symm
    have hfive : ".sgit".toList.length = 5 := by decide
    omega
  have hother {other : String} (hlen : other.toList.length ≤ 5) : other ≠ last ++ ".sgit" := by
    rintro rfl
    omega
  have hending : endsWith ".sgit" (last ++ ".sgit") = true := by
    rw [endsWith, String.toList_append, List.isSuffixOf_iff_suffix]
    exact List.suffix_append _ _
  rw [Shown, isCiphertext, hmore, List.getLastD_concat, hending]
  simp only [List.contains_eq_mem, List.mem_append, List.mem_singleton, Bool.and_eq_true,
    Bool.not_eq_true', decide_eq_false_iff_not, not_or]
  exact ⟨⟨⟨hgit, hother (by decide)⟩, hsgit, hother (by decide)⟩, trivial⟩

theorem getElem?_readPlain : (readPlain work)[name]? = some body ↔
    isHidden name = false ∧ work[name]? = some (strBytes body) := by
  rw [readPlain, ExtTreeMap.getElem?_filterMap', Option.bind_eq_some_iff]
  constructor
  · rintro ⟨bytes, hbytes, hread⟩
    split_ifs at hread with hhidden
    rw [fromUtf8_eq_some_iff.mp hread]
    exact ⟨Bool.eq_false_iff.mpr hhidden, hbytes⟩
  · rintro ⟨hvisible, hbytes⟩
    refine ⟨_, hbytes, ?_⟩
    rw [hvisible]
    exact fromUtf8_strBytes body

theorem SourceTree.shown (h : SourceTree work) (hbody : (readPlain work)[name]? = some body) :
    Shown name := by
  obtain ⟨hvisible, hbytes⟩ := getElem?_readPlain.mp hbody
  exact shown_of_visible hvisible (h.named hbytes)

theorem SourceTree.size (h : SourceTree work) (hbody : (readPlain work)[name]? = some body) :
    body.utf8ByteSize < 2 ^ 63 := by
  rw [← length_strBytes]
  exact h.fits (getElem?_readPlain.mp hbody).2

end Names

/-! ### Ciphertext trees of any names -/

section Holding

variable [CommandPrimitives]
variable {k : Keys} {key : Bytes} {v : Variant} {nonces : String → FileNonces} {tree : CtTree}
variable {plain plain' old new : PlainMap} {name body : String} {entries : List (String × String)}
variable {d d' : ClientDisk} {op : DiskOp} {s t : ClientDisk}

/-- The ciphertext tree of some texts, and of no others. -/
structure HoldsTexts (key : Bytes) (v : Variant) (tree : CtTree) (plain : PlainMap) : Prop where
  shown {name body : String} : plain[name]? = some body → Shown name
  files {name : String} : Shown name →
    Option.Rel (fun bytes body => decryptBody key v bytes = .ok body) tree[ctFilePath name]?
      plain[name]?
  named {path : CtPath} {bytes : Bytes} : tree[path]? = some bytes → isCiphertext path = true →
    (∃ name, path = ctFilePath name) ∧ CtLines bytes

theorem HoldsTexts.exists_file (h : HoldsTexts key v tree plain)
    (hbody : plain[name]? = some body) :
    ∃ bytes, tree[ctFilePath name]? = some bytes ∧ decryptBody key v bytes = .ok body := by
  have hrel := h.files (h.shown hbody)
  rw [hbody] at hrel
  exact exists_of_rel_some hrel

/-- A tree is that of one map of texts. -/
theorem HoldsTexts.unique (h : HoldsTexts key v tree plain) (h' : HoldsTexts key v tree plain') :
    plain = plain' := by
  apply ExtTreeMap.ext_getElem?
  intro name
  by_cases hname : Shown name
  · exact rel_read_unique (h.files hname) (h'.files hname)
  · have hnone {texts : PlainMap} (htexts : HoldsTexts key v tree texts) : texts[name]? = none := by
      by_contra hne
      obtain ⟨body, hbody⟩ := Option.ne_none_iff_exists'.mp hne
      exact hname (htexts.shown hbody)
    rw [hnone h, hnone h']

/-- With the texts of names that come back, it is what a reader is to find. -/
theorem HoldsTexts.encodes (h : HoldsTexts key v tree plain)
    (hclean : ∀ name body : String, plain[name]? = some body → Clean name) :
    TreeOk tree ∧ Encodes key v tree plain := by
  refine ⟨fun path bytes hfound hct => ?_, ⟨fun {name body} => hclean name body,
    fun {name} hname => h.files hname.1⟩⟩
  obtain ⟨⟨name, rfl⟩, hlines⟩ := h.named hfound hct
  refine ⟨⟨name, ?_, rfl⟩, hlines⟩
  -- the file is there for a text of this name
  have hrel := h.files hct
  rw [hfound] at hrel
  cases hbody : plain[name]? with
  | none =>
    rw [hbody] at hrel
    cases hrel
  | some body => exact hclean name body hbody

/-- What a push writes leaves the history and the plaintext tree. -/
theorem frame_of_mem_pushOps (hop : op ∈ pushOps k v nonces old new) (hstep : op s = .ok t) :
    t.history = s.history ∧ t.work = s.work := by
  rcases List.mem_append.mp hop with hfile | hlast
  · rcases List.mem_append.mp hfile with hwrite | hremove
    · obtain ⟨entry, -, rfl⟩ := List.mem_map.mp hwrite
      obtain ⟨bytes, -, ht⟩ := bind_eq_ok_iff.mp hstep
      obtain rfl := Except.ok.inj ht
      exact ⟨rfl, rfl⟩
    · obtain ⟨name, -, rfl⟩ := List.mem_map.mp hremove
      obtain rfl := Except.ok.inj hstep
      exact ⟨rfl, rfl⟩
  · rcases List.mem_pair.mp hlast with rfl | rfl
    · obtain rfl := Except.ok.inj hstep
      exact ⟨rfl, rfl⟩
    · obtain rfl := Except.ok.inj hstep
      exact ⟨rfl, rfl⟩

theorem frame_of_pushOps (h : performAll (pushOps k v nonces old new) d = (d', true)) :
    d'.history = d.history ∧ d'.work = d.work := by
  have hframe : (performAll (pushOps k v nonces old new) d).1.history = d.history ∧
      (performAll (pushOps k v nonces old new) d).1.work = d.work := by
    refine @performAll_invariant _ _ _ _ 
      (fun s : ClientDisk => s.history = d.history ∧ s.work = d.work) ?_
      ⟨rfl, rfl⟩
    intro op hop s t hs hstep
    obtain ⟨hhistory, hwork⟩ := frame_of_mem_pushOps hop hstep
    exact ⟨hhistory.trans hs.1, hwork.trans hs.2⟩
  rwa [h] at hframe

/-- A push leaves the new texts where the tree held those of the snapshot. -/
theorem HoldsTexts.pushOps (h : HoldsTexts k.contentKey v d.tree old)
    (hshown : ∀ name body : String, new[name]? = some body → Shown name)
    (hold : ∀ name body : String, old[name]? = some body → body.utf8ByteSize < 2 ^ 63)
    (hnew : ∀ name body : String, new[name]? = some body → body.utf8ByteSize < 2 ^ 63)
    (hdone : performAll (SGit.pushOps k v nonces old new) d = (d', true)) :
    HoldsTexts k.contentKey v d'.tree new := by
  refine ⟨fun {name body} => hshown name body, fun {name} hname => ?_,
    fun {path bytes} hfound hct => ?_⟩
  · refine read_of_pushOps hname ?_ (hold name) (hnew name) ?_ ?_ ?_ hdone
    · exact fun held hheld => (h.named hheld hname).2
    · exact fun body _ hbody => h.exists_file hbody
    · rintro rfl prev body held hprev - - hheld
      obtain ⟨bytes, hbytes, hread⟩ := h.exists_file hprev
      obtain rfl := Option.some.inj (hheld.symm.trans hbytes)
      exact ⟨prev, hread, applyChars_comDiffChar prev body⟩
    · intro hnone _
      have hrel := h.files hname
      rw [hnone] at hrel
      exact eq_none_of_rel_none hrel
  · obtain ⟨written, hwrites, rfl⟩ := performAll_pushOps hdone
    obtain ⟨hfiles, hothers⟩ := performAll_writes nodup_changedFiles hwrites
    have htag : path ≠ tagPath := by
      rintro rfl
      exact absurd hct (by decide)
    dsimp only at hfound
    rw [writeTag, getElem?_insert_of_ne htag, getElem?_foldl_erase] at hfound
    split_ifs at hfound
    -- a ciphertext file is one that this push wrote, or one from before
    by_cases hmem : path ∈ (changedFiles old new).map fun entry => ctFilePath entry.1
    · obtain ⟨entry, hentry, rfl⟩ := List.mem_map.mp hmem
      obtain ⟨written, hwritten, hheld⟩ := hfiles entry hentry
      obtain rfl := Option.some.inj (hfound.symm.trans hheld)
      exact ⟨⟨entry.1, rfl⟩, ctLines_writtenFile (fun held hheld => (h.named hheld hct).2) hwritten⟩
    · rw [hothers path hmem] at hfound
      exact h.named hfound hct

/-- Writes end where every file of the snapshot is there. -/
theorem exists_performAll_writes (h : ∀ entry ∈ entries, ∀ prev : String,
      old[entry.1]? = some prev → ∃ bytes, d.tree[ctFilePath entry.1]? = some bytes) :
    ∃ d', performAll (entries.map (writeOp key v nonces old)) d = (d', true) := by
  induction entries generalizing d with
  | nil => exact ⟨d, rfl⟩
  | cons entry entries ih =>
    obtain ⟨hentry, hentries⟩ := List.forall_mem_cons.mp h
    obtain ⟨bytes, hbytes⟩ : ∃ bytes,
        writtenFile key v nonces old entry d.tree[ctFilePath entry.1]? = .ok bytes := by
      rw [writtenFile]
      cases hprev : old[entry.1]? with
      | none => exact ⟨_, rfl⟩
      | some prev =>
        obtain ⟨held, hheld⟩ := hentry prev hprev
        rw [hheld]
        cases v <;> exact ⟨_, rfl⟩
    -- a file that is written is there for the others as well
    have hnext : ∀ other ∈ entries, ∀ prev : String, old[other.1]? = some prev →
        ∃ held, (d.tree.insert (ctFilePath entry.1) bytes)[ctFilePath other.1]? = some held := by
      intro other hmem prev hprev
      by_cases hpath : ctFilePath other.1 = ctFilePath entry.1
      · rw [hpath]
        exact ⟨bytes, ExtTreeMap.getElem?_insert_self⟩
      · obtain ⟨held, hheld⟩ := hentries other hmem prev hprev
        exact ⟨held, (getElem?_insert_of_ne hpath).trans hheld⟩
    obtain ⟨d', hrest⟩ := @ih { d with tree := d.tree.insert (ctFilePath entry.1) bytes } hnext
    exact ⟨d', performAll_cons_eq.mpr ⟨_, bind_eq_ok_iff.mpr ⟨bytes, hbytes, rfl⟩, hrest⟩⟩

theorem HoldsTexts.exists_pushOps (h : HoldsTexts k.contentKey v d.tree old) (new : PlainMap) :
    ∃ done, performAll (SGit.pushOps k v nonces old new) d = (done, true) := by
  obtain ⟨written, hwritten⟩ := @exists_performAll_writes _ k.contentKey v nonces old
    (changedFiles old new) d fun entry _ prev hprev =>
      (h.exists_file hprev).imp fun _ hfile => hfile.1
  refine ⟨_, performAll_append_eq.mpr ⟨_, performAll_append_eq.mpr ⟨_, hwritten,
    performAll_removes _ _⟩, rfl⟩⟩

end Holding

/-! ### The writer -/

section Writer

variable [CommandPrimitives]
variable {k : Keys} {v : Variant} {nonces : String → FileNonces} {stop : PushStop} {id : ℕ}
variable {d d' done : ClientDisk} {remote remote' : List Commit} {sent : Bool}

/-- A writer whose ciphertexts and last commit are what the snapshot tells. -/
structure WriterOk (k : Keys) (v : Variant) (d : ClientDisk) : Prop where
  tree : HoldsTexts k.contentKey v d.tree d.snapshot
  head : ∃ top, d.history.getLast? = some top ∧ top.tree = d.tree
  signed : ∀ c ∈ d.history, verifyTag c.tree commandRid = .ok ()
  fits : ∀ name body : String, d.snapshot[name]? = some body → body.utf8ByteSize < 2 ^ 63

omit [CommandPrimitives] in
theorem unchanged_of_eq (h : readPlain d.work = d.snapshot) : Unchanged d := by
  rw [Unchanged, h, List.isEmpty_iff, List.isEmpty_iff]
  constructor
  · rw [List.eq_nil_iff_forall_not_mem]
    rintro ⟨name, body⟩ hmem
    obtain ⟨hnew, hold⟩ := mem_changedFiles.mp hmem
    exact hold hnew
  · rw [List.eq_nil_iff_forall_not_mem]
    intro name hmem
    obtain ⟨hold, hnew⟩ := mem_deletedFiles.mp hmem
    exact hold hnew

/-- What a push leaves on the writer's disk are the texts of its tree. -/
theorem WriterOk.holdsTexts (h : WriterOk k v d) (hsource : SourceTree d.work)
    (hdone : performAll (pushOps k v nonces d.snapshot (readPlain d.work)) d = (done, true)) :
    HoldsTexts k.contentKey v done.tree (readPlain d.work) :=
  h.tree.pushOps (fun _ _ => hsource.shown) h.fits (fun _ _ => hsource.size) hdone

/-- A push that has something to write ends with a commit. -/
theorem WriterOk.exists_commit (h : WriterOk k v d) (hsource : SourceTree d.work)
    (hchanged : ¬ Unchanged d) (nonces : String → FileNonces) (id : ℕ) : ∃ done,
      performAll (pushOps k v nonces d.snapshot (readPlain d.work)) d = (done, true) ∧
        commit id done = some { done with history := d.history ++ [⟨id, done.tree⟩] } := by
  obtain ⟨done, hdone⟩ := @HoldsTexts.exists_pushOps _ _ _ nonces _ _ h.tree (readPlain d.work)
  refine ⟨done, hdone, ?_⟩
  obtain ⟨top, htop, htree⟩ := h.head
  rw [commit, (frame_of_pushOps hdone).1, headTree_eq htop, if_neg]
  intro hlist
  -- a tree that is as before would hold the texts of before
  have hsame : done.tree = d.tree := by
    rw [← ofList_toList done.tree, hlist, ofList_toList, htree]
  have hnew := h.holdsTexts hsource hdone
  rw [hsame] at hnew
  exact hchanged (unchanged_of_eq (hnew.unique h.tree))

/-- A push that is not cut short before its commit, in the end. -/
theorem push_eq_of_commit (hstop : stop = .never ∨ stop = .sending) (hchanged : ¬ Unchanged d)
    (hdone : performAll (pushOps k v nonces d.snapshot (readPlain d.work)) d = (done, true))
    (hcommit : commit id done = some d') :
    push k v nonces stop id d remote = (d', sendHead stop d'.history remote) := by
  rw [push, if_neg (by rwa [Bool.and_eq_true])]
  rcases hstop with rfl | rfl
  · dsimp only
    rw [hdone]
    dsimp only
    rw [hcommit]
  · dsimp only
    rw [hdone]
    dsimp only
    rw [hcommit]

/-- Every push of the writer leaves its snapshot right, and its history longer if anything. -/
theorem WriterOk.push (h : WriterOk k v d) (hsource : SourceTree d.work)
    (hstop : stop = .never ∨ stop = .sending)
    (hpush : push k v nonces stop id d remote = (d', remote', sent)) :
    WriterOk k v d' ∧ d'.snapshot = readPlain d.work ∧ d'.work = d.work ∧
      d.history <+: d'.history ∧ (remote', sent) = sendHead stop d'.history remote := by
  by_cases hunchanged : Unchanged d
  · rw [SGit.push, if_pos (by rwa [Bool.and_eq_true])] at hpush
    obtain ⟨rfl, hsent⟩ := Prod.mk.inj hpush
    refine ⟨h, ?_, rfl, List.prefix_rfl, hsent.symm⟩
    apply ExtTreeMap.ext_getElem?
    intro name
    exact (eq_of_unchanged hunchanged.1 hunchanged.2 name).symm
  · obtain ⟨done, hdone, hcommit⟩ := h.exists_commit hsource hunchanged nonces id
    rw [push_eq_of_commit hstop hunchanged hdone hcommit] at hpush
    obtain ⟨rfl, hsent⟩ := Prod.mk.inj hpush
    have hnew := h.holdsTexts hsource hdone
    have hwork := (frame_of_pushOps hdone).2
    obtain ⟨written, -, rfl⟩ := performAll_pushOps hdone
    refine ⟨⟨hnew, ⟨_, List.getLast?_concat, rfl⟩, ?_, fun _ _ => hsource.size⟩, rfl, hwork,
      List.prefix_append _ _, hsent.symm⟩
    exact List.forall_mem_append.mpr ⟨h.signed,
      List.forall_mem_singleton.mpr (verifyTag_writeTag _ k commandRid)⟩

/-- The client that has created the repository is one. -/
theorem writerOk_init (v : Variant) (acs : Bytes) :
    WriterOk k v ((initWorld k acs).clients 0) := by
  have hclient : (initWorld k acs).clients 0 = ⟨∅, writeTag ((∅ : CtTree).insert acsPath acs) k
      commandRid, [⟨0, writeTag ((∅ : CtTree).insert acsPath acs) k commandRid⟩], ∅⟩ := rfl
  have hempty (name body : String) : (∅ : PlainMap)[name]? ≠ some body := by
    rw [ExtTreeMap.getElem?_empty]
    exact (Option.some_ne_none body).symm
  rw [hclient]
  refine ⟨⟨fun {name body} hbody => absurd hbody (hempty name body), fun {name} hname => ?_,
    fun {path bytes} hfound hct => ?_⟩, ⟨_, rfl, rfl⟩, ?_,
    fun name body hbody => absurd hbody (hempty name body)⟩
  · rw [getElem?_initTree hname, ExtTreeMap.getElem?_empty]
    exact .none
  · rw [getElem?_initTree hct] at hfound
    cases hfound
  · exact List.forall_mem_singleton.mpr (verifyTag_writeTag _ k commandRid)

end Writer

end SafeHub.SGit
