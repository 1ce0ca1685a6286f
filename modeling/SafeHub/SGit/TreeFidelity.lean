import SafeHub.SGit.SoleWriter

/-!
# The tree that a reader has

A clone and a pull decrypt every file of the repository over the reader's own tree. A name loses
its ending on the way back as often as it has it, what is no text was never pushed, and nothing is
ever removed. So a reader has what was pushed exactly if the names that were pushed do not have the
ending themselves, their files are texts, and every file of the reader is still among them.

## Main definitions

* `SameFiles` — trees with the same files, but for those that are not read
* `Portable`, `ComesAcross` — what comes back, and what a reader may have before
* `Shared` — one writer and its readers
* `Faithful`, `Carried` — a command that gives a reader what was pushed, and its condition

## Main results

* `sameFiles_decryptFetched_iff` — what was fetched, over the tree of a reader
* `SharedOk.step` — what every command of a writer and its readers keeps
* `treeFidelity_iff` — the trees of the readers, in every run
-/

namespace SafeHub.SGit

open Perform Run TreeMaps
open Std (ExtTreeMap)

/-! ### Trees that come back -/

/-- A tree of texts under names without the ending. -/
def Portable (work : WorkTree) : Prop :=
  ∀ (name : String) (bytes : Bytes), isHidden name = false → work[name]? = some bytes →
    endsWith ".sgit" name = false ∧ ∃ body, fromUtf8 bytes = some body

/-- Trees with the same files, but for those that are not read. -/
def SameFiles (work pushed : WorkTree) : Prop :=
  ∀ name : String, isHidden name = false → work[name]? = pushed[name]?

/-- Nothing of a tree is lost on its way to a reader, who has no other files. -/
structure ComesAcross (work pushed : WorkTree) : Prop where
  portable : Portable pushed
  kept : ∀ name : String, isHidden name = false → pushed[name]? = none → work[name]? = none

section Names

/-- What is left has the ending no more. -/
theorem isSuffixOf_trimEndMatches {suffix : List Char} (h : suffix ≠ []) (s : List Char) :
    suffix.isSuffixOf (trimEndMatches suffix s) = false := by
  fun_induction trimEndMatches suffix s with
  | case1 s hends ih => exact ih
  | case2 s hends =>
    rw [Bool.eq_false_iff]
    exact fun hsuffix => hends ⟨h, hsuffix⟩

/-- No file is decrypted into a name with the ending. -/
theorem endsWith_plainName (path : CtPath) : endsWith ".sgit" (plainName path) = false := by
  have hne : ".sgit".toList ≠ [] := by decide
  have htrimmed := isSuffixOf_trimEndMatches hne (relOf path).toList
  rw [← String.toList_ofList (l := trimEndMatches _ _)] at htrimmed
  exact htrimmed

end Names

/-! ### Decryption over a tree -/

section Fetched

variable [CommandPrimitives]
variable {k : Keys} {key : Bytes} {v : Variant} {walk : List (CtPath × Bytes)}
variable {plain out : PlainMap} {d : ClientDisk} {work pushed : WorkTree} {name : String}

theorem endsWith_of_decryptInto
    (hplain : ∀ name : String, plain[name]? ≠ none → endsWith ".sgit" name = false)
    (h : decryptInto walk plain key v = .ok out) :
    ∀ name : String, out[name]? ≠ none → endsWith ".sgit" name = false := by
  induction walk generalizing plain with
  | nil =>
    obtain rfl := Except.ok.inj h
    exact hplain
  | cons entry walk ih =>
    rw [decryptInto, List.foldlM_cons] at h
    obtain ⟨next, hentry, hrest⟩ := bind_eq_ok_iff.mp h
    refine ih ?_ hrest
    rw [decryptEntry] at hentry
    split_ifs at hentry with hct
    · obtain ⟨body, -, hnext⟩ := bind_eq_ok_iff.mp hentry
      obtain rfl := Except.ok.inj hnext
      intro name hname
      by_cases hsame : name = plainName entry.1
      · rw [hsame]
        exact endsWith_plainName entry.1
      · rw [getElem?_insert_of_ne hsame] at hname
        exact hplain name hname
    · obtain rfl := Except.ok.inj hentry
      exact hplain

omit [CommandPrimitives] in
/-- Texts that are written over a tree. -/
theorem getElem?_written : (plain.toList.foldl
      (fun work entry => work.insert entry.1 (strBytes entry.2)) work)[name]? =
    (plain[name]?.map strBytes).or work[name]? := by
  rw [getElem?_foldl_insert (fun _ => strBytes)
    fun entry hmem => ExtTreeMap.mem_toList_iff_getElem?_eq_some.mp hmem]
  split_ifs with hname
  · cases hbody : plain[name]? with
    | none => exact absurd hbody (mem_map_fst_toList.mp hname)
    | some body => rfl
  · rw [mem_map_fst_toList, not_not] at hname
    rw [hname]
    rfl

/-- What is fetched is written, or nothing is. -/
theorem work_decryptFetched_cases (k : Keys) (v : Variant) (d : ClientDisk) :
    (decryptFetched k v d).work = d.work ∨
    ∃ plain, decryptInto d.tree.toList ∅ k.contentKey v = .ok plain ∧
      ∀ name : String, (decryptFetched k v d).work[name]? =
        (plain[name]?.map strBytes).or d.work[name]? := by
  rw [decryptFetched]
  split
  · rename_i plain hfetched
    obtain ⟨-, -, hplain⟩ := bind_eq_ok_iff.mp hfetched
    exact .inr ⟨plain, hplain, fun name => getElem?_written⟩
  · exact .inl rfl

theorem frame_decryptFetched (k : Keys) (v : Variant) (d : ClientDisk) :
    (decryptFetched k v d).tree = d.tree ∧ (decryptFetched k v d).history = d.history := by
  rw [decryptFetched]
  split
  · exact ⟨rfl, rfl⟩
  · exact ⟨rfl, rfl⟩

/-- Nothing is removed. -/
theorem eq_none_of_decryptFetched (h : (decryptFetched k v d).work[name]? = none) :
    d.work[name]? = none := by
  rcases work_decryptFetched_cases k v d with hwork | ⟨plain, -, hwork⟩
  · rwa [hwork] at h
  · rw [hwork, Option.or_eq_none_iff] at h
    exact h.2

/-- The tree of a reader has none but texts, under names without the ending. -/
theorem Portable.decryptFetched (h : Portable d.work) :
    Portable (SGit.decryptFetched k v d).work := by
  rcases work_decryptFetched_cases k v d with hwork | ⟨plain, hplain, hwork⟩
  · rwa [hwork]
  · intro name bytes hvisible hbytes
    rw [hwork] at hbytes
    cases hbody : plain[name]? with
    | none =>
      rw [hbody] at hbytes
      exact h name bytes hvisible hbytes
    | some body =>
      rw [hbody] at hbytes
      obtain rfl := Option.some.inj hbytes
      refine ⟨endsWith_of_decryptInto ?_ hplain name ?_, body, fromUtf8_strBytes body⟩
      · intro other hother
        exact absurd ExtTreeMap.getElem?_empty hother
      · rw [hbody]
        exact Option.some_ne_none body

/-- What was pushed is fetched over the tree of a reader. -/
theorem sameFiles_decryptFetched_iff (hsigned : verifyTag d.tree commandRid = .ok ())
    (htexts : HoldsTexts k.contentKey v d.tree (readPlain pushed)) (hwork : Portable d.work) :
    SameFiles (decryptFetched k v d).work pushed ↔ ComesAcross d.work pushed := by
  constructor
  · intro hsame
    refine ⟨fun name bytes hvisible hbytes => ?_, fun name hvisible hnone => ?_⟩
    · rw [← hsame name hvisible] at hbytes
      exact hwork.decryptFetched name bytes hvisible hbytes
    · rw [← hsame name hvisible] at hnone
      exact eq_none_of_decryptFetched hnone
  · intro h name hvisible
    -- all pushed names come back from the names of their ciphertext files
    have hclean : ∀ name body : String, (readPlain pushed)[name]? = some body → Clean name := by
      intro name body hbody
      obtain ⟨hshown, hbytes⟩ := getElem?_readPlain.mp hbody
      exact ⟨htexts.shown hbody,
        plainName_ctFilePath_iff.mpr (h.portable name _ hshown hbytes).1⟩
    obtain ⟨htree, hencodes⟩ := htexts.encodes hclean
    have hplain := decryptInto_of_encodes htree hencodes (.refl _)
    have hfetched : (do
        verifyTag d.tree commandRid
        decryptInto d.tree.toList ∅ k.contentKey v) = .ok (readPlain pushed) :=
      bind_eq_ok_iff.mpr ⟨(), hsigned, hplain⟩
    rw [decryptFetched, hfetched]
    dsimp only
    rw [getElem?_written]
    -- a pushed file is written, any other visible one was in the work tree before
    cases hbytes : pushed[name]? with
    | some bytes =>
      obtain ⟨-, body, hbody⟩ := h.portable name bytes hvisible hbytes
      obtain rfl := fromUtf8_eq_some_iff.mp hbody
      rw [getElem?_readPlain.mpr ⟨hvisible, hbytes⟩]
      rfl
    | none =>
      have hnone : (readPlain pushed)[name]? = none := by
        by_contra hne
        obtain ⟨body, hbody⟩ := Option.ne_none_iff_exists'.mp hne
        rw [(getElem?_readPlain.mp hbody).2] at hbytes
        cases hbytes
      rw [hnone, h.kept name hvisible hbytes]
      rfl

end Fetched

/-! ### Readers -/

section Readers

variable {head fetched : CtTree} {remote remote' : List Commit} {d : ClientDisk} {top : Commit}

/-- A checkout without changes is what was fetched. -/
theorem fastForward_self (head fetched : CtTree) : fastForward head fetched head = fetched := by
  apply ExtTreeMap.ext_getElem?
  intro path
  rw [fastForward, getElem?_foldl_erase]
  rw [getElem?_foldl_insert (fun _ bytes => bytes) fun entry hmem =>
    ExtTreeMap.mem_toList_iff_getElem?_eq_some.mp (List.mem_filter.mp hmem).1]
  split_ifs with hgone hupdated
  · exact (mem_removed_iff.mp hgone).2.symm
  · rw [Option.map_id']
  · -- what is not updated is the same on both sides, or in neither
    by_contra hne
    cases hbytes : fetched[path]? with
    | none =>
      rw [hbytes] at hne
      exact hgone (mem_removed_iff.mpr ⟨hne, hbytes⟩)
    | some bytes =>
      rw [hbytes] at hne
      refine hupdated (List.mem_map.mpr ⟨(path, bytes), List.mem_filter.mpr ⟨?_, ?_⟩, rfl⟩)
      · exact ExtTreeMap.mem_toList_iff_getElem?_eq_some.mpr hbytes
      · exact decide_eq_true hne

/-- A history that goes on from another. -/
theorem extendsHistory_of_longer {history : List Commit} (h : remote <+: history) :
    extendsHistory history remote = true :=
  List.isPrefixOf_iff_prefix.mpr (h.map Commit.id)

/-- A client that has only ever fetched. -/
structure ReaderOk (remote : List Commit) (d : ClientDisk) : Prop where
  history : d.history <+: remote
  tree : d.tree = headTree d.history
  work : Portable d.work

theorem ReaderOk.mono (h : ReaderOk remote d) (hmore : remote <+: remote') : ReaderOk remote' d :=
  ⟨h.history.trans hmore, h.tree, h.work⟩

variable [CommandPrimitives] {k : Keys} {v : Variant}

theorem cloneInto_eq (k : Keys) (v : Variant) (d : ClientDisk)
    (htop : remote.getLast? = some top) : cloneInto k v true d remote =
      decryptFetched k v { d with tree := top.tree, history := remote } := by
  rw [cloneInto, if_pos rfl, headTree_eq htop]

/-- A pull of a reader is as good as a clone. -/
theorem ReaderOk.pullInto_eq (h : ReaderOk remote d) (htop : remote.getLast? = some top) :
    pullInto k v true d remote = cloneInto k v true d remote := by
  rw [cloneInto_eq k v d htop, pullInto, htop]
  dsimp only
  rw [if_neg (by decide), if_pos (extendsHistory_of_longer h.history), h.tree, fastForward_self]

theorem ReaderOk.cloneInto (h : ReaderOk remote d) (fetched : Bool) :
    ReaderOk remote (cloneInto k v fetched d remote) := by
  rw [SGit.cloneInto]
  split_ifs
  · obtain ⟨htree, hhistory⟩ :=
      frame_decryptFetched k v { d with tree := headTree remote, history := remote }
    refine ⟨hhistory ▸ List.prefix_rfl, ?_, Portable.decryptFetched h.work⟩
    rw [htree, hhistory]
  · exact h

theorem ReaderOk.pullInto (h : ReaderOk remote d) (fetched : Bool) :
    ReaderOk remote (pullInto k v fetched d remote) := by
  cases htop : remote.getLast? with
  | none =>
    rw [SGit.pullInto, htop]
    exact h
  | some top =>
    cases fetched with
    | false =>
      rw [SGit.pullInto, htop]
      exact h
    | true =>
      rw [h.pullInto_eq htop]
      exact h.cloneInto true

end Readers

/-! ### One writer and its readers -/

section Sharing

variable [CommandPrimitives]
variable {k : Keys} {v : Variant} {acs : Bytes} {w w' : World} {op : SyncOp} {ops : List SyncOp}
variable {i j : ℕ} {d : ClientDisk}

/-- What one writer and its readers do. The writer has any files, and its pushes are not cut short
before their commit. The readers may have files of their own. -/
def Shared (v : Variant) : SyncOp → Prop
  | .edit i work => if i = 0 then SourceTree work else Portable work
  | .push i v' _ stop => i = 0 ∧ v' = v ∧ (stop = .never ∨ stop = .sending)
  | .pull i v' _ => i ≠ 0 ∧ v' = v
  | .clone i v' _ => i ≠ 0 ∧ v' = v

/-- The reader that a command fetches for, if it does. -/
def readerOf : SyncOp → Option ℕ
  | .clone i _ true => some i
  | .pull i _ true => some i
  | _ => none

/-- What a command fetches is what was pushed. -/
def Faithful (k : Keys) (w : World) (op : SyncOp) : Prop :=
  ∀ i v pushed w', readerOf op = some i → w.pushed = some (v, pushed) →
    syncStep k w op = some w' → SameFiles (w'.clients i).work pushed

/-- The condition for it, on what was pushed and what the reader has. -/
def Carried (w : World) (op : SyncOp) : Prop :=
  ∀ i v pushed, readerOf op = some i → w.pushed = some (v, pushed) →
    ComesAcross (w.clients i).work pushed

/-- A push that is not cut short is taken by the remote. On disk this is so of trees in which no
directory has the name of a file's ciphertext. -/
def GetsThrough (k : Keys) (w : World) (op : SyncOp) : Prop :=
  ∀ i v nonces w', op = .push i v nonces .never → syncStep k w op = some w' →
    w'.pushed = some (v, (w.clients i).work)

/-- What holds of a writer, its readers and their remote. -/
structure SharedOk (k : Keys) (v : Variant) (w : World) : Prop where
  writer : WriterOk k v (w.clients 0)
  source : SourceTree (w.clients 0).work
  remote : w.remote <+: (w.clients 0).history
  pushed {v' : Variant} {work : WorkTree} : w.pushed = some (v', work) →
    ∃ top, w.remote.getLast? = some top ∧ HoldsTexts k.contentKey v top.tree (readPlain work)
  readers : ∀ j, j ≠ 0 → ReaderOk w.remote (w.clients j)

omit [CommandPrimitives] in
theorem clients_setClient_self : (w.setClient i d).clients i = d := if_pos rfl

omit [CommandPrimitives] in
theorem clients_setClient_of_ne (h : j ≠ i) : (w.setClient i d).clients j = w.clients j := if_neg h

/-- A push leaves the other clients alone. -/
theorem clients_of_push {nonces : String → FileNonces} {stop : PushStop}
    (h : j ≠ i) (hstep : syncStep k w (.push i v nonces stop) = some w') :
    w'.clients j = w.clients j := by
  obtain rfl := Option.some.inj hstep
  exact clients_setClient_of_ne h

/-- A reader may get any other tree that is one of a reader. -/
theorem SharedOk.setReader (h : SharedOk k v w) (hi : i ≠ 0) (hd : ReaderOk w.remote d) :
    SharedOk k v (w.setClient i d) := by
  have hwriter : (w.setClient i d).clients 0 = w.clients 0 := clients_setClient_of_ne hi.symm
  refine ⟨hwriter ▸ h.writer, hwriter ▸ h.source, hwriter ▸ h.remote, h.pushed, fun j hj => ?_⟩
  by_cases heq : j = i
  · rw [heq, clients_setClient_self]
    exact hd
  · rw [clients_setClient_of_ne heq]
    exact h.readers j hj

/-- The writer may get any other tree that it could push. -/
theorem SharedOk.setWork {work : WorkTree} (h : SharedOk k v w) (hwork : SourceTree work) :
    SharedOk k v (w.setClient 0 { w.clients 0 with work := work }) := by
  have hwriter := h.writer
  refine ⟨?_, ?_, ?_, h.pushed, fun j hj => ?_⟩
  · rw [clients_setClient_self]
    exact ⟨hwriter.tree, hwriter.head, hwriter.signed, hwriter.fits⟩
  · rw [clients_setClient_self]
    exact hwork
  · rw [clients_setClient_self]
    exact h.remote
  · rw [clients_setClient_of_ne hj]
    exact h.readers j hj

theorem SharedOk.push {nonces : String → FileNonces} {stop : PushStop} {id : ℕ}
    {remote : List Commit} {sent : Bool} (h : SharedOk k v w)
    (hstop : stop = .never ∨ stop = .sending)
    (hpush : push k v nonces stop w.nextId (w.clients 0) w.remote = (d, remote, sent)) :
    SharedOk k v { w.setClient 0 d with
      remote := remote
      nextId := id
      pushed := if sent then some (v, (w.clients 0).work) else w.pushed } := by
  obtain ⟨hwriter, hsnapshot, hwork, hhistory, hsend⟩ := h.writer.push h.source hstop hpush
  have hmore : w.remote <+: d.history := h.remote.trans hhistory
  have hclient : (w.setClient 0 d).clients 0 = d := clients_setClient_self
  have hsource : SourceTree ((w.setClient 0 d).clients 0).work := by
    rw [hclient, hwork]
    exact h.source
  -- the remote takes the whole history or stays
  rcases sendHead_cases hsend with ⟨rfl, -, -, rfl⟩ | ⟨rfl, rfl⟩
  · refine ⟨hclient.symm ▸ hwriter, hsource, hclient.symm ▸ List.prefix_rfl, ?_, fun j hj => ?_⟩
    · intro v' work hpushed
      obtain ⟨rfl, rfl⟩ := Prod.mk.inj (Option.some.inj hpushed)
      obtain ⟨top, htop, htree⟩ := hwriter.head
      exact ⟨top, htop, hsnapshot ▸ htree ▸ hwriter.tree⟩
    · dsimp only
      rw [clients_setClient_of_ne hj]
      exact (h.readers j hj).mono hmore
  · refine ⟨hclient.symm ▸ hwriter, hsource, hclient.symm ▸ hmore, h.pushed, fun j hj => ?_⟩
    dsimp only
    rw [clients_setClient_of_ne hj]
    exact h.readers j hj

/-- Every command of a writer and its readers keeps it. -/
theorem SharedOk.step (h : SharedOk k v w) (hop : Shared v op) (hstep : syncStep k w op = some w') :
    SharedOk k v w' := by
  cases op with
  | edit i work =>
    cases hstep
    rw [Shared] at hop
    split_ifs at hop with hi
    · subst hi
      exact h.setWork hop
    · have hreader := h.readers i hi
      exact h.setReader hi ⟨hreader.history, hreader.tree, hop⟩
  | pull i v' fetched =>
    cases hstep
    exact h.setReader hop.1 ((h.readers i hop.1).pullInto fetched)
  | clone i v' fetched =>
    cases hstep
    exact h.setReader hop.1 ((h.readers i hop.1).cloneInto fetched)
  | push i v' nonces stop =>
    obtain ⟨rfl, rfl, hstop⟩ := hop
    generalize hpush : SGit.push k v' nonces stop w.nextId (w.clients 0) w.remote = result at hstep
    obtain ⟨d, remote, sent⟩ := result
    rw [syncStep, hpush] at hstep
    cases hstep
    exact h.push hstop hpush

theorem sharedOk_init (k : Keys) (v : Variant) (acs : Bytes) : SharedOk k v (initWorld k acs) := by
  have hempty {name : String} {bytes : Bytes} : (∅ : WorkTree)[name]? ≠ some bytes := by
    rw [ExtTreeMap.getElem?_empty]
    exact (Option.some_ne_none bytes).symm
  refine ⟨writerOk_init v acs, SourceTree.empty, List.nil_prefix, fun hpushed => ?_,
    fun j hj => ?_⟩
  · cases hpushed
  · have hclient : (initWorld k acs).clients j = ⟨∅, ∅, [], ∅⟩ := if_neg hj
    rw [hclient]
    exact ⟨List.nil_prefix, rfl, fun name bytes _ hbytes => absurd hbytes hempty⟩

/-- A command that fetches does so like a clone. -/
theorem SharedOk.syncStep_eq {v' : Variant} {pushed : WorkTree} (h : SharedOk k v w)
    (hop : Shared v op) (hreader : readerOf op = some i) (hpushed : w.pushed = some (v', pushed)) :
    i ≠ 0 ∧
      syncStep k w op = some (w.setClient i (cloneInto k v true (w.clients i) w.remote)) := by
  unfold readerOf at hreader
  split at hreader
  · obtain rfl := Option.some.inj hreader
    obtain ⟨hi, rfl⟩ := hop
    exact ⟨hi, rfl⟩
  · obtain rfl := Option.some.inj hreader
    obtain ⟨hi, rfl⟩ := hop
    obtain ⟨top, htop, -⟩ := h.pushed hpushed
    rw [syncStep, (h.readers _ hi).pullInto_eq htop]
    exact ⟨hi, rfl⟩
  · cases hreader

/-- A clone over the tree of a reader. -/
theorem SharedOk.sameFiles_cloneInto_iff {v' : Variant} {pushed : WorkTree} (h : SharedOk k v w)
    (hi : i ≠ 0) (hpushed : w.pushed = some (v', pushed)) :
    SameFiles (cloneInto k v true (w.clients i) w.remote).work pushed ↔
      ComesAcross (w.clients i).work pushed := by
  obtain ⟨top, htop, htexts⟩ := h.pushed hpushed
  have hsigned := h.writer.signed top (h.remote.subset (List.mem_of_getLast? htop))
  rw [cloneInto_eq k v (w.clients i) htop]
  exact sameFiles_decryptFetched_iff hsigned htexts (h.readers i hi).work

/-- A command fetches what was pushed exactly if it meets the condition. -/
theorem SharedOk.faithful_iff (h : SharedOk k v w) (hop : Shared v op) :
    Faithful k w op ↔ Carried w op := by
  constructor
  · intro hfaithful i v' pushed hreader hpushed
    obtain ⟨hi, hstep⟩ := h.syncStep_eq hop hreader hpushed
    have hsame := hfaithful i v' pushed _ hreader hpushed hstep
    rw [clients_setClient_self] at hsame
    exact (h.sameFiles_cloneInto_iff hi hpushed).mp hsame
  · intro hcarried i v' pushed w' hreader hpushed hstep
    obtain ⟨hi, hclone⟩ := h.syncStep_eq hop hreader hpushed
    obtain rfl := Option.some.inj (hclone.symm.trans hstep)
    rw [clients_setClient_self]
    exact (h.sameFiles_cloneInto_iff hi hpushed).mpr (hcarried i v' pushed hreader hpushed)

/-- No push of the writer is refused. -/
theorem SharedOk.getsThrough (h : SharedOk k v w) (hop : Shared v op) : GetsThrough k w op := by
  rintro i v' nonces w' rfl hstep
  obtain ⟨rfl, rfl, hstop⟩ := hop
  generalize hpush : SGit.push k v' nonces .never w.nextId (w.clients 0) w.remote = result at hstep
  obtain ⟨d, remote, sent⟩ := result
  rw [syncStep, hpush] at hstep
  cases hstep
  obtain ⟨hwriter, -, -, hhistory, hsend⟩ := h.writer.push h.source hstop hpush
  obtain ⟨top, htop, -⟩ := hwriter.head
  have hnonempty : d.history ≠ [] := List.ne_nil_of_mem (List.mem_of_getLast? htop)
  have hextends := extendsHistory_of_longer (h.remote.trans hhistory)
  rw [sendHead, if_pos ⟨rfl, hnonempty, hextends⟩] at hsend
  obtain ⟨-, rfl⟩ := Prod.mk.inj hsend
  rfl

theorem along_getsThrough (hops : ∀ op ∈ ops, Shared v op) :
    Along (syncStep k) (GetsThrough k) (initWorld k acs) ops :=
  along_of_invariant hops (fun _ _ _ hs hop => hs.step hop) (fun _ _ hs hop => hs.getsThrough hop)
    (sharedOk_init k v acs)

theorem along_faithful_iff (hops : ∀ op ∈ ops, Shared v op) :
    Along (syncStep k) (Faithful k) (initWorld k acs) ops ↔
      Along (syncStep k) Carried (initWorld k acs) ops :=
  along_congr hops (fun _ _ _ hs hop => hs.step hop) (fun _ _ hs hop => hs.faithful_iff hop)
    (sharedOk_init k v acs)

/-- Names are told apart by their ciphertexts, and they come back exactly if they do not have the
ending. In every run of a writer and its readers, what the writer pushes gets through, and every
command that fetches gives its reader what was pushed exactly if every such command meets the
condition. -/
theorem treeFidelity_iff (hops : ∀ op ∈ ops, Shared v op) :
    Function.Injective ctFilePath ∧
    (∀ name, plainName (ctFilePath name) = name ↔ endsWith ".sgit" name = false) ∧
    Along (syncStep k) (GetsThrough k) (initWorld k acs) ops ∧
    (Along (syncStep k) (Faithful k) (initWorld k acs) ops ↔
      Along (syncStep k) Carried (initWorld k acs) ops) :=
  ⟨ctFilePath_injective, fun _ => plainName_ctFilePath_iff, along_getsThrough hops,
    along_faithful_iff hops⟩

end Sharing

/-! ### Names with the ending, and deletions -/

section Sample

attribute [local instance] framedPrimitives

theorem sourceTree_of_name {name text : String} (hname : "" ∉ pathOf name)
    (hsize : text.utf8ByteSize < 2 ^ 63) :
    SourceTree ((∅ : WorkTree).insert name (strBytes text)) := by
  refine SourceTree.empty.insert hname ?_
  rw [length_strBytes]
  exact hsize

/-- A push of a name that has the ending. -/
def endingPushed : List SyncOp :=
  [.edit 0 ((∅ : WorkTree).insert "a.sgit" (strBytes "x")), .push 0 .char zeroNonces .never,
    .clone 1 .char true]

/-- A push of a text, and a push without it. -/
def deletionPushed : List SyncOp :=
  [.edit 0 (oneText "x"), .push 0 .char zeroNonces .never, .clone 1 .char true, .edit 0 ∅,
    .push 0 .char zeroNonces .never, .pull 1 .char true]

theorem shared_endingPushed : ∀ op ∈ endingPushed, Shared .char op := by
  have hsource : SourceTree ((∅ : WorkTree).insert "a.sgit" (strBytes "x")) :=
    sourceTree_of_name (by decide) (by decide)
  refine List.forall_mem_cons.mpr ⟨hsource, List.forall_mem_cons.mpr ⟨⟨rfl, rfl, .inl rfl⟩, ?_⟩⟩
  exact List.forall_mem_singleton.mpr ⟨Nat.one_ne_zero, rfl⟩

theorem shared_deletionPushed : ∀ op ∈ deletionPushed, Shared .char op := by
  have hsource : SourceTree (oneText "x") := sourceTree_of_name (by decide) (by decide)
  refine List.forall_mem_cons.mpr ⟨hsource, List.forall_mem_cons.mpr ⟨⟨rfl, rfl, .inl rfl⟩, ?_⟩⟩
  refine List.forall_mem_cons.mpr ⟨⟨Nat.one_ne_zero, rfl⟩, List.forall_mem_cons.mpr ⟨?_, ?_⟩⟩
  · exact SourceTree.empty
  · exact List.forall_mem_cons.mpr ⟨⟨rfl, rfl, .inl rfl⟩,
      List.forall_mem_singleton.mpr ⟨Nat.one_ne_zero, rfl⟩⟩

theorem not_along_endingPushed :
    ¬ Along (syncStep aliceKeys) (Faithful aliceKeys) (initWorld aliceKeys []) endingPushed := by
  intro halong
  obtain ⟨-, hcarried⟩ := (along_faithful_iff shared_endingPushed).mp halong
  obtain ⟨-, hthrough⟩ : Along (syncStep aliceKeys) (GetsThrough aliceKeys)
      (initWorld aliceKeys []) endingPushed := along_getsThrough shared_endingPushed
  obtain ⟨w, hedit⟩ := exists_syncStep aliceKeys (initWorld aliceKeys [])
    (.edit 0 ((∅ : WorkTree).insert "a.sgit" (strBytes "x")))
  obtain ⟨w', hpush⟩ := exists_syncStep aliceKeys w (.push 0 .char zeroNonces .never)
  have hpushed := (hthrough w hedit).1 0 .char zeroNonces w' rfl hpush
  have hacross := ((hcarried w hedit).2 w' hpush).1 1 .char _ rfl hpushed
  obtain rfl := Option.some.inj hedit
  have hfound : ((∅ : WorkTree).insert "a.sgit" (strBytes "x"))["a.sgit"]? = some (strBytes "x") :=
    ExtTreeMap.getElem?_insert_self
  exact absurd (hacross.portable "a.sgit" _ (by decide) hfound).1 (by decide)

theorem not_along_deletionPushed :
    ¬ Along (syncStep aliceKeys) (Faithful aliceKeys) (initWorld aliceKeys []) deletionPushed := by
  intro halong
  obtain ⟨-, hcarried⟩ := (along_faithful_iff shared_deletionPushed).mp halong
  obtain ⟨-, hthrough⟩ : Along (syncStep aliceKeys) (GetsThrough aliceKeys)
      (initWorld aliceKeys []) deletionPushed := along_getsThrough shared_deletionPushed
  obtain ⟨-, hfaithful⟩ := halong
  obtain ⟨w, hedit⟩ := exists_syncStep aliceKeys (initWorld aliceKeys []) (.edit 0 (oneText "x"))
  obtain ⟨w₂, hpush⟩ := exists_syncStep aliceKeys w (.push 0 .char zeroNonces .never)
  obtain ⟨w₃, hclone⟩ := exists_syncStep aliceKeys w₂ (.clone 1 .char true)
  obtain ⟨w₄, hempty⟩ := exists_syncStep aliceKeys w₃ (.edit 0 ∅)
  obtain ⟨w₅, hpush'⟩ := exists_syncStep aliceKeys w₄ (.push 0 .char zeroNonces .never)
  -- the reader has the text after its clone
  have hpushed := (hthrough w hedit).1 0 .char zeroNonces w₂ rfl hpush
  have hsame := ((hfaithful w hedit).2 w₂ hpush).1 1 .char _ w₃ rfl hpushed hclone
  have hheld : (w₃.clients 1).work["a"]? = some (strBytes "x") := by
    rw [hsame "a" (by decide), ← Option.some.inj hedit, clients_setClient_self]
    exact ExtTreeMap.getElem?_insert_self
  -- and nothing changes that until it pulls
  have hkept : w₅.clients 1 = w₃.clients 1 := by
    rw [clients_of_push Nat.one_ne_zero hpush', ← Option.some.inj hempty]
    exact clients_setClient_of_ne Nat.one_ne_zero
  obtain ⟨-, hthrough⟩ := ((hthrough w hedit).2 w₂ hpush).2 w₃ hclone
  obtain ⟨-, hcarried⟩ := ((hcarried w hedit).2 w₂ hpush).2 w₃ hclone
  have hpushed' := (hthrough w₄ hempty).1 0 .char zeroNonces w₅ rfl hpush'
  have hacross := ((hcarried w₄ hempty).2 w₅ hpush').1 1 .char _ rfl hpushed'
  have hgone := hacross.kept "a" (by decide) (by
    rw [← Option.some.inj hempty, clients_setClient_self]
    exact ExtTreeMap.getElem?_empty)
  rw [hkept, hheld] at hgone
  cases hgone

/-- The reader has the one text under another name, and still has the other. -/
theorem not_treeFidelity :
    plainName (ctFilePath "a.sgit") ≠ "a.sgit" ∧
    ((∀ op ∈ endingPushed, Shared .char op) ∧
      ¬ Along (syncStep aliceKeys) (Faithful aliceKeys) (initWorld aliceKeys []) endingPushed) ∧
    (∀ op ∈ deletionPushed, Shared .char op) ∧
      ¬ Along (syncStep aliceKeys) (Faithful aliceKeys) (initWorld aliceKeys []) deletionPushed :=
  ⟨by decide +kernel, ⟨shared_endingPushed, not_along_endingPushed⟩, shared_deletionPushed,
    not_along_deletionPushed⟩

theorem comesAcross_oneText {work : WorkTree} (text : String)
    (hwork : ∀ name : String, isHidden name = false → name ≠ "a" → work[name]? = none) :
    ComesAcross work (oneText text) := by
  refine ⟨fun name bytes _ hbytes => ?_, fun name hvisible hnone => hwork name hvisible ?_⟩
  · rw [getElem?_oneText] at hbytes
    split_ifs at hbytes with hname
    obtain rfl := Option.some.inj hbytes
    rw [hname]
    exact ⟨by decide +kernel, text, fromUtf8_strBytes text⟩
  · rintro rfl
    rw [getElem?_oneText, if_pos rfl] at hnone
    cases hnone

theorem shared_patchedText : ∀ op ∈ patchedText, Shared .char op := by
  have hpush : Shared .char (.push 0 .char zeroNonces .never) := ⟨rfl, rfl, .inl rfl⟩
  have hedit (text : String) (hsize : text.utf8ByteSize < 2 ^ 63) :
      Shared .char (.edit 0 (oneText text)) := sourceTree_of_name (by decide) hsize
  simp only [patchedText, List.forall_mem_cons]
  exact ⟨hedit "x" (by decide), hpush, ⟨Nat.one_ne_zero, rfl⟩, hedit "xy" (by decide), hpush,
    ⟨Nat.one_ne_zero, rfl⟩, List.forall_mem_nil _⟩

/-- A text is cloned, and pulled when it has become another one. -/
theorem treeFidelity_patchedText :
    Along (syncStep aliceKeys) (Faithful aliceKeys) (initWorld aliceKeys []) patchedText := by
  have hops := shared_patchedText
  obtain ⟨-, -, ⟨-, hthrough⟩, hiff⟩ := @treeFidelity_iff _ aliceKeys .char [] _ hops
  -- every push of the writer is fetched by a reader that has no file but its own
  have hfetch {w : World} {op : SyncOp} {text : String}
      (hpushed : w.pushed = some (.char, oneText text))
      (hwork : ∀ name : String, isHidden name = false → name ≠ "a" →
        (w.clients 1).work[name]? = none) (hreader : readerOf op = some 1) : Carried w op := by
    intro i v pushed hi htree
    obtain rfl := Option.some.inj (hreader.symm.trans hi)
    rw [(Prod.mk.inj (Option.some.inj (htree.symm.trans hpushed))).2]
    exact comesAcross_oneText text hwork
  have hidle {w : World} {op : SyncOp} (hreader : readerOf op = none) : Carried w op := by
    intro i v pushed hi
    cases hreader.symm.trans hi
  refine hiff.mpr ⟨hidle rfl, fun w₁ hedit => ⟨hidle rfl, fun w₂ hpush => ?_⟩⟩
  obtain ⟨hpushed, hthrough⟩ := hthrough w₁ hedit
  have hpushed := hpushed 0 .char zeroNonces w₂ rfl hpush
  have hfresh : (w₂.clients 1).work = ∅ := by
    rw [clients_of_push Nat.one_ne_zero hpush, ← Option.some.inj hedit]
    rfl
  have hheld : w₂.pushed = some (.char, oneText "x") := by
    rw [hpushed, ← Option.some.inj hedit, clients_setClient_self]
  have hclones : Carried w₂ (.clone 1 .char true) :=
    hfetch hheld (fun name _ _ => by rw [hfresh]; exact ExtTreeMap.getElem?_empty) rfl
  refine ⟨hclones, fun w₃ hclone => ⟨hidle rfl, fun w₄ hedit' => ⟨hidle rfl, fun w₅ hpush' =>
    ⟨?_, fun _ _ => trivial⟩⟩⟩⟩
  -- the reader has the first text, and keeps it until it pulls
  have hok : SharedOk aliceKeys .char w₂ :=
    ((sharedOk_init aliceKeys .char []).step (hops _ (by simp [patchedText])) hedit).step
      (hops _ (by simp [patchedText])) hpush
  have hsame := (hok.faithful_iff (hops (.clone 1 .char true) (by simp [patchedText]))).mpr hclones
    1 .char _ w₃ rfl hheld hclone
  have hkept : w₅.clients 1 = w₃.clients 1 := by
    rw [clients_of_push Nat.one_ne_zero hpush', ← Option.some.inj hedit']
    exact clients_setClient_of_ne Nat.one_ne_zero
  obtain ⟨-, hthrough⟩ := (hthrough w₂ hpush).2 w₃ hclone
  have hpushed' := (hthrough w₄ hedit').1 0 .char zeroNonces w₅ rfl hpush'
  rw [← Option.some.inj hedit', clients_setClient_self] at hpushed'
  refine hfetch hpushed' (fun name hvisible hname => ?_) rfl
  rw [hkept, hsame name hvisible, getElem?_oneText, if_neg hname]

end Sample

end SafeHub.SGit
