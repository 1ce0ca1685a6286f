import SafeHub.Lib.Run
import SafeHub.SGit.PushedTree

/-!
# What a push leaves at the remote

A push is right where the snapshot tells what the ciphertexts hold of every file that the push does
not write anew. Pulls and clones move the ciphertexts and not the snapshot, and a push that fails
at its commit has moved the snapshot and not the history. Where no push relies on a snapshot that
is wrong, the remote holds the tree that was pushed last, after every command.

## Main definitions

* `PushMet`, `Synced` — pushes that can rely on the snapshot
* `RemoteHolds` — every clone has the tree that was pushed
* `WorldOk` — what all commands keep

## Main results

* `push_cases` — what a push can come to
* `push_ok`, `Synced.push` — what a push keeps, and when it is right
* `remoteHolds_of_run` — the remote after every run whose pushes meet the condition
-/

namespace SafeHub.SGit

open Perform Run TreeMaps
open Std (ExtTreeMap)

/-! ### A push -/

section Pushing

variable [CommandPrimitives]
variable {k : Keys} {v : Variant} {nonces : String → FileNonces} {stop : PushStop} {id : ℕ}
variable {old new : PlainMap} {d d' : ClientDisk} {remote remote' : List Commit} {sent : Bool}

/-- A commit that was signed as it is. -/
def CommitOk (c : Commit) : Prop := TreeOk c.tree ∧ verifyTag c.tree commandRid = .ok ()

/-- A client with ciphertexts that a reader can tell, on disk and in its history. -/
structure ClientOk (d : ClientDisk) : Prop where
  tree : TreeOk d.tree
  history : ∀ c ∈ d.history, CommitOk c

/-- What every operation of a push keeps. -/
structure KeptFrom (d s : ClientDisk) : Prop where
  tree : TreeOk s.tree
  history : s.history = d.history
  work : s.work = d.work

theorem KeptFrom.step (hclean : ∀ name body : String, new[name]? = some body → Clean name) :
    ∀ op ∈ pushOps k v nonces old new, ∀ s t, KeptFrom d s → op s = .ok t → KeptFrom d t := by
  intro op hop s t hs hstep
  rcases List.mem_append.mp hop with hfile | hlast
  · rcases List.mem_append.mp hfile with hwrite | hremove
    · obtain ⟨entry, hmem, rfl⟩ := List.mem_map.mp hwrite
      have hname := hclean _ _ (mem_changedFiles.mp hmem).1
      obtain ⟨bytes, hbytes, ht⟩ := bind_eq_ok_iff.mp hstep
      obtain rfl := Except.ok.inj ht
      refine ⟨hs.tree.insert hname (ctLines_writtenFile ?_ hbytes), hs.history, hs.work⟩
      exact fun found hfound => (hs.tree _ found hfound hname.1).2
    · obtain ⟨name, -, rfl⟩ := List.mem_map.mp hremove
      obtain rfl := Except.ok.inj hstep
      -- removing leaves fewer files
      refine ⟨hs.tree.mono fun path bytes hfound => ?_, hs.history, hs.work⟩
      by_cases hpath : path = ctFilePath name
      · rw [hpath] at hfound
        simp at hfound
      · rwa [getElem?_erase_of_ne hpath] at hfound
  · rcases List.mem_pair.mp hlast with rfl | rfl
    · obtain rfl := Except.ok.inj hstep
      exact ⟨hs.tree.insert_other (by decide), hs.history, hs.work⟩
    · obtain rfl := Except.ok.inj hstep
      exact ⟨hs.tree, hs.history, hs.work⟩

theorem KeptFrom.performAll {ops : List DiskOp} (hops : ∀ op ∈ ops, op ∈ pushOps k v nonces old new)
    (hclean : ∀ name body : String, new[name]? = some body → Clean name) (htree : TreeOk d.tree) :
    KeptFrom d (Perform.performAll ops d).1 :=
  performAll_invariant (fun op hop => KeptFrom.step hclean op (hops op hop)) ⟨htree, rfl, rfl⟩

/-- A push has nothing to write. -/
def Unchanged (d : ClientDisk) : Prop :=
  (changedFiles d.snapshot (readPlain d.work)).isEmpty ∧
    (deletedFiles d.snapshot (readPlain d.work)).isEmpty

/-- What a push can come to: it stops, it has nothing to write, or it commits. -/
theorem push_cases (h : push k v nonces stop id d remote = (d', remote', sent)) :
    (∃ ops : List DiskOp, (∀ op ∈ ops, op ∈ pushOps k v nonces d.snapshot (readPlain d.work)) ∧
      d' = (performAll ops d).1 ∧ remote' = remote ∧ sent = false) ∨
    (Unchanged d ∧ d' = d ∧ (remote', sent) = sendHead stop d.history remote) ∨
    ∃ done, ¬ Unchanged d ∧
      performAll (pushOps k v nonces d.snapshot (readPlain d.work)) d = (done, true) ∧
      commit id done = some d' ∧ (remote', sent) = sendHead stop d'.history remote := by
  rw [push] at h
  split_ifs at h with hunchanged
  · obtain ⟨rfl, hsent⟩ := Prod.mk.inj h
    rw [Bool.and_eq_true] at hunchanged
    exact .inr (.inl ⟨hunchanged, rfl, hsent.symm⟩)
  · rw [Bool.and_eq_true] at hunchanged
    dsimp only at h
    -- a push that ends on all its operations may still fail to commit
    have hall (done : ClientDisk) (ended : Bool)
        (hops : performAll (pushOps k v nonces d.snapshot (readPlain d.work)) d = (done, ended)) :
        ∃ ops : List DiskOp,
          (∀ op ∈ ops, op ∈ pushOps k v nonces d.snapshot (readPlain d.work)) ∧
            done = (performAll ops d).1 :=
      ⟨_, fun op hop => hop, by rw [hops]⟩
    split at h
    · cases h
      exact .inl ⟨_, fun op hop => List.mem_of_mem_take hop, rfl, rfl, rfl⟩
    · cases h
      exact .inl ⟨_, fun op hop => hop, rfl, rfl, rfl⟩
    · split at h
      · rename_i done hops
        cases h
        obtain ⟨ops, hmem, hdone⟩ := hall _ _ hops
        exact .inl ⟨ops, hmem, hdone, rfl, rfl⟩
      · rename_i done hops
        split at h
        · cases h
          obtain ⟨ops, hmem, hdone⟩ := hall _ _ hops
          exact .inl ⟨ops, hmem, hdone, rfl, rfl⟩
        · rename_i committed hcommit
          obtain ⟨rfl, hsent⟩ := Prod.mk.inj h
          exact .inr (.inr ⟨done, hunchanged, hops, hcommit, hsent.symm⟩)

/-- Every clone by a reader with the keys writes these texts. -/
def ClonesTo (k : Keys) (v : Variant) (tree : CtTree) (plain : PlainMap) : Prop :=
  ∀ (ct : Checkout) (keyFile : Option Bytes) (uid : String) (reader : Keys), ct.tree = tree →
    loadKeysStrict keyFile uid = .ok reader → reader.masterKey = k.masterKey →
    clone (.ok ct) keyFile uid ∅ v = .ok plain

theorem CommitOk.clonesTo {c : Commit} {plain : PlainMap} (hc : CommitOk c)
    (h : Encodes k.contentKey v c.tree plain) : ClonesTo k v c.tree plain := by
  rintro ct keyFile uid reader htree hreader hkey
  have hcontent : reader.contentKey = k.contentKey := by
    rw [Keys.contentKey, hkey, Keys.contentKey]
  refine bind_eq_ok_iff.mpr ⟨ct, rfl, bind_eq_ok_iff.mpr ⟨(), htree ▸ hc.2,
    bind_eq_ok_iff.mpr ⟨reader, hreader, ?_⟩⟩⟩
  rw [hcontent]
  exact decryptInto_of_encodes hc.1 h (htree ▸ ct.perm)

/-- Every clone of the remote has the files of a tree. -/
def RemoteHolds (k : Keys) (v : Variant) (work : WorkTree) (remote : List Commit) : Prop :=
  ∃ top plain, remote.getLast? = some top ∧ ClonesTo k v top.tree plain ∧
    ∀ name : String, work[name]? = plain[name]?.map strBytes

/-- A push of texts of clean names, which, unless it is cut short, can rely on the snapshot: for
what it writes, or for what is already committed. -/
structure PushMet (k : Keys) (v : Variant) (stop : PushStop) (d : ClientDisk) : Prop where
  clean {name body : String} : (readPlain d.work)[name]? = some body → Clean name
  text {name : String} {bytes : Bytes} : stop = .never → d.work[name]? = some bytes →
    ∃ body, (readPlain d.work)[name]? = some body
  fits {name body : String} : stop = .never →
    (readPlain d.work)[name]? = some body ∨ d.snapshot[name]? = some body →
    body.utf8ByteSize < 2 ^ 63
  describes : stop = .never → ¬ Unchanged d →
    Describes k.contentKey v d.tree d.snapshot (readPlain d.work)
  committed {top : Commit} : stop = .never → Unchanged d → d.history.getLast? = some top →
    Encodes k.contentKey v top.tree d.snapshot

/-- What such a push leaves on disk is read as the texts that it was given. -/
theorem PushMet.encodes {done : ClientDisk} (h : PushMet k v stop d) (hd : ClientOk d)
    (hstop : stop = .never) (hchanged : ¬ Unchanged d)
    (hdone : performAll (pushOps k v nonces d.snapshot (readPlain d.work)) d = (done, true)) :
    Encodes k.contentKey v done.tree (readPlain d.work) :=
  encodes_of_pushOps hd.tree (fun _ _ => h.clean) (fun _ _ hbody => h.fits hstop (.inr hbody))
    (fun _ _ hbody => h.fits hstop (.inl hbody)) (h.describes hstop hchanged) hdone

/-- A push that meets the condition keeps all that can be told, and if it succeeds the remote holds
the tree. -/
theorem push_ok (hd : ClientOk d) (hremote : ∀ c ∈ remote, CommitOk c)
    (hmet : PushMet k v stop d) (h : push k v nonces stop id d remote = (d', remote', sent)) :
    ClientOk d' ∧ (∀ c ∈ remote', CommitOk c) ∧ (sent = true → RemoteHolds k v d.work remote') ∧
      (sent = false → remote' = remote) := by
  rcases push_cases h with ⟨ops, hops, rfl, rfl, rfl⟩ | ⟨hunchanged, rfl, hsend⟩ |
      ⟨done, hunchanged, hdone, hcommit, hsend⟩
  · -- wherever it stopped, only whole ciphertext files have been written
    have hkept := KeptFrom.performAll hops (fun _ _ => hmet.clean) hd.tree
    exact ⟨⟨hkept.tree, hkept.history ▸ hd.history⟩, hremote,
      fun hyes => absurd hyes Bool.false_ne_true, fun _ => rfl⟩
  · -- there was nothing to write, and what is sent was committed before
    rcases sendHead_cases hsend with ⟨hsent, hstop, hne, rfl⟩ | ⟨hsent, rfl⟩
    · refine ⟨hd, hd.history, fun _ => ?_, fun hnot => absurd (hsent.symm.trans hnot) (by decide)⟩
      obtain ⟨top, htop⟩ : ∃ top, d'.history.getLast? = some top :=
        ⟨_, List.getLast?_eq_some_getLast hne⟩
      have hencodes := hmet.committed hstop hunchanged htop
      refine ⟨top, d'.snapshot, htop,
        (hd.history top (List.mem_of_getLast? htop)).clonesTo hencodes, fun name => ?_⟩
      rw [getElem?_work (fun _ _ => hmet.text hstop), eq_of_unchanged hunchanged.1 hunchanged.2]
    · exact ⟨hd, hremote, fun hyes => absurd (hsent.symm.trans hyes) (by decide), fun _ => rfl⟩
  · have hkept : KeptFrom d (performAll (pushOps k v nonces d.snapshot (readPlain d.work)) d).1 :=
      KeptFrom.performAll (fun _ hop => hop) (fun _ _ => hmet.clean) hd.tree
    rw [hdone] at hkept
    obtain rfl := commit_eq_some hcommit
    have htop : CommitOk ⟨id, done.tree⟩ := by
      refine ⟨hkept.tree, ?_⟩
      obtain ⟨written, -, rfl⟩ := performAll_pushOps hdone
      exact verifyTag_writeTag _ k commandRid
    -- the commit may have been made and not been sent
    have hd' : ClientOk { done with history := done.history ++ [⟨id, done.tree⟩] } := by
      refine ⟨hkept.tree, List.forall_mem_append.mpr ⟨?_, List.forall_mem_singleton.mpr htop⟩⟩
      rw [hkept.history]
      exact hd.history
    rcases sendHead_cases hsend with ⟨hsent, hstop, -, rfl⟩ | ⟨hsent, rfl⟩
    · refine ⟨hd', hd'.history, fun _ => ?_, fun hnot => absurd (hsent.symm.trans hnot) (by decide)⟩
      have hencodes := hmet.encodes hd hstop hunchanged hdone
      exact ⟨⟨id, done.tree⟩, readPlain d.work, by simp, htop.clonesTo hencodes,
        getElem?_work fun _ _ => hmet.text hstop⟩
    · exact ⟨hd', hremote, fun hyes => absurd (hsent.symm.trans hyes) (by decide), fun _ => rfl⟩

/-- A client whose files and last commit are what the snapshot tells. -/
structure Synced (k : Keys) (v : Variant) (d : ClientDisk) : Prop where
  tree : Encodes k.contentKey v d.tree d.snapshot
  head {top : Commit} : d.history.getLast? = some top → Encodes k.contentKey v top.tree d.snapshot

/-- Such a client may push any texts of clean names. -/
theorem Synced.pushMet (h : Synced k v d)
    (hclean : ∀ name body : String, (readPlain d.work)[name]? = some body → Clean name)
    (htext : ∀ (name : String) (bytes : Bytes), d.work[name]? = some bytes →
      ∃ body, (readPlain d.work)[name]? = some body)
    (hfits : ∀ name body : String, (readPlain d.work)[name]? = some body ∨
      d.snapshot[name]? = some body → body.utf8ByteSize < 2 ^ 63) : PushMet k v stop d :=
  ⟨fun {name body} => hclean name body, fun {name bytes} _ => htext name bytes,
    fun {name body} _ => hfits name body, fun _ _ => h.tree.describes hclean,
    fun {_} _ _ => h.head⟩

/-- And is one again after a push that succeeds. -/
theorem Synced.push (h : Synced k v d) (hd : ClientOk d) (hmet : PushMet k v stop d)
    (hpush : push k v nonces stop id d remote = (d', remote', true)) : Synced k v d' := by
  rcases push_cases hpush with ⟨-, -, -, -, hsent⟩ | ⟨-, rfl, -⟩ |
      ⟨done, hunchanged, hdone, hcommit, hsend⟩
  · cases hsent
  · exact h
  · obtain rfl := commit_eq_some hcommit
    rcases sendHead_cases hsend with ⟨-, hstop, -, -⟩ | ⟨hsent, -⟩
    · have hencodes := hmet.encodes hd hstop hunchanged hdone
      obtain ⟨written, -, rfl⟩ := performAll_pushOps hdone
      refine ⟨hencodes, fun {top} htop => ?_⟩
      rw [List.getLast?_concat] at htop
      obtain rfl := Option.some.inj htop
      exact hencodes
    · cases hsent

end Pushing

/-! ### Fetching -/

section Fetching

theorem treeOk_empty : TreeOk ∅ := by
  intro path bytes hfound
  rw [ExtTreeMap.getElem?_empty] at hfound
  cases hfound

/-- A fast-forward has no files but those on disk and those that were fetched. -/
theorem treeOk_fastForward {head fetched tree : CtTree} (hfetched : TreeOk fetched)
    (htree : TreeOk tree) : TreeOk (fastForward head fetched tree) := by
  intro path bytes hfound hct
  rw [fastForward, getElem?_foldl_erase] at hfound
  split_ifs at hfound
  rcases getElem?_foldl_insert_cases hfound with hdisk | hentry
  · exact htree path bytes hdisk hct
  · have hmem := (List.mem_filter.mp hentry).1
    exact hfetched path bytes (ExtTreeMap.mem_toList_iff_getElem?_eq_some.mp hmem) hct

variable [CommandPrimitives] {k : Keys} {v : Variant} {d : ClientDisk} {remote : List Commit}

/-- Decryption leaves the ciphertexts and the history. -/
theorem ClientOk.decryptFetched (h : ClientOk d) : ClientOk (decryptFetched k v d) := by
  rw [SGit.decryptFetched]
  split
  · exact ⟨h.tree, h.history⟩
  · exact h

/-- The files of the last of some commits. -/
theorem treeOk_headTree (h : ∀ c ∈ remote, CommitOk c) : TreeOk (headTree remote) := by
  rw [headTree]
  cases htop : remote.getLast? with
  | none => exact treeOk_empty
  | some top => exact (h top (List.mem_of_getLast? htop)).1

theorem ClientOk.pullInto (h : ClientOk d) (hremote : ∀ c ∈ remote, CommitOk c) (fetched : Bool) :
    ClientOk (pullInto k v fetched d remote) := by
  rw [SGit.pullInto]
  split
  · exact h
  · rename_i top htop
    split_ifs
    · exact h
    · refine ClientOk.decryptFetched ⟨?_, hremote⟩
      exact treeOk_fastForward (hremote top (List.mem_of_getLast? htop)).1 h.tree
    · exact h.decryptFetched
    · exact h

theorem ClientOk.cloneInto (h : ClientOk d) (hremote : ∀ c ∈ remote, CommitOk c) (fetched : Bool) :
    ClientOk (cloneInto k v fetched d remote) := by
  rw [SGit.cloneInto]
  split_ifs
  · exact ClientOk.decryptFetched ⟨treeOk_headTree hremote, hremote⟩
  · exact h

end Fetching

/-! ### Runs -/

section Runs

variable [CommandPrimitives] {k : Keys} {acs : Bytes} {ops : List SyncOp} {w w' : World}

/-- The condition on a command: a push must meet the one on pushes. -/
def SyncMet (k : Keys) (w : World) : SyncOp → Prop
  | .push i v _ stop => PushMet k v stop (w.clients i)
  | _ => True

/-- What holds of a world in which all pushes have met the condition. -/
structure WorldOk (k : Keys) (w : World) : Prop where
  clients (i : ℕ) : ClientOk (w.clients i)
  remote : ∀ c ∈ w.remote, CommitOk c
  pushed {v : Variant} {work : WorkTree} : w.pushed = some (v, work) →
    RemoteHolds k v work w.remote

theorem World.setClient_ok {i : ℕ} {d : ClientDisk} (h : ∀ j, ClientOk (w.clients j))
    (hd : ClientOk d) (j : ℕ) : ClientOk ((w.setClient i d).clients j) := by
  rw [World.setClient]
  dsimp only
  split_ifs
  · exact hd
  · exact h j

/-- Every command that meets the condition keeps it so. -/
theorem WorldOk.step (h : WorldOk k w) {op : SyncOp} (hmet : SyncMet k w op)
    (hstep : syncStep k w op = some w') : WorldOk k w' := by
  cases op with
  | edit i work =>
    cases hstep
    exact ⟨World.setClient_ok h.clients ⟨(h.clients i).tree, (h.clients i).history⟩, h.remote,
      h.pushed⟩
  | pull i v fetched =>
    cases hstep
    exact ⟨World.setClient_ok h.clients ((h.clients i).pullInto h.remote fetched), h.remote,
      h.pushed⟩
  | clone i v fetched =>
    cases hstep
    exact ⟨World.setClient_ok h.clients ((h.clients i).cloneInto h.remote fetched), h.remote,
      h.pushed⟩
  | push i v nonces stop =>
    generalize hpush : push k v nonces stop w.nextId (w.clients i) w.remote = result at hstep
    obtain ⟨d, remote, sent⟩ := result
    rw [syncStep, hpush] at hstep
    cases hstep
    obtain ⟨hd, hremote, hsent, hkept⟩ := push_ok (h.clients i) h.remote hmet hpush
    refine ⟨World.setClient_ok h.clients hd, hremote, fun {v' work} hpushed => ?_⟩
    dsimp only at hpushed ⊢
    cases sent with
    | true =>
      cases hpushed
      exact hsent rfl
    | false =>
      -- a push that fails leaves the remote, and with it what the last one has left there
      rw [hkept rfl]
      exact h.pushed hpushed

theorem worldOk_init : WorldOk k (initWorld k acs) := by
  have htree : TreeOk (writeTag ((∅ : CtTree).insert acsPath acs) k commandRid) :=
    (treeOk_empty.insert_other (by decide)).insert_other (by decide)
  refine ⟨fun i => ?_, List.forall_mem_nil _, fun {v work} hpushed => by cases hpushed⟩
  rw [initWorld]
  dsimp only
  split_ifs
  · exact ⟨htree, List.forall_mem_singleton.mpr ⟨htree, verifyTag_writeTag _ k commandRid⟩⟩
  · exact ⟨treeOk_empty, List.forall_mem_nil _⟩

/-- In every run of edits, pushes, pulls and clones whose pushes meet the condition, wherever they
are cut short, the remote holds the tree that was pushed last, in every state. -/
theorem remoteHolds_of_run (h : Along (syncStep k) (SyncMet k) (initWorld k acs) ops)
    (hrun : run (syncStep k) (initWorld k acs) ops = some w) :
    ∀ v work, w.pushed = some (v, work) → RemoteHolds k v work w.remote := by
  have hok : WorldOk k w := h.invariant (fun s op t hs hmet hstep => hs.step hmet hstep)
    worldOk_init hrun
  exact fun v work => hok.pushed

/-- A repository begins without ciphertexts. -/
theorem getElem?_initTree {path : CtPath} (h : isCiphertext path = true) :
    (writeTag ((∅ : CtTree).insert acsPath acs) k commandRid)[path]? = none := by
  have hpath {other : CtPath} (hother : isCiphertext other = false) : path ≠ other := by
    rintro rfl
    rw [h] at hother
    cases hother
  rw [writeTag, getElem?_insert_of_ne (hpath (by decide)),
    getElem?_insert_of_ne (hpath (by decide)), ExtTreeMap.getElem?_empty]

/-- The client that has created the repository can push. -/
theorem synced_init (v : Variant) : Synced k v ((initWorld k acs).clients 0) := by
  have hencodes : Encodes k.contentKey v
      (writeTag ((∅ : CtTree).insert acsPath acs) k commandRid) ∅ := by
    constructor
    · intro name body hbody
      rw [ExtTreeMap.getElem?_empty] at hbody
      cases hbody
    · intro name hname
      rw [getElem?_initTree hname.1, ExtTreeMap.getElem?_empty]
      exact .none
  refine ⟨hencodes, fun {top} htop => ?_⟩
  obtain rfl := Option.some.inj htop
  exact hencodes

/-- A command always comes to something. -/
theorem exists_syncStep (k : Keys) (w : World) (op : SyncOp) : ∃ w', syncStep k w op = some w' := by
  cases op <;> exact ⟨_, rfl⟩

theorem exists_run (k : Keys) (w : World) (ops : List SyncOp) :
    ∃ w', run (syncStep k) w ops = some w' := by
  induction ops generalizing w with
  | nil => exact ⟨w, rfl⟩
  | cons op ops ih =>
    obtain ⟨next, hnext⟩ := exists_syncStep k w op
    obtain ⟨w', hrun⟩ := ih next
    exact ⟨w', run_cons_eq_some.mpr ⟨next, hnext, hrun⟩⟩

theorem syncStep_push_of_sent {i : ℕ} {v : Variant} {nonces : String → FileNonces}
    {stop : PushStop} {d : ClientDisk} {remote : List Commit}
    (h : push k v nonces stop w.nextId (w.clients i) w.remote = (d, remote, true)) :
    syncStep k w (.push i v nonces stop) = some { w.setClient i d with
      remote := remote
      nextId := w.nextId + 1
      pushed := some (v, (w.clients i).work) } := by
  rw [syncStep, h]
  rfl

/-- Once something has been pushed there is a last push. -/
theorem pushed_isSome_of_run (h : w.pushed.isSome)
    (hrun : run (syncStep k) w ops = some w') : w'.pushed.isSome := by
  refine run_invariant (P := fun w => w.pushed.isSome) (fun s op t hs hstep => ?_) h hrun
  cases op with
  | push i v nonces stop =>
    generalize hpush : push k v nonces stop s.nextId (s.clients i) s.remote = result at hstep
    obtain ⟨d, remote, sent⟩ := result
    rw [syncStep, hpush] at hstep
    cases hstep
    cases sent with
    | true => rfl
    | false => exact hs
  | edit i work =>
    cases hstep
    exact hs
  | pull i v fetched =>
    cases hstep
    exact hs
  | clone i v fetched =>
    cases hstep
    exact hs

end Runs

/-! ### A commit that fails -/

section Sample

attribute [local instance] framedPrimitives

/-- A tree of one text. -/
def oneText (body : String) : WorkTree := (∅ : WorkTree).insert "a" (strBytes body)

theorem getElem?_oneText (text name : String) :
    (oneText text)[name]? = if name = "a" then some (strBytes text) else none := by
  split_ifs with hname
  · rw [hname]
    exact ExtTreeMap.getElem?_insert_self
  · exact getElem?_insert_of_ne hname

theorem getElem?_readPlain_oneText (text name : String) :
    (readPlain (oneText text))[name]? = if name = "a" then some text else none := by
  rw [readPlain, ExtTreeMap.getElem?_filterMap', getElem?_oneText]
  by_cases hname : name = "a"
  · have hshown : isHidden name = false := by
      rw [hname]
      decide +kernel
    rw [if_pos hname, if_pos hname, Option.bind_some, hshown, fromUtf8_strBytes]
    rfl
  · rw [if_neg hname, if_neg hname]
    rfl

/-- A push, an edit, a push that fails at its commit, and a push of the same tree. -/
def failedCommit : List SyncOp :=
  [.edit 0 (oneText "x"), .push 0 .line zeroNonces .never, .edit 0 (oneText "y"),
    .push 0 .line zeroNonces .committing, .push 0 .line zeroNonces .never]

/-- What a clone of the remote by lines has. -/
def remoteTexts (w : World) : Option (List (String × String)) :=
  w.remote.getLast?.bind fun top =>
    (clone (.ok ⟨top.tree, top.tree.toList, .refl _⟩) (some aliceKeyFile) "alice" ∅
      .line).toOption.map ExtTreeMap.toList

/-- What was pushed last. -/
def pushedFiles (w : World) : Option (Variant × List (String × Bytes)) :=
  w.pushed.map fun pushed => (pushed.1, pushed.2.toList)

/-- The last push succeeds, and the remote has the text before. -/
theorem not_remoteHolds_failedCommit :
    ¬ ∀ w, run (syncStep aliceKeys) (initWorld aliceKeys []) failedCommit = some w →
      ∀ v work, w.pushed = some (v, work) → RemoteHolds aliceKeys v work w.remote := by
  intro h
  obtain ⟨w, hw⟩ := exists_run aliceKeys (initWorld aliceKeys []) failedCommit
  have hremote : (run (syncStep aliceKeys) (initWorld aliceKeys []) failedCommit).bind
      remoteTexts = some [("a", "x")] := by
    decide +kernel
  have hpushed : (run (syncStep aliceKeys) (initWorld aliceKeys []) failedCommit).bind
      pushedFiles = some (.line, [("a", strBytes "y")]) := by
    decide +kernel
  rw [hw, Option.bind_some] at hremote hpushed
  obtain ⟨⟨v, work⟩, hwork, hfiles⟩ := Option.map_eq_some_iff.mp hpushed
  obtain ⟨rfl, hlist⟩ := Prod.mk.inj hfiles
  obtain ⟨top, plain, htop, hclones, hholds⟩ := h w hw _ work hwork
  have hkeys : (loadKeysStrict (some aliceKeyFile) "alice").toOption.map Keys.masterKey =
      some aliceKeys.masterKey := by decide +kernel
  rw [remoteTexts, htop, Option.bind_some] at hremote
  cases hreader : loadKeysStrict (some aliceKeyFile) "alice" with
  | error e =>
    rw [hreader] at hkeys
    cases hkeys
  | ok reader =>
    rw [hreader] at hkeys
    rw [hclones ⟨top.tree, top.tree.toList, .refl _⟩ _ _ reader rfl hreader
      (Option.some.inj hkeys)] at hremote
    -- the clone has one text and the tree another one
    have hcloned : plain["a"]? = some "x" := by
      rw [← ExtTreeMap.mem_toList_iff_getElem?_eq_some, Option.some.inj hremote]
      exact List.mem_singleton_self _
    have hedited : work["a"]? = some (strBytes "y") := by
      rw [← ExtTreeMap.mem_toList_iff_getElem?_eq_some, hlist]
      exact List.mem_singleton_self _
    have hsame := hholds "a"
    rw [hcloned, hedited] at hsame
    exact absurd (strBytes_injective (Option.some.inj hsame)) (by decide)

/-- A push of a text, a clone, a push of a longer text, whose difference is appended, and a pull. -/
def patchedText : List SyncOp :=
  [.edit 0 (oneText "x"), .push 0 .char zeroNonces .never, .clone 1 .char true,
    .edit 0 (oneText "xy"), .push 0 .char zeroNonces .never, .pull 1 .char true]

theorem pushMet_oneText {d : ClientDisk} {stop : PushStop} {text : String}
    (h : Synced aliceKeys .char d) (hwork : d.work = oneText text)
    (hsize : text.utf8ByteSize < 2 ^ 63)
    (hsnapshot : ∀ name body : String, d.snapshot[name]? = some body →
      body.utf8ByteSize < 2 ^ 63) : PushMet aliceKeys .char stop d := by
  have hread (name body : String) (hbody : (readPlain d.work)[name]? = some body) :
      name = "a" ∧ body = text := by
    rw [hwork, getElem?_readPlain_oneText] at hbody
    split_ifs at hbody with hname
    exact ⟨hname, (Option.some.inj hbody).symm⟩
  apply h.pushMet
  · intro name body hbody
    rw [(hread name body hbody).1]
    exact ⟨by decide +kernel, by decide +kernel⟩
  · intro name bytes hbytes
    rw [hwork, getElem?_oneText] at hbytes
    split_ifs at hbytes with hname
    exact ⟨text, by rw [hwork, getElem?_readPlain_oneText, if_pos hname]⟩
  · rintro name body (hbody | hbody)
    · rw [(hread name body hbody).2]
      exact hsize
    · exact hsnapshot name body hbody

/-- The first push, with what it leaves. -/
theorem exists_firstPush_oneText : ∃ d remote,
    push aliceKeys .char zeroNonces .never 1
      { (initWorld aliceKeys []).clients 0 with work := oneText "x" } [] = (d, remote, true) ∧
    Synced aliceKeys .char d ∧ d.snapshot.toList = [("a", "x")] := by
  generalize hpush : push aliceKeys .char zeroNonces .never 1
    { (initWorld aliceKeys []).clients 0 with work := oneText "x" } [] = result
  have hsent : result.2.2 = true := by
    rw [← hpush]
    decide +kernel
  have hsnapshot : result.1.snapshot.toList = [("a", "x")] := by
    rw [← hpush]
    decide +kernel
  obtain ⟨d, remote, sent⟩ := result
  obtain rfl : sent = true := hsent
  have hsynced : Synced aliceKeys .char
      { (initWorld aliceKeys []).clients 0 with work := oneText "x" } :=
    ⟨(synced_init .char).tree, (synced_init .char).head⟩
  have hclient := (@worldOk_init framedPrimitives aliceKeys []).clients 0
  have hmet : PushMet aliceKeys .char .never
      { (initWorld aliceKeys []).clients 0 with work := oneText "x" } :=
    pushMet_oneText hsynced rfl (by decide) fun name body hbody => by cases hbody
  exact ⟨d, remote, rfl, hsynced.push ⟨hclient.tree, hclient.history⟩ hmet hpush, hsnapshot⟩

/-- The world after the first edit. -/
def editedWorld : World :=
  (initWorld aliceKeys []).setClient 0
    { (initWorld aliceKeys []).clients 0 with work := oneText "x" }

/-- The first push of the run is sent. -/
theorem syncStep_firstPush : ∃ d remote,
    syncStep aliceKeys editedWorld (.push 0 .char zeroNonces .never) = some
      { editedWorld.setClient 0 d with
        remote := remote
        nextId := 2
        pushed := some (.char, oneText "x") } ∧
    Synced aliceKeys .char d ∧ d.snapshot.toList = [("a", "x")] := by
  obtain ⟨d, remote, hpush, hsynced, hsnapshot⟩ := exists_firstPush_oneText
  exact ⟨d, remote, syncStep_push_of_sent hpush, hsynced, hsnapshot⟩

/-- What is pushed last the remote holds, and something is pushed. -/
theorem remoteHolds_patchedText :
    ∃ w, run (syncStep aliceKeys) (initWorld aliceKeys []) patchedText = some w ∧
      w.pushed.isSome ∧
      ∀ v work, w.pushed = some (v, work) → RemoteHolds aliceKeys v work w.remote := by
  obtain ⟨d, remote, hfirst, hsynced, hsnapshot⟩ := syncStep_firstPush
  have hinit := @synced_init framedPrimitives aliceKeys [] .char
  have halong : Along (syncStep aliceKeys) (SyncMet aliceKeys) (initWorld aliceKeys [])
      patchedText := by
    refine ⟨trivial, fun w₁ hedit => ⟨?_, fun w₂ hpush => ⟨trivial, fun w₃ hclone =>
      ⟨trivial, fun w₄ hedit' => ⟨?_, fun w₅ _ => ⟨trivial, fun _ _ => trivial⟩⟩⟩⟩⟩⟩
    · obtain rfl := Option.some.inj hedit
      refine pushMet_oneText ⟨hinit.tree, hinit.head⟩ rfl (by decide) fun name body hbody => ?_
      cases hbody
    · -- the first push has left the snapshot right
      obtain rfl := Option.some.inj hedit
      obtain rfl := Option.some.inj (hfirst.symm.trans hpush)
      obtain rfl := Option.some.inj hclone
      obtain rfl := Option.some.inj hedit'
      refine pushMet_oneText ⟨hsynced.tree, hsynced.head⟩ rfl (by decide) fun name body hbody => ?_
      have hmem : (name, body) ∈ d.snapshot.toList :=
        ExtTreeMap.mem_toList_iff_getElem?_eq_some.mpr hbody
      rw [hsnapshot] at hmem
      obtain ⟨rfl, rfl⟩ := Prod.mk.inj (List.mem_singleton.mp hmem)
      decide
  obtain ⟨w, hw⟩ := exists_run aliceKeys (initWorld aliceKeys []) patchedText
  refine ⟨w, hw, ?_, remoteHolds_of_run halong hw⟩
  obtain ⟨w₁, hedit, hafter⟩ := run_cons_eq_some.mp hw
  obtain ⟨w₂, hpush, hafter⟩ := run_cons_eq_some.mp hafter
  obtain rfl := Option.some.inj hedit
  obtain rfl := Option.some.inj (hfirst.symm.trans hpush)
  exact pushed_isSome_of_run rfl hafter

end Sample

end SafeHub.SGit
