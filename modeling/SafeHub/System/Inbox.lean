import SafeHub.System.Symbolic

/-!
# Which collaboration messages reach the inbox?

A sync reads a page of the queue, keeps the messages that open under the MAC key of the
current epoch and moves its cursor past the whole page. It never tries the retained keys of
earlier epochs. So a message is lost exactly when a sync passes it under another key than
the one it is sealed under, although the device still holds that key.

## Main definitions

* `InboxComplete` — every message passed under a held key is in the inbox
* `World.SyncsCurrent` — a sync passes such messages only under their own key

## Main results

* `Mailboxes.run` — messages are numbered in order and inboxes stay behind their cursors
* `inboxComplete_iff` — exactly which runs lose no message
-/

namespace SafeHub

open Run

variable {E S K L : Type} [MlsExporter E S K] [SeedKdf S K] [KeyKdf K]
variable [DecidableEq S] [DecidableEq K] [DecidableEq L]
variable {dir : Directory L} {admin : MlDsa87KeyPair} {tape : ℕ → OpDraws E S K}
variable {world next : World E S K L} {ops : List Op} {op : Op} {user v : UserId}
variable {material : EpochMaterial S K} {env : MlsDeliveryEnvelope E S K L}

/-! ### The property and its condition -/

/-- The material holds the MAC key, as the current or as a retained one. -/
def EpochMaterial.HoldsRefsMac (material : EpochMaterial S K) (key : K) : Prop :=
  ∃ epoch, material.refsMacAt epoch = some key

/-- Every collaboration message whose key a device held when a sync passed it is in the
device's inbox. -/
def InboxComplete (dir : Directory L) (admin : MlDsa87KeyPair) (tape : ℕ → OpDraws E S K)
    (ops : List Op) (world : World E S K L) : Prop :=
  ∀ front user back (before : World E S K L) material, ops = front ++ .sync user :: back →
    runOps dir admin tape front = some before →
    (before.devices user).material = some material →
    ∀ env ∈ before.mlsFetch (before.devices user).cursor, ∀ box, env.payload = .collab box →
      box.aad = collabAad → material.HoldsRefsMac box.key →
      (env.seq, box.plaintext) ∈ (world.devices user).inbox

/-- A sync passes the collaboration messages whose key the device holds in the epoch of that
key. -/
def World.SyncsCurrent (world : World E S K L) : Op → Prop
  | .sync user => ∀ material, (world.devices user).material = some material →
      ∀ env ∈ world.mlsFetch (world.devices user).cursor, ∀ box, env.payload = .collab box →
        box.aad = collabAad → material.HoldsRefsMac box.key → box.key = material.refsMac
  | _ => True

/-! ### What a sync leaves -/

omit [MlsExporter E S K] [SeedKdf S K] [KeyKdf K] [DecidableEq S] [DecidableEq L] in
theorem openCollab_eq_some_iff {entry : ℕ × Bytes} :
    openCollab material env = some entry ↔ ∃ box, env.payload = .collab box ∧
      box.key = material.refsMac ∧ box.aad = collabAad ∧ entry = (env.seq, box.plaintext) := by
  obtain ⟨seq, payload, hint⟩ := env
  cases payload with
  | grant sent => simp [openCollab]
  | collab box =>
    simp only [openCollab, SealedBox.openWith]
    split_ifs with hopen
    · simp [Except.toOption, hopen, eq_comm]
    · simp only [Except.toOption, Option.map_none, reduceCtorEq, Payload.collab.injEq,
        exists_eq_left', false_iff]
      exact fun h => hopen ⟨h.1, h.2.1⟩

theorem le_foldl_max (seqs : List ℕ) (cursor : ℕ) :
    cursor ≤ seqs.foldl max cursor ∧ ∀ seq ∈ seqs, seq ≤ seqs.foldl max cursor := by
  induction seqs generalizing cursor with
  | nil => exact ⟨le_rfl, fun seq h => absurd h List.not_mem_nil⟩
  | cons first seqs ih =>
    obtain ⟨hcursor, hseqs⟩ := ih (max cursor first)
    rw [List.foldl_cons]
    refine ⟨(le_max_left cursor first).trans hcursor, ?_⟩
    intro seq hmem
    rcases List.mem_cons.mp hmem with rfl | hmem
    · exact (le_max_right cursor seq).trans hcursor
    · exact hseqs seq hmem

omit [MlsExporter E S K] [SeedKdf S K] [KeyKdf K] [DecidableEq S] [DecidableEq L] in
/-- What a sync does to the inbox. -/
theorem afterSync_inbox : ((world.afterSync user material).devices user).inbox =
    (world.devices user).inbox ++
      (world.mlsFetch (world.devices user).cursor).filterMap (openCollab material) := by
  rw [World.afterSync, setDevice_devices, if_pos rfl]

omit [MlsExporter E S K] [SeedKdf S K] [KeyKdf K] [DecidableEq S] [DecidableEq L] in
theorem afterSync_cursor : ((world.afterSync user material).devices user).cursor =
    ((world.mlsFetch (world.devices user).cursor).map (·.seq)).foldl max
      (world.devices user).cursor := by
  rw [World.afterSync, setDevice_devices, if_pos rfl]

omit [MlsExporter E S K] [SeedKdf S K] [KeyKdf K] [DecidableEq S] [DecidableEq L] in
theorem afterSync_devices_of_ne (hne : v ≠ user) :
    (world.afterSync user material).devices v = world.devices v := by
  rw [World.afterSync, setDevice_devices, if_neg hne]

omit [MlsExporter E S K] [SeedKdf S K] [KeyKdf K] [DecidableEq S] [DecidableEq K] [DecidableEq L] in
/-- The messages of a page lie after its cursor and on the queue. -/
theorem mem_mlsFetch {after : ℕ} (h : env ∈ world.mlsFetch after) :
    env ∈ world.queue ∧ after < env.seq := by
  have hmem := List.mem_filter.mp (List.mem_of_mem_take h)
  exact ⟨hmem.1, by simpa using hmem.2⟩

omit [MlsExporter E S K] [SeedKdf S K] [KeyKdf K] [DecidableEq S] [DecidableEq K] [DecidableEq L] in
/-- Replacing one device by another with its inbox and cursor. -/
theorem mailbox_ite {device : Device E S K L}
    (hcursor : device.cursor = (world.devices user).cursor)
    (hinbox : device.inbox = (world.devices user).inbox) :
    (if v = user then device else world.devices v).cursor = (world.devices v).cursor ∧
      (if v = user then device else world.devices v).inbox = (world.devices v).inbox := by
  split_ifs with hv
  · rw [hv]
    exact ⟨hcursor, hinbox⟩
  · exact ⟨rfl, rfl⟩

omit [DecidableEq L] in
/-- An operation leaves a device's inbox and cursor alone, or is its sync. -/
theorem mailbox_of_effect {draws : OpDraws E S K} (heffect : Effect dir draws world op next) :
    ((next.devices v).cursor = (world.devices v).cursor ∧
      (next.devices v).inbox = (world.devices v).inbox) ∨
    ∃ material, op = .sync v ∧ (world.devices v).material = some material ∧
      next = world.afterSync v material := by
  cases heffect with
  | invite =>
    rw [afterInvite_devices]
    exact .inl (mailbox_ite rfl rfl)
  | inviteCut =>
    rw [afterInviteCut_devices]
    exact .inl (mailbox_ite rfl rfl)
  | accept =>
    rw [afterAccept_devices]
    exact .inl (mailbox_ite rfl rfl)
  | rotate =>
    rw [afterRotate_devices]
    exact .inl (mailbox_ite rfl rfl)
  | removeMember =>
    rw [afterRotate_devices, removeCollaborator_devices]
    exact .inl (mailbox_ite rfl rfl)
  | inviteCollab =>
    rw [inviteCollaborator_devices]
    exact .inl ⟨rfl, rfl⟩
  | removeCollab => exact .inl ⟨rfl, rfl⟩
  | collab => exact .inl ⟨rfl, rfl⟩
  | @sync user material hmember hmaterial =>
    by_cases hv : v = user
    · rw [hv]
      exact .inr ⟨material, rfl, hmaterial, rfl⟩
    · rw [afterSync_devices_of_ne hv]
      exact .inl ⟨rfl, rfl⟩
  | push => exact .inl ⟨rfl, rfl⟩

omit [DecidableEq L] in
/-- An operation queues at most one message, under the next number. -/
theorem queue_of_effect {draws : OpDraws E S K} (heffect : Effect dir draws world op next) :
    next.queue = world.queue ∨ ∃ payload hint,
      next.queue = world.queue ++ [⟨world.queue.length + 1, payload, hint⟩] := by
  cases heffect with
  | invite => exact .inr ⟨_, _, rfl⟩
  | inviteCut => exact .inl afterInviteCut_queue
  | inviteCollab => exact .inl inviteCollaborator_queue
  | collab => exact .inr ⟨_, _, rfl⟩
  | _ => exact .inl rfl

/-! ### Messages and inboxes over a run -/

/-- Messages are numbered in order, and inboxes have nothing beyond their cursors. -/
structure Mailboxes (world : World E S K L) : Prop where
  numbered : ∀ (k : ℕ) env, world.queue[k]? = some env → env.seq = k + 1
  behind : ∀ user, ∀ entry ∈ (world.devices user).inbox, entry.1 ≤ (world.devices user).cursor

omit [MlsExporter E S K] [SeedKdf S K] [KeyKdf K] [DecidableEq S] [DecidableEq K] [DecidableEq L] in
/-- A number names one message. -/
theorem Mailboxes.eq_of_seq_eq (h : Mailboxes world) {env' : MlsDeliveryEnvelope E S K L}
    (henv : env ∈ world.queue) (henv' : env' ∈ world.queue) (hseq : env.seq = env'.seq) :
    env = env' := by
  obtain ⟨k, hk⟩ := List.mem_iff_getElem?.mp henv
  obtain ⟨k', hk'⟩ := List.mem_iff_getElem?.mp henv'
  have hsame : k = k' := by
    have hfirst := h.numbered k env hk
    have hsecond := h.numbered k' env' hk'
    omega
  rw [hsame, hk', Option.some_inj] at hk
  exact hk.symm

omit [MlsExporter E S K] [SeedKdf S K] [KeyKdf K] [DecidableEq S] [DecidableEq L] in
/-- A sync adds messages between the old and the new cursor. -/
theorem seq_of_mem_page {entry : ℕ × Bytes} {cursor : ℕ}
    (h : entry ∈ (world.mlsFetch cursor).filterMap (openCollab material)) :
    cursor < entry.1 ∧ entry.1 ≤ ((world.mlsFetch cursor).map (·.seq)).foldl max cursor := by
  obtain ⟨env, hpage, hopen⟩ := List.mem_filterMap.mp h
  obtain ⟨box, -, -, -, rfl⟩ := openCollab_eq_some_iff.mp hopen
  exact ⟨(mem_mlsFetch hpage).2, (le_foldl_max _ cursor).2 _ (List.mem_map_of_mem hpage)⟩

omit [SeedKdf S K] [KeyKdf K] [DecidableEq S] [DecidableEq K] [DecidableEq L] in
theorem mailboxes_bootstrap : Mailboxes (bootstrapRepoGroup dir admin (tape 0)) where
  numbered := by
    intro k env henv
    cases henv
  behind := by
    intro user entry hentry
    have hempty : ((bootstrapRepoGroup dir admin (tape 0)).devices user).inbox = [] := by
      simp only [bootstrapRepoGroup]
      split_ifs <;> rfl
    rw [hempty] at hentry
    cases hentry

theorem Mailboxes.step (h : Mailboxes world) (hstep : SafeHub.step dir tape world op = some next) :
    Mailboxes next := by
  obtain ⟨after, heffect, rfl⟩ := effect_of_step hstep
  constructor
  · intro k env henv
    change after.queue[k]? = some env at henv
    -- a new message takes the number after the last
    rcases queue_of_effect heffect with hsame | ⟨payload, hint, hmore⟩
    · rw [hsame] at henv
      exact h.numbered k env henv
    · rw [hmore, List.getElem?_append] at henv
      split_ifs at henv with hold
      · exact h.numbered k env henv
      · rw [List.getElem?_singleton] at henv
        split_ifs at henv with hlast
        obtain rfl := Option.some_inj.mp henv
        change world.queue.length + 1 = k + 1
        omega
  · intro user entry hentry
    change entry ∈ (after.devices user).inbox at hentry
    change entry.1 ≤ (after.devices user).cursor
    rcases mailbox_of_effect (v := user) heffect with ⟨hcursor, hinbox⟩ | ⟨material, -, -, rfl⟩
    · rw [hinbox] at hentry
      rw [hcursor]
      exact h.behind user entry hentry
    · -- a sync moves the cursor past all it adds
      rw [afterSync_inbox] at hentry
      rw [afterSync_cursor]
      rcases List.mem_append.mp hentry with hold | hnew
      · exact (h.behind user entry hold).trans (le_foldl_max _ _).1
      · exact (seq_of_mem_page hnew).2

theorem mailboxes_of_runOps (hrun : runOps dir admin tape ops = some world) : Mailboxes world :=
  run_invariant (fun _ _ _ h hstep => h.step hstep) mailboxes_bootstrap hrun

/-- What later operations leave of an inbox: it keeps what it has and gets messages beyond its
cursor only. -/
structure InboxGrows (user : UserId) (world next : World E S K L) : Prop where
  cursor : (world.devices user).cursor ≤ (next.devices user).cursor
  kept : ∀ entry ∈ (world.devices user).inbox, entry ∈ (next.devices user).inbox
  beyond : ∀ entry ∈ (next.devices user).inbox, entry ∈ (world.devices user).inbox ∨
    (world.devices user).cursor < entry.1

omit [MlsExporter E S K] [SeedKdf S K] [KeyKdf K] [DecidableEq S] [DecidableEq K] [DecidableEq L] in
theorem InboxGrows.refl : InboxGrows user world world :=
  ⟨le_rfl, fun _ h => h, fun _ h => .inl h⟩

omit [MlsExporter E S K] [SeedKdf S K] [KeyKdf K] [DecidableEq S] [DecidableEq K] [DecidableEq L] in
theorem InboxGrows.trans {last : World E S K L} (h : InboxGrows user world next)
    (h' : InboxGrows user next last) : InboxGrows user world last where
  cursor := h.cursor.trans h'.cursor
  kept := fun entry hentry => h'.kept entry (h.kept entry hentry)
  beyond := by
    intro entry hentry
    rcases h'.beyond entry hentry with hnext | hbeyond
    · exact h.beyond entry hnext
    · exact .inr (h.cursor.trans_lt hbeyond)

theorem inboxGrows_of_step (hstep : step dir tape world op = some next) :
    InboxGrows user world next := by
  obtain ⟨after, heffect, rfl⟩ := effect_of_step hstep
  suffices h : InboxGrows user world after from ⟨h.cursor, h.kept, h.beyond⟩
  rcases mailbox_of_effect (v := user) heffect with ⟨hcursor, hinbox⟩ | ⟨material, -, -, rfl⟩
  · refine ⟨hcursor.ge, fun entry hentry => ?_, fun entry hentry => ?_⟩
    · rwa [hinbox]
    · rw [hinbox] at hentry
      exact .inl hentry
  · refine ⟨?_, fun entry hentry => ?_, fun entry hentry => ?_⟩
    · rw [afterSync_cursor]
      exact (le_foldl_max _ _).1
    · rw [afterSync_inbox]
      exact List.mem_append_left _ hentry
    · rw [afterSync_inbox] at hentry
      exact (List.mem_append.mp hentry).imp_right fun hnew => (seq_of_mem_page hnew).1

theorem inboxGrows_of_run (hrun : run (step dir tape) world ops = some next) :
    InboxGrows user world next :=
  run_invariant (P := fun w => InboxGrows user world w)
    (fun _ _ _ h hstep => h.trans (inboxGrows_of_step hstep)) .refl hrun

/-! ### Which messages arrive -/

/-- Of a message that a sync passes, the inbox has the text in the end exactly when it is
sealed under the key of the sync's epoch. -/
theorem mem_inbox_iff {box : SealedBox K Bytes} {later : World E S K L}
    (hmail : Mailboxes world) (hmaterial : (world.devices user).material = some material)
    (hstep : step dir tape world (.sync user) = some next) (hlater : InboxGrows user next later)
    (hpage : env ∈ world.mlsFetch (world.devices user).cursor) (hbox : env.payload = .collab box)
    (haad : box.aad = collabAad) :
    (env.seq, box.plaintext) ∈ (later.devices user).inbox ↔ box.key = material.refsMac := by
  obtain ⟨after, heffect, rfl⟩ := effect_of_step hstep
  cases heffect with
  | @sync _ material' _ hmaterial' =>
    obtain rfl := Option.some_inj.mp (hmaterial.symm.trans hmaterial')
    have hinbox : ((world.afterSync user material).devices user).inbox = _ := afterSync_inbox
    have hcursor : ((world.afterSync user material).devices user).cursor = _ := afterSync_cursor
    constructor
    · intro hmem
      -- it is too old to have come with a later sync, and too new for an earlier one
      rcases hlater.beyond _ hmem with hnow | hbeyond
      · change _ ∈ ((world.afterSync user material).devices user).inbox at hnow
        rw [hinbox] at hnow
        rcases List.mem_append.mp hnow with hold | hnew
        · exact absurd (hmail.behind user _ hold) (mem_mlsFetch hpage).2.not_ge
        · obtain ⟨env', hpage', hopen⟩ := List.mem_filterMap.mp hnew
          obtain ⟨box', hbox', hkey, -, hentry⟩ := openCollab_eq_some_iff.mp hopen
          have hsame := hmail.eq_of_seq_eq (mem_mlsFetch hpage).1 (mem_mlsFetch hpage').1
            (Prod.mk.inj hentry).1
          rw [← hsame, hbox] at hbox'
          rw [Payload.collab.inj hbox', hkey]
      · change ((world.afterSync user material).devices user).cursor < env.seq at hbeyond
        rw [hcursor] at hbeyond
        exact absurd ((le_foldl_max _ _).2 _ (List.mem_map_of_mem hpage)) hbeyond.not_ge
    · intro hkey
      apply hlater.kept
      change _ ∈ ((world.afterSync user material).devices user).inbox
      rw [hinbox]
      apply List.mem_append_right
      exact List.mem_filterMap.mpr
        ⟨env, hpage, openCollab_eq_some_iff.mpr ⟨box, hbox, hkey, haad, rfl⟩⟩

/-- A run loses no message exactly when every sync passes the messages whose key its device
holds in the epoch of that key. -/
theorem inboxComplete_iff (hrun : runOps dir admin tape ops = some world) :
    InboxComplete dir admin tape ops world ↔
      Along (step dir tape) World.SyncsCurrent (bootstrapRepoGroup dir admin (tape 0)) ops := by
  -- what a sync leaves, and what the rest of the run makes of it
  have hsync : ∀ front user back before, ops = front ++ .sync user :: back →
      runOps dir admin tape front = some before →
      ∃ after, step dir tape before (.sync user) = some after ∧ InboxGrows user after world := by
    intro front user back before heq hbefore
    rw [heq] at hrun
    obtain ⟨start, hstart, hrest⟩ := run_append_eq_some.mp hrun
    obtain rfl := Option.some_inj.mp (hbefore.symm.trans hstart)
    obtain ⟨after, hstep, hback⟩ := run_cons_eq_some.mp hrest
    exact ⟨after, hstep, inboxGrows_of_run hback⟩
  rw [along_iff]
  constructor
  · intro hcomplete front op back before heq hbefore
    cases op with
    | sync user =>
      intro material hmaterial env hpage box hbox haad hheld
      obtain ⟨after, hstep, hgrows⟩ := hsync front user back before heq hbefore
      rw [← mem_inbox_iff (mailboxes_of_runOps hbefore) hmaterial hstep hgrows hpage hbox haad]
      exact hcomplete front user back before material heq hbefore hmaterial env hpage box hbox haad
        hheld
    | _ => trivial
  · intro hcurrent front user back before material heq hbefore hmaterial env hpage box hbox haad
      hheld
    obtain ⟨after, hstep, hgrows⟩ := hsync front user back before heq hbefore
    rw [mem_inbox_iff (mailboxes_of_runOps hbefore) hmaterial hstep hgrows hpage hbox haad]
    exact hcurrent front (.sync user) back before heq hbefore material hmaterial env hpage box hbox
      haad hheld

/-! ### On the symbolic tape -/

/-- Alice sends a message, rotates and syncs. -/
def rotatedInbox : List Op := [.collab "alice" [7], .rotate, .sync "alice"]

/-- After the rotation Alice still has the key of her message, but the sync does not try it. -/
theorem not_inboxComplete_rotatedInbox :
    ∃ world, runOps sampleDirectory sampleAdmin freshTape rotatedInbox = some world ∧
      ¬ InboxComplete sampleDirectory sampleAdmin freshTape rotatedInbox world := by
  have hrun : (runOps sampleDirectory sampleAdmin freshTape rotatedInbox).isSome := by decide
  refine ⟨_, (Option.some_get hrun).symm, ?_⟩
  intro hcomplete
  have hbefore : (runOps sampleDirectory sampleAdmin freshTape (rotatedInbox.take 2)).isSome := by
    decide
  have hmem := hcomplete (rotatedInbox.take 2) "alice" [] _ _ rfl (Option.some_get hbefore).symm rfl
    _ List.mem_cons_self _ rfl rfl ⟨0, rfl⟩
  have hempty : (runOps sampleDirectory sampleAdmin freshTape rotatedInbox).map
      (fun world => (world.devices "alice").inbox) = some [] := by decide +kernel
  rw [← Option.some_get hrun, Option.map_some, Option.some_inj] at hempty
  rw [hempty] at hmem
  cases hmem

/-- Without the rotation the message arrives. -/
theorem inboxComplete_sync :
    ∃ world, runOps sampleDirectory sampleAdmin freshTape [.collab "alice" [7], .sync "alice"] =
        some world ∧
      InboxComplete sampleDirectory sampleAdmin freshTape [.collab "alice" [7], .sync "alice"]
        world := by
  have hrun : (runOps sampleDirectory sampleAdmin freshTape
      [.collab "alice" [7], .sync "alice"]).isSome := by decide
  refine ⟨_, (Option.some_get hrun).symm, (inboxComplete_iff (Option.some_get hrun).symm).mpr ?_⟩
  refine ⟨trivial, fun world hworld => ⟨?_, fun _ _ => trivial⟩⟩
  obtain rfl := Option.some_inj.mp hworld
  intro material hmaterial env hpage box hbox _ _
  obtain rfl := Option.some_inj.mp hmaterial
  obtain rfl := List.mem_singleton.mp hpage
  obtain rfl := Payload.collab.inj hbox
  rfl

end SafeHub
