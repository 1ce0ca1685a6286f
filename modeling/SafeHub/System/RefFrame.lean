import SafeHub.Client.RefCommands
import SafeHub.System.RefUpdates

/-!
# The refs that a command does not name

A command hands the client a whole map of refs: the ones that it has read, with its own ref
changed. The client takes that map for what its caller wants, so where the first read and the
baseline differ the difference is written into the next head, as values and, for a head that may
drop refs, as deletions. A forced push and the remote helper go on with an empty map when they
cannot read the tip.

## Main definitions

* `RefWrites`, `RefWrites.step` — the host's log, the commands under way, and their requests
* `FramesRefs` — accepted heads keep the refs that their commands do not name
* `AcceptedCall.Current` — the first read agrees with a later one on those refs

## Main results

* `frames_iff` — what one merge keeps of the other refs
* `framesRefs_iff` — exactly which runs keep them
-/

namespace SafeHub

open Run
open Std (ExtTreeMap)

/-- A command under way, from its call of the client on. -/
structure RefWriter (D : Type) where
  command : RefCommand D
  call : RefCall
  phase : PushPhase D

/-- A command whose head was accepted. -/
structure AcceptedCall (D : Type) where
  command : RefCommand D
  call : RefCall
  baseline : RefMap
  made : Attempt D

/-- The host's log and the commands under way. -/
structure RefWrites (D : Type) where
  log : List (RefHead D)
  writers : ℕ → Option (RefWriter D)
  accepted : List (AcceptedCall D)

/-- An empty log. -/
def RefWrites.new {D : Type} : RefWrites D := ⟨[], fun _ => none, []⟩

/-- A command reads the tip and calls the client, or its call sends the next request. -/
inductive WriteOp (D : Type)
  | call (pid : ℕ) (command : RefCommand D) (delivery : Delivery) (draws : RefHead D → OpenDraws)
    (getBlob : BlobId D → Except ClientError Bytes)
  | request (pid : ℕ) (random : PushRandom) (delivery : Delivery)

section Requests

variable {D : Type} [Sha512 D] [DecidableEq D] [HashPrimitives] [MlDsa87] [RefsCodec] [HexCodec D]

/-- A command reads the tip. It does not get beyond the head when a blob is missing. -/
def RefWrites.call (s : RefWrites D) (pid : ℕ) (command : RefCommand D) (delivery : Delivery)
    (draws : RefHead D → OpenDraws) (getBlob : BlobId D → Except ClientError Bytes) :
    RefWrites D :=
  let host : HostReplies D :=
    { headsPage := fun _ => .ok []
      headTip := delivery.reply s.log.getLast?
      getBlob := getBlob }
  match command.call (fetchTip command.device.repo command.device.material host draws) with
  | some call => { s with writers := Function.update s.writers pid (some ⟨command, call, .start⟩) }
  | none => s

/-- One step. A head that the store does not accept is refused. -/
def RefWrites.step (s : RefWrites D) : WriteOp D → Option (RefWrites D)
  | .call pid command delivery draws getBlob =>
    if (s.writers pid).isNone then some (s.call pid command delivery draws getBlob) else none
  | .request pid random delivery =>
    match s.writers pid with
    | none => none
    | some writer =>
      match (writer.phase.answer s.log delivery).bind
          (writer.call.args.next writer.command.device.draws random writer.phase) with
      | none => none
      | some phase =>
        let writers := Function.update s.writers pid (some { writer with phase := phase })
        match writer.phase.carriesOut delivery with
        -- a read, an upload, or an append that was refused on the way
        | none => some { s with writers := writers }
        | some (baseline, made) =>
          if Accepts s.log made.head then
            some {
              log := s.log ++ [made.head]
              writers := writers
              accepted := ⟨writer.command, writer.call, baseline, made⟩ :: s.accepted }
          else none

end Requests

/-! ### The property and its condition -/

/-- A command that is not held to a fast-forward check: a forced push, a deletion, and whatever
the remote helper does. -/
def RefCommand.Unchecked {D : Type} : RefCommand D → Prop
  | .push p => p.force = true
  | .delete _ _ => True
  | .helper _ => True

/-- Against the refs of its predecessor, an accepted head leaves all refs alone that its command
does not name. -/
def AcceptedCall.Frames {D : Type} (u : AcceptedCall D) (prev : RefMap) : Prop :=
  ∀ name : String, name ≠ u.call.name → u.made.refs.refs[name]? = prev[name]?

/-- A ref that the command does not name was first read as it is in the baseline or in the
predecessor, or the first read lacks it and the head may not drop refs. -/
def AcceptedCall.Current {D : Type} (u : AcceptedCall D) (prev : RefMap) : Prop :=
  ∀ name : String, name ≠ u.call.name →
    u.call.seen[name]? = u.baseline[name]? ∨ u.call.seen[name]? = prev[name]? ∨
      u.call.seen[name]? = none ∧ u.call.args.nonFf = false

section Property

variable {D : Type} [Sha512 D] [HashPrimitives] [RefsCodec]

/-- The refs of an accepted head are what it decrypts to under the key that it was sealed with. -/
def AcceptedCall.Decrypts (u : AcceptedCall D) : Prop :=
  ∃ epochKey, u.command.device.material.epochKey u.made.random.epoch = .ok epochKey ∧
    ∀ (reader : EpochMaterial Bytes Bytes) (draws : Draws Bytes),
      reader.epochKeyAt draws u.made.head.mlsEpoch.toNat = .ok epochKey →
        openRefsMap reader draws u.made.head = .ok u.made.refs

/-- A condition on every head accepted from an unchecked command, and on the refs of its
predecessor as its pusher decrypts them. -/
def RefWrites.UncheckedHeads (s : RefWrites D) (P : AcceptedCall D → RefMap → Prop) : Prop :=
  ∀ u ∈ s.accepted, u.command.Unchecked → ∀ front back prev,
    s.log = front ++ u.made.head :: back →
    tipRefs u.command.device.material u.command.device.draws front.getLast? = .ok prev → P u prev

/-- Accepted heads keep the refs that their commands do not name. -/
def RefWrites.FramesRefs (s : RefWrites D) : Prop := s.UncheckedHeads AcceptedCall.Frames

end Property

/-! ### One merge -/

/-- What a merge keeps of the refs that the command does not name. -/
theorem frames_iff {D : Type} {u : AcceptedCall D} {material : EpochMaterial Bytes Bytes}
    {prev : RefMap} (hasks : u.call.Asks material)
    (hmerge : reconcileRefsForCas u.baseline u.call.args.gitRefs prev u.call.args.nonFf =
      .ok u.made.refs.refs) :
    u.Frames prev ↔ u.Current prev := by
  refine forall_congr' fun name => forall_congr' fun hname => ?_
  -- away from its own ref the caller's map is the first read
  rw [getElem?_merged hmerge, hasks.gitRefs name hname]
  by_cases hsame : u.call.seen[name]? = u.baseline[name]?
  · rw [if_pos hsame]
    exact iff_of_true rfl (.inl hsame)
  rw [if_neg hsame, or_iff_right hsame]
  cases hnonFf : u.call.args.nonFf with
  | true => simp
  | false =>
    cases hseen : u.call.seen[name]? with
    | none => simp
    | some value => simp

/-! ### Where an accepted head stands -/

section Runs

variable {D : Type} [Sha512 D] [DecidableEq D] [HashPrimitives] [MlDsa87] [RefsCodec] [HexCodec D]
variable {s t : RefWrites D} {ops : List (WriteOp D)} {op : WriteOp D}

/-- A command under way asks for what it has read, and knows a tip that the log has had. -/
structure RefWriter.Sound (writer : RefWriter D) (log : List (RefHead D)) : Prop where
  asks : writer.call.Asks writer.command.device.material
  phase : writer.phase.Sound writer.call.args writer.command.device.draws log

/-- An accepted head stands in the log right after the tip it was planned on. -/
structure AcceptedCall.Placed (u : AcceptedCall D) (log : List (RefHead D)) : Prop where
  asks : u.call.Asks u.command.device.material
  built : u.made.Built u.call.args u.command.device.draws u.baseline
  place : ∃ front back, log = front ++ u.made.head :: back ∧ u.made.tip = front.getLast?

omit [DecidableEq D] [MlDsa87] in
theorem RefWriter.Sound.append {writer : RefWriter D} {log : List (RefHead D)}
    (h : writer.Sound log) (head : RefHead D) : writer.Sound (log ++ [head]) :=
  ⟨h.asks, h.phase.append head⟩

omit [DecidableEq D] [MlDsa87] in
theorem AcceptedCall.Placed.append {u : AcceptedCall D} {log : List (RefHead D)}
    (h : u.Placed log) (head : RefHead D) : u.Placed (log ++ [head]) where
  asks := h.asks
  built := h.built
  place := exists_place_append h.place head

/-- The log is chained, commands under way are sound, and accepted heads are in place. -/
structure RefWrites.Linked (s : RefWrites D) : Prop where
  chained : Chained s.log
  writers : ∀ pid writer, s.writers pid = some writer → writer.Sound s.log
  accepted : ∀ u ∈ s.accepted, u.Placed s.log

/-- What a request does. -/
theorem RefWrites.request_eq_some {pid : ℕ} {random : PushRandom} {delivery : Delivery}
    (h : s.step (.request pid random delivery) = some t) :
    ∃ writer reply phase, s.writers pid = some writer ∧
      writer.phase.answer s.log delivery = some reply ∧
      writer.call.args.next writer.command.device.draws random writer.phase reply = some phase ∧
      t.writers = Function.update s.writers pid (some { writer with phase := phase }) ∧
      ((t.log = s.log ∧ t.accepted = s.accepted) ∨
        ∃ baseline made, writer.phase.carriesOut delivery = some (baseline, made) ∧
          Accepts s.log made.head ∧ t.log = s.log ++ [made.head] ∧
          t.accepted = ⟨writer.command, writer.call, baseline, made⟩ :: s.accepted) := by
  simp only [RefWrites.step] at h
  cases hwriter : s.writers pid with
  | none =>
    rw [hwriter] at h
    cases h
  | some writer =>
    simp only [hwriter] at h
    cases hnext : (writer.phase.answer s.log delivery).bind
        (writer.call.args.next writer.command.device.draws random writer.phase) with
    | none =>
      rw [hnext] at h
      cases h
    | some phase =>
      obtain ⟨reply, hanswer, hreply⟩ := Option.bind_eq_some_iff.mp hnext
      simp only [hnext] at h
      refine ⟨writer, reply, phase, rfl, hanswer, hreply, ?_⟩
      -- only an append that is carried out touches the log
      cases hout : writer.phase.carriesOut delivery with
      | none =>
        rw [hout] at h
        obtain rfl := Option.some.inj h
        exact ⟨rfl, .inl ⟨rfl, rfl⟩⟩
      | some out =>
        obtain ⟨baseline, made⟩ := out
        simp only [hout] at h
        split_ifs at h with haccepts
        obtain rfl := Option.some.inj h
        exact ⟨rfl, .inr ⟨baseline, made, rfl, haccepts, rfl, rfl⟩⟩

theorem RefWrites.Linked.step (h : s.Linked) (hstep : s.step op = some t) : t.Linked := by
  cases op with
  | call pid command delivery draws getBlob =>
    rw [RefWrites.step] at hstep
    split_ifs at hstep
    obtain rfl := Option.some.inj hstep
    unfold RefWrites.call
    dsimp only
    -- only a command that goes on calls the client
    split
    · next call hcall =>
      refine ⟨h.chained, forall_update_some h.writers pid ⟨asks_of_call hcall, ?_⟩, h.accepted⟩
      intro _ _ hpending
      cases hpending
    · exact h
  | request pid random delivery =>
    obtain ⟨writer, reply, phase, hwriter, hanswer, hnext, hwriters, hlog⟩ :=
      RefWrites.request_eq_some hstep
    have hsound := h.writers pid writer hwriter
    -- whatever becomes of the head, the command under way stays sound for the old log
    have hafter : ∀ pid' writer', t.writers pid' = some writer' → writer'.Sound s.log := by
      rw [hwriters]
      exact forall_update_some h.writers pid ⟨hsound.asks, hsound.phase.next hanswer hnext⟩
    rcases hlog with ⟨hlog, haccepted⟩ | ⟨baseline, made, hout, haccepts, hlog, haccepted⟩
    · refine ⟨?_, ?_, ?_⟩
      · rw [hlog]
        exact h.chained
      · rw [hlog]
        exact hafter
      · rw [hlog, haccepted]
        exact h.accepted
    · obtain ⟨hbuilt, htip⟩ := hsound.phase.tip_of_accepts h.chained
        (PushPhase.pending_of_carriesOut hout) haccepts
      refine ⟨?_, ?_, ?_⟩
      · rw [hlog]
        exact h.chained.concat haccepts.1 haccepts.2.1 haccepts.2.2
      · rw [hlog]
        exact fun pid' writer' hwriter' => (hafter pid' writer' hwriter').append made.head
      · intro u hmem
        rw [hlog]
        rw [haccepted] at hmem
        rcases List.mem_cons.mp hmem with rfl | hold
        · exact ⟨hsound.asks, hbuilt, s.log, [], rfl, htip⟩
        · exact (h.accepted u hold).append made.head

theorem linked_of_run_writes (hrun : run RefWrites.step RefWrites.new ops = some s) : s.Linked :=
  run_invariant (P := RefWrites.Linked) (fun _ _ _ h hstep => h.step hstep)
    ⟨.nil, fun _ _ hwriter => (by cases hwriter), fun _ hmem => (by cases hmem)⟩ hrun

omit [DecidableEq D] [MlDsa87] in
/-- An accepted head decrypts to the merge that its attempt sealed. -/
theorem AcceptedCall.Placed.decrypts {u : AcceptedCall D} {log : List (RefHead D)}
    (h : u.Placed log) : u.Decrypts := by
  obtain ⟨remote, merged, epochKey, -, -, hplanned⟩ := h.built
  refine ⟨epochKey, ?_, fun reader draws hkey => hplanned.openRefsMap hkey⟩
  rw [← h.asks.material]
  exact hplanned.key

omit [DecidableEq D] [MlDsa87] in
/-- What an accepted head was merged from, where its predecessor decrypts. -/
theorem AcceptedCall.Placed.merged {u : AcceptedCall D} {log front back : List (RefHead D)}
    {prev : RefMap} (h : u.Placed log) (hchained : Chained log)
    (hlog : log = front ++ u.made.head :: back)
    (hprev : tipRefs u.command.device.material u.command.device.draws front.getLast? = .ok prev) :
    reconcileRefsForCas u.baseline u.call.args.gitRefs prev u.call.args.nonFf =
      .ok u.made.refs.refs := by
  obtain ⟨remote, merged, epochKey, hremote, hmerged, hplanned⟩ := h.built
  obtain ⟨front', back', hlog', htip⟩ := h.place
  -- a head stands at one place of the log
  have hfront : front = front' := by
    rw [hchained.eq_take_of_append_cons hlog, hchained.eq_take_of_append_cons hlog']
  subst hfront
  rw [htip, h.asks.material, hprev] at hremote
  obtain rfl := Except.ok.inj hremote
  rw [hplanned.gitRefs]
  exact hmerged

/-- In a run of commands that are accepted between one another's reads and retries, accepted heads
decrypt to what was merged, and unchecked commands keep the refs that they do not name exactly
when the first read of each agrees with a later one on those refs. -/
theorem framesRefs_iff (hrun : run RefWrites.step RefWrites.new ops = some s) :
    (∀ u ∈ s.accepted, u.Decrypts) ∧ (s.FramesRefs ↔ s.UncheckedHeads AcceptedCall.Current) := by
  have hlinked := linked_of_run_writes hrun
  refine ⟨fun u hmem => (hlinked.accepted u hmem).decrypts, ?_⟩
  refine forall_congr' fun u => forall_congr' fun hmem => forall_congr' fun _ =>
    forall_congr' fun front => forall_congr' fun back => forall_congr' fun prev =>
    forall_congr' fun hlog => forall_congr' fun hprev => ?_
  have hplaced := hlinked.accepted u hmem
  exact frames_iff hplaced.asks (hplaced.merged hlinked.chained hlog hprev)

end Runs

/-! ### A forced push that cannot read the tip -/

section Sample

attribute [local instance] transparentSha512 transparentHash transparentMlDsa87 framedRefsCodec
  plainHexCodec

/-- A push of the admin's device to a branch. -/
def adminPush (dst oid : String) (force : Bool) : RefPush Bytes :=
  { branchPush dst oid with force := force, keys := adminKeys }

/-- What the push asks for when it has read no refs. -/
def adminCall (dst oid : String) (force : Bool) : RefCall :=
  ⟨dstRef dst, ∅, { branchArgs dst oid with keys := adminKeys, nonFf := force }⟩

/-- Without a tip, or by force without one that can be read, nothing is checked. -/
theorem call_adminPush {dst oid : String} {force : Bool}
    {tip : Except ClientError (Option (FetchResult Bytes))}
    (htip : tip = .ok none ∨ force = true ∧ ∃ e, tip = .error e) :
    (RefCommand.push (adminPush dst oid force)).call tip = some (adminCall dst oid force) := by
  have hread : (if (adminPush dst oid force).force then .ok (tip.toOption.getD none) else tip) =
      .ok none := by
    rcases htip with rfl | ⟨rfl, e, rfl⟩
    · exact ite_self _
    · rfl
  have hforward := recomputedNonFf_empty (dstRef dst) oid
  have hdecide : (adminPush dst oid force).decide tip =
      .push ∅ (adminCall dst oid force).args := by
    rw [RefPush.decide, hread]
    simp only [adminPush, branchPush, Option.map_none, Option.getD_none, hforward, Bool.false_and,
      Bool.false_or, Bool.false_eq_true, if_false]
    rw [if_neg (by simp)]
    rfl
  simp only [RefCommand.call, hdecide]
  rfl

/-- A push of the remote helper to the main branch. -/
def adminHelper : HelperPush Bytes where
  device := (adminPush "main" "b" false).device
  spec := "work:main"
  revParse _ := .ok "b"
  createBundle _ := some [1]

/-- Without a tip that can be read, the remote helper asks for its own ref alone. -/
theorem call_adminHelper (e : ClientError) :
    (RefCommand.helper adminHelper).call (.error e) = some (adminCall "main" "b" false) := by
  have hspec : parseRefspec "work:main" = .ok (false, "work", "main") := rfl
  have hpush : adminHelper.doPush (.error e) = .ok (adminCall "main" "b" false) := by
    refine bind_eq_ok_iff.mpr ⟨_, hspec, ?_⟩
    dsimp only
    rw [if_neg (by decide), adminCall, branchArgs, pushedRefs_eq]
    rfl
  exact toOption_eq_some_iff.mpr hpush

/-- A command that does not read any refs. -/
theorem step_call {s : RefWrites Bytes} (pid : ℕ) {command : RefCommand Bytes} {call : RefCall}
    {delivery : Delivery} {tip : Except ClientError (Option (FetchResult Bytes))}
    (hfree : s.writers pid = none)
    (htip : delivery.reply s.log.getLast? = .ok none ∧ tip = .ok none ∨
      ∃ e, delivery.reply s.log.getLast? = .error e ∧ tip = .error e)
    (hcall : command.call tip = some call) :
    s.step (.call pid command delivery (fun _ => ⟨⟨[], []⟩, ⟨[], []⟩⟩) .ok) =
      some ⟨s.log, Function.update s.writers pid (some ⟨command, call, .start⟩), s.accepted⟩ := by
  rw [RefWrites.step, if_pos (by rw [hfree]; rfl)]
  unfold RefWrites.call
  dsimp only
  -- without an answer, or without a head, the rest of the fetch does not happen
  rcases htip with ⟨hreply, rfl⟩ | ⟨e, hreply, rfl⟩
  · rw [hreply]
    change some (match command.call (.ok none) with
      | some call => _
      | none => _) = _
    rw [hcall]
  · rw [hreply]
    change some (match command.call (.error e) with
      | some call => _
      | none => _) = _
    rw [hcall]

/-- The admin's device plans a head on every tip that it can open and merge with. -/
theorem exists_adminPlan {dst oid : String} {force : Bool} {baseline remote merged : RefMap}
    {tip : Option (RefHead Bytes)} (random : PushRandom)
    (htip : tipRefs deviceMaterial flatDraws tip = .ok remote)
    (hmerged : reconcileRefsForCas baseline (pushedRefs (dstRef dst) oid ∅) remote force =
      .ok merged) :
    ∃ chunks made,
      (adminCall dst oid force).args.plan flatDraws random baseline tip = .ok (chunks, made) ∧
      Planned (Vector.replicate 32 1) [1] merged deviceMaterial (nextHead tip).1 (nextHead tip).2
        force random deviceEpochKey made.head made.refs ∧
      made.refs.head = some ("ref: " ++ dstRef dst) ∧
      made.head.pusherSig.length = mldsa87SigLen ∧
      ∀ sig ∈ made.head.adminCosig, sig.length < 2 ^ 32 := by
  obtain ⟨plan, head, refs, hplan, hhead, hsig, hcosig⟩ := exists_buildPushPlan_of_admin
    (Vector.replicate 32 1) [1] merged (some ("ref: " ++ dstRef dst)) (nextHead tip).1
    (nextHead tip).2 force (deviceMaterial_epochKey random.epoch)
    (rfl : adminKeys.group = .ok _) (length_flatSeed 7) (rfl : adminKeys.admin = .ok _)
    (length_flatSeed 7)
  obtain ⟨epochKey, hplanned⟩ := planned_of_buildPushPlan hplan
  obtain rfl := Except.ok.inj ((deviceMaterial_epochKey random.epoch).symm.trans hplanned.key)
  refine ⟨plan.chunks, ⟨tip, random, head, refs⟩, ?_, hplanned, hhead, ?_, fun sig hmem => ?_⟩
  · refine bind_eq_ok_iff.mpr ⟨remote, htip, bind_eq_ok_iff.mpr ⟨merged, hmerged, ?_⟩⟩
    exact bind_eq_ok_iff.mpr ⟨(plan, head, refs), hplan, rfl⟩
  · rw [hsig]
    exact length_clearSig_flatSeed 7 _
  · obtain ⟨message, rfl⟩ := hcosig sig hmem
    change (clearSig (flatSeed 7) message).length < 2 ^ 32
    rw [length_clearSig_flatSeed]
    decide

/-- A request that appends nothing. -/
theorem step_writeRequest {s : RefWrites Bytes} {pid : ℕ} {random : PushRandom}
    {writer : RefWriter Bytes} {reply : HostReply Bytes} {phase : PushPhase Bytes}
    (hwriter : s.writers pid = some writer)
    (hanswer : writer.phase.answer s.log .answered = some reply)
    (hnext : writer.call.args.next writer.command.device.draws random writer.phase reply =
      some phase)
    (hout : writer.phase.carriesOut .answered = none) :
    s.step (.request pid random .answered) = some ⟨s.log,
      Function.update s.writers pid (some { writer with phase := phase }), s.accepted⟩ := by
  simp only [RefWrites.step, hwriter, hanswer, Option.bind_some, hnext, hout]

/-- The requests of one attempt. -/
def writeRequests (pid : ℕ) (random : PushRandom) : List (WriteOp Bytes) :=
  List.replicate 4 (.request pid random .answered)

/-- A command whose requests are answered one after the other is accepted. -/
theorem exists_run_writeRequests {s : RefWrites Bytes} (pid : ℕ) {command : RefCommand Bytes}
    {dst oid : String} {force : Bool} {remote merged : RefMap} (random : PushRandom)
    (hchained : Chained s.log) (hshort : s.log.length < 2)
    (hdraws : command.device.draws = flatDraws)
    (hwriter : s.writers pid = some ⟨command, adminCall dst oid force, .start⟩)
    (htip : tipRefs deviceMaterial flatDraws s.log.getLast? = .ok remote)
    (hmerged : reconcileRefsForCas remote (pushedRefs (dstRef dst) oid ∅) remote force =
      .ok merged)
    (hsmall : (merged.toList.map fun entry =>
      1 + ((1 + 5 * entry.1.length) + (1 + 5 * entry.2.length))).sum +
      (1 + (1 + 5 * ("ref: " ++ dstRef dst).length)) < 2 ^ 30) :
    ∃ made call, run RefWrites.step s (writeRequests pid random) =
        some ⟨s.log ++ [made.head], Function.update s.writers pid call,
          ⟨command, adminCall dst oid force, remote, made⟩ :: s.accepted⟩ ∧
      made.refs.refs = merged ∧ tipRefs deviceMaterial flatDraws (some made.head) = .ok merged ∧
      Chained (s.log ++ [made.head]) := by
  obtain ⟨chunks, made, hplan, hplanned, hhead, hsig, hcosig⟩ :=
    exists_adminPlan random htip hmerged
  have haccepts : Accepts s.log made.head :=
    accepts_of_devicePlanned hchained hshort hplanned hhead hcosig hsig hsmall
  refine ⟨made, some ⟨command, adminCall dst oid force,
    (adminCall dst oid force).args.settle remote 0 made (.ok made.head.hash)⟩, ?_,
    hplanned.gitRefs, tipRefs_of_devicePlanned hplanned,
    hchained.concat haccepts.1 haccepts.2.1 haccepts.2.2⟩
  -- the requests in turn: the baseline, the tip, the upload and the append
  rw [← hdraws] at htip hplan
  refine run_cons_eq_some.mpr ⟨_, step_writeRequest hwriter rfl (PushArgs.next_start htip) rfl, ?_⟩
  refine run_cons_eq_some.mpr
    ⟨_, step_writeRequest (Function.update_self ..) rfl (PushArgs.next_tip hplan) rfl, ?_⟩
  refine run_cons_eq_some.mpr
    ⟨_, step_writeRequest (Function.update_self ..) rfl PushArgs.next_upload rfl, ?_⟩
  simp only [Function.update_idem]
  refine run_cons_eq_some.mpr ⟨_, ?_, rfl⟩
  simp only [RefWrites.step, Function.update_self, PushPhase.answer, Delivery.reply,
    Option.bind_some, PushArgs.next, PushPhase.carriesOut, if_pos haccepts, Function.update_idem]

/-- A push that may drop refs and serves as its own baseline writes what it was called with. -/
theorem reconcile_dropping (caller remote : RefMap) :
    reconcileRefsForCas remote caller remote true = .ok caller := by
  obtain ⟨merged, hmerged⟩ : ∃ merged, reconcileRefsForCas remote caller remote true = .ok merged :=
    ⟨_, rfl⟩
  rw [hmerged]
  congr 1
  ext1 name
  rw [getElem?_merged hmerged, if_pos rfl]
  split_ifs with hsame
  · exact hsame.symm
  · rfl

/-- A branch is pushed. Then a command follows whose first request fails. -/
def unreadTip (second : RefCommand Bytes) : List (WriteOp Bytes) :=
  .call 0 (.push (adminPush "dev" "a" false)) .answered (fun _ => ⟨⟨[], []⟩, ⟨[], []⟩⟩) .ok ::
    (writeRequests 0 (flatRandom 1) ++
      .call 1 second (.refused (.other "connection reset"))
        (fun _ => ⟨⟨[], []⟩, ⟨[], []⟩⟩) .ok :: writeRequests 1 (flatRandom 2))

/-- The first push has called the client. -/
def devWriter : ℕ → Option (RefWriter Bytes) :=
  Function.update (fun _ => none) 0
    (some ⟨.push (adminPush "dev" "a" false), adminCall "dev" "a" false, .start⟩)

/-- The refs after the first push. -/
def devRefs : RefMap := (∅ : RefMap).insert (dstRef "dev") "a"

theorem exists_run_unreadTip {second : RefCommand Bytes} {dst : String} {force : Bool}
    {merged : RefMap} (hdraws : second.device.draws = flatDraws)
    (hcall : ∀ e, second.call (.error e) = some (adminCall dst "b" force))
    (hmerged : reconcileRefsForCas devRefs (pushedRefs (dstRef dst) "b" ∅) devRefs force =
      .ok merged)
    (hsmall : (merged.toList.map fun entry =>
      1 + ((1 + 5 * entry.1.length) + (1 + 5 * entry.2.length))).sum +
      (1 + (1 + 5 * ("ref: " ++ dstRef dst).length)) < 2 ^ 30) :
    ∃ first last s, run RefWrites.step RefWrites.new (unreadTip second) = some s ∧
      s.log = [first.head, last.head] ∧
      s.accepted = [⟨second, adminCall dst "b" force, devRefs, last⟩,
        ⟨.push (adminPush "dev" "a" false), adminCall "dev" "a" false, ∅, first⟩] ∧
      last.refs.refs = merged ∧
      tipRefs deviceMaterial flatDraws (some first.head) = .ok devRefs := by
  have hempty : tipRefs deviceMaterial flatDraws none = .ok ∅ := rfl
  obtain ⟨first, call, hrun₁, -, htip₁, hchained₁⟩ :=
    exists_run_writeRequests (s := ⟨[], devWriter, []⟩) 0 (flatRandom 1) .nil Nat.two_pos rfl
      (rfl : devWriter 0 =
        some ⟨.push (adminPush "dev" "a" false), adminCall "dev" "a" false, .start⟩)
      hempty (reconcile_pushedRefs _ _ ∅) (by decide +kernel)
  -- the second command has read nothing, and its baseline is the first head
  obtain ⟨last, call', hrun₂, hrefs₂, -, -⟩ :=
    exists_run_writeRequests (s := ⟨[first.head], Function.update (Function.update devWriter 0 call)
      1 (some ⟨second, adminCall dst "b" force, .start⟩),
      [⟨.push (adminPush "dev" "a" false), adminCall "dev" "a" false, ∅, first⟩]⟩) 1
      (flatRandom 2) hchained₁ Nat.one_lt_two hdraws rfl htip₁ hmerged hsmall
  have hfree : Function.update devWriter 0 call 1 = none := by
    rw [Function.update_of_ne Nat.one_ne_zero, devWriter, Function.update_of_ne Nat.one_ne_zero]
  have hlost : (Delivery.refused (.other "connection reset")).reply (some first.head) =
      .error (.other "connection reset") := rfl
  have hsecond := run_cons_eq_some.mpr
    ⟨_, step_call (s := ⟨[first.head], Function.update devWriter 0 call, _⟩) 1 hfree
      (.inr ⟨_, hlost, rfl⟩) (hcall _), hrun₂⟩
  exact ⟨first, last, _, run_cons_eq_some.mpr
    ⟨_, step_call 0 rfl (.inl ⟨rfl, rfl⟩) (call_adminPush (.inl rfl)),
      run_append_eq_some.mpr ⟨_, hrun₁, hsecond⟩⟩, rfl, rfl, hrefs₂, htip₁⟩

/-- A forced push to the main branch deletes the other one. -/
theorem not_framesRefs_unreadTip : ∃ s,
    run RefWrites.step RefWrites.new (unreadTip (.push (adminPush "main" "b" true))) = some s ∧
      ¬ s.FramesRefs := by
  have hcall : ∀ e, (RefCommand.push (adminPush "main" "b" true)).call (.error e) =
      some (adminCall "main" "b" true) := fun e => call_adminPush (.inr ⟨rfl, e, rfl⟩)
  obtain ⟨first, last, s, hrun, hlog, haccepted, hrefs, htip⟩ :=
    exists_run_unreadTip rfl hcall (reconcile_dropping _ devRefs) (by decide +kernel)
  refine ⟨s, hrun, fun h => ?_⟩
  have hframes := h ⟨.push (adminPush "main" "b" true), adminCall "main" "b" true, devRefs, last⟩
    (by rw [haccepted]; exact List.mem_cons_self) rfl [first.head] [] devRefs hlog htip
  have hkept : (pushedRefs (dstRef "main") "b" ∅)[dstRef "dev"]? = devRefs[dstRef "dev"]? := by
    rw [← hrefs]
    exact hframes (dstRef "dev") (by decide +kernel : dstRef "dev" ≠ dstRef "main")
  exact absurd hkept (by decide +kernel)

/-- A push of the remote helper there, which may not drop refs, keeps it. -/
theorem framesRefs_iff_unreadTip : ∃ s,
    run RefWrites.step RefWrites.new (unreadTip (.helper adminHelper)) = some s ∧
      (∃ u ∈ s.accepted, u.made.refs.refs = devRefs.insert (dstRef "main") "b") ∧
      s.FramesRefs := by
  obtain ⟨first, last, s, hrun, hlog, haccepted, hrefs, htip⟩ :=
    exists_run_unreadTip rfl call_adminHelper (reconcile_pushedRefs (dstRef "main") "b" devRefs)
      (by decide +kernel)
  refine ⟨s, hrun, ⟨_, by rw [haccepted]; exact List.mem_cons_self, hrefs⟩,
    (framesRefs_iff hrun).2.mpr ?_⟩
  intro u hmem hunchecked front back prev hsplit hprev name hname
  rw [haccepted] at hmem
  rcases List.mem_pair.mp hmem with rfl | rfl
  · -- nothing was read, and what was not read may not be dropped
    exact .inr (.inr ⟨ExtTreeMap.getElem?_empty, rfl⟩)
  · cases hunchecked

end Sample

end SafeHub
