import SafeHub.Client.Push
import SafeHub.Storage.HeadLog
import SafeHub.Lib.Run

/-!
# Ref updates of concurrent pushes

A push reads the remote refs three times: for its fast-forward check, as the baseline of its
merge, and on every attempt. Other pushes are accepted between any two of these reads, and
requests fail or lose their answers. An attempt compares its tip with the baseline, but nothing
compares the baseline with the refs that the check was made against.

## Main definitions

* `SharedRefs`, `SharedRefs.step` — the host's log, the pushes under way, and their requests
* `NoLostUpdate` — an accepted head changes its own ref only, from the value that was checked
* `AcceptedPush.Undisturbed` — the three reads agree where it matters

## Main results

* `keeps_iff` — what one merge keeps, in terms of the three reads
* `noLostUpdate_iff` — exactly which runs lose no update
-/

namespace SafeHub

open Run
open Std (ExtTreeMap)

/-- How a request fares: it is answered, it is carried out but its answer is lost, or it is
refused or never arrives. -/
inductive Delivery
  | answered
  | unanswered (error : ClientError)
  | refused (error : ClientError)

/-- What the caller sees of an answer. -/
def Delivery.reply {α : Type} (delivery : Delivery) (answer : α) : Except ClientError α :=
  match delivery with
  | .answered => .ok answer
  | .unanswered error => .error error
  | .refused error => .error error

/-- A push under way, with the refs that its fast-forward check was made against. -/
structure RefPusher (D : Type) where
  push : RefPush D
  checked : RefMap
  args : PushArgs
  phase : PushPhase D

/-- A push whose head was accepted. -/
structure AcceptedPush (D : Type) where
  push : RefPush D
  checked : RefMap
  args : PushArgs
  baseline : RefMap
  made : Attempt D

/-- The host's log and the pushes under way. -/
structure SharedRefs (D : Type) where
  log : List (RefHead D)
  pushers : ℕ → Option (RefPusher D)
  accepted : List (AcceptedPush D)

/-- An empty log. -/
def SharedRefs.new {D : Type} : SharedRefs D := ⟨[], fun _ => none, []⟩

/-- A push command reads the tip and makes its check, or a push sends its next request. -/
inductive RefOp (D : Type)
  | check (pid : ℕ) (push : RefPush D) (delivery : Delivery) (draws : RefHead D → OpenDraws)
    (getBlob : BlobId D → Except ClientError Bytes)
  | request (pid : ℕ) (random : PushRandom) (delivery : Delivery)

/-- The host's answer to the next request of a push. -/
def PushPhase.answer {D : Type} [Sha512 D] (log : List (RefHead D)) (delivery : Delivery) :
    PushPhase D → Option (HostReply D)
  | .start => some (.headTip (delivery.reply log.getLast?))
  | .tip _ _ => some (.headTip (delivery.reply log.getLast?))
  | .upload _ _ _ _ => some (.putBlob fun _ => delivery.reply ())
  | .append _ _ made => some (.appendHead (delivery.reply made.head.hash))
  | .done _ => none

/-- The append that a request carries out. -/
def PushPhase.carriesOut {D : Type} (delivery : Delivery) :
    PushPhase D → Option (RefMap × Attempt D)
  | .append baseline _ made =>
    match delivery with
    | .refused _ => none
    | _ => some (baseline, made)
  | _ => none

section Requests

variable {D : Type} [Sha512 D] [DecidableEq D] [HashPrimitives] [MlDsa87] [RefsCodec] [HexCodec D]

/-- A push command reads the tip. -/
def SharedRefs.check (s : SharedRefs D) (pid : ℕ) (push : RefPush D) (delivery : Delivery)
    (draws : RefHead D → OpenDraws) (getBlob : BlobId D → Except ClientError Bytes) :
    SharedRefs D :=
  let host : HostReplies D :=
    { headsPage := fun _ => .ok []
      headTip := delivery.reply s.log.getLast?
      getBlob := getBlob }
  match push.decide (fetchTip push.repo push.material host draws) with
  | .push checked args =>
    { s with pushers := Function.update s.pushers pid (some ⟨push, checked, args, .start⟩) }
  | _ => s

/-- One step. A head that the store does not accept is refused. -/
def SharedRefs.step (s : SharedRefs D) : RefOp D → Option (SharedRefs D)
  | .check pid push delivery draws getBlob =>
    if (s.pushers pid).isNone then some (s.check pid push delivery draws getBlob) else none
  | .request pid random delivery =>
    match s.pushers pid with
    | none => none
    | some pusher =>
      match (pusher.phase.answer s.log delivery).bind
          (pusher.args.next pusher.push.draws random pusher.phase) with
      | none => none
      | some phase =>
        let pushers := Function.update s.pushers pid (some { pusher with phase := phase })
        match pusher.phase.carriesOut delivery with
        -- a read, an upload, or an append that was refused on the way
        | none => some { s with pushers := pushers }
        | some (baseline, made) =>
          if Accepts s.log made.head then
            some {
              log := s.log ++ [made.head]
              pushers := pushers
              accepted := ⟨pusher.push, pusher.checked, pusher.args, baseline, made⟩ :: s.accepted }
          else none

end Requests

/-! ### The property and its condition -/

/-- Against the refs of its predecessor, an accepted head changes its own ref only, and that from
the value that the fast-forward check was made against. -/
def AcceptedPush.Keeps {D : Type} (u : AcceptedPush D) (prev : RefMap) : Prop :=
  ∀ name : String, u.made.refs.refs[name]? ≠ prev[name]? →
    name = dstRef u.push.dst ∧ prev[name]? = u.checked[name]? ∧
      ∀ old : String, prev[name]? = some old → old ≠ u.push.oid →
        Advances u.push.dag name old u.push.oid

/-- A ref that the check saw and the push does not name still has that value in the baseline or
in the predecessor, and the push's own ref has the checked value in the predecessor, unless the
baseline or the predecessor has it at the new one. -/
def AcceptedPush.Undisturbed {D : Type} (u : AcceptedPush D) (prev : RefMap) : Prop :=
  (∀ name value : String, name ≠ dstRef u.push.dst → u.checked[name]? = some value →
    u.baseline[name]? = some value ∨ prev[name]? = some value) ∧
  (u.baseline[dstRef u.push.dst]? = some u.push.oid ∨ prev[dstRef u.push.dst]? = some u.push.oid ∨
    prev[dstRef u.push.dst]? = u.checked[dstRef u.push.dst]?)

section Property

variable {D : Type} [Sha512 D] [HashPrimitives] [RefsCodec]

/-- A condition on every head accepted as a fast-forward and the refs of its predecessor, as its
pusher decrypts them. -/
def SharedRefs.ForwardUpdates (s : SharedRefs D) (P : AcceptedPush D → RefMap → Prop) : Prop :=
  ∀ u ∈ s.accepted, u.made.head.nonFf = false → ∀ front back prev,
    s.log = front ++ u.made.head :: back →
    tipRefs u.push.material u.push.draws front.getLast? = .ok prev → P u prev

/-- No accepted update is lost. -/
def SharedRefs.NoLostUpdate (s : SharedRefs D) : Prop := s.ForwardUpdates AcceptedPush.Keeps

end Property

/-! ### One merge -/

section Merge

variable {D : Type} {u : AcceptedPush D} {prev : RefMap} {name : String}

theorem getElem?_pushedRefs {dst oid : String} {remote : RefMap} :
    (pushedRefs dst oid remote)[name]? = if dst = name then some oid else remote[name]? := by
  rw [pushedRefs_eq, ExtTreeMap.getElem?_insert]
  simp only [Std.LawfulEqCmp.compare_eq_iff_eq]

/-- What an accepted head holds under a name. -/
theorem AcceptedPush.getElem?_refs
    (hmerge : reconcileRefsForCas u.baseline u.args.gitRefs prev false = .ok u.made.refs.refs) :
    u.made.refs.refs[name]? =
      if u.args.gitRefs[name]? = u.baseline[name]? then prev[name]?
      else u.args.gitRefs[name]?.or prev[name]? := by
  rw [← (reconcileRefsForCas_eq_ok_iff.mp hmerge).2, getElem?_insertMany_intendedRefs]

/-- A head that changes a ref has it at the value that its push asked for. -/
theorem AcceptedPush.changed
    (hmerge : reconcileRefsForCas u.baseline u.args.gitRefs prev false = .ok u.made.refs.refs)
    (hchanged : u.made.refs.refs[name]? ≠ prev[name]?) :
    ∃ value : String, u.args.gitRefs[name]? = some value ∧ u.baseline[name]? ≠ some value ∧
      prev[name]? ≠ some value := by
  rw [getElem?_refs hmerge] at hchanged
  split_ifs at hchanged with hsame
  · exact absurd rfl hchanged
  · cases hcaller : u.args.gitRefs[name]? with
    | none =>
      rw [hcaller, Option.none_or] at hchanged
      exact absurd rfl hchanged
    | some value =>
      rw [hcaller, Option.some_or] at hchanged
      rw [hcaller] at hsame
      exact ⟨value, rfl, Ne.symm hsame, hchanged.symm⟩

/-- A ref that the push asks for, and that neither the baseline nor the predecessor has at that
value, is changed. -/
theorem AcceptedPush.changed_of_ne
    (hmerge : reconcileRefsForCas u.baseline u.args.gitRefs prev false = .ok u.made.refs.refs)
    {value : String} (hcaller : u.args.gitRefs[name]? = some value)
    (hbaseline : u.baseline[name]? ≠ some value) (hprev : prev[name]? ≠ some value) :
    u.made.refs.refs[name]? ≠ prev[name]? := by
  rw [getElem?_refs hmerge, hcaller, if_neg hbaseline.symm, Option.some_or]
  exact hprev.symm

/-- What a merge keeps, in terms of the three reads. -/
theorem keeps_iff (hasks : u.push.Asks u.checked u.args) (hforward : u.args.nonFf = false)
    (hmerge : reconcileRefsForCas u.baseline u.args.gitRefs prev false = .ok u.made.refs.refs) :
    u.Keeps prev ↔ u.Undisturbed prev := by
  -- the caller asks for the refs it has checked, with its destination moved
  have hcaller : ∀ name : String, u.args.gitRefs[name]? =
      if dstRef u.push.dst = name then some u.push.oid else u.checked[name]? := by
    intro name
    rw [hasks.gitRefs, getElem?_pushedRefs]
  constructor
  · intro hkeeps
    constructor
    · intro name value hname hchecked
      -- an entry of the check that both later reads differ from is put back
      by_contra hmoved
      rw [not_or] at hmoved
      have hvalue : u.args.gitRefs[name]? = some value := by
        rw [hcaller, if_neg hname.symm, hchecked]
      exact hname
        (hkeeps name (u.changed_of_ne hmerge hvalue hmoved.1 hmoved.2)).1
    · -- a destination that moved in between is overwritten
      by_contra hmoved
      rw [not_or, not_or] at hmoved
      have hvalue : u.args.gitRefs[dstRef u.push.dst]? = some u.push.oid := by
        rw [hcaller, if_pos rfl]
      exact hmoved.2.2
        (hkeeps _ (u.changed_of_ne hmerge hvalue hmoved.1 hmoved.2.1)).2.1
  · intro ⟨hothers, hown⟩ name hchanged
    -- what changes is something the caller asked for and neither read had
    obtain ⟨value, hvalue, hbaseline, hprev⟩ := u.changed hmerge hchanged
    have hname : name = dstRef u.push.dst := by
      by_contra hne
      rw [hcaller, if_neg (Ne.symm hne)] at hvalue
      rcases hothers name value hne hvalue with hsame | hsame
      · exact hbaseline hsame
      · exact hprev hsame
    subst hname
    have hoid : u.push.oid = value := by
      rw [hcaller, if_pos rfl] at hvalue
      exact Option.some.inj hvalue
    rw [← hoid] at hbaseline hprev hvalue
    -- so the check and the predecessor agree on it, and the check was a fast-forward
    have hchecked := (hown.resolve_left hbaseline).resolve_left hprev
    refine ⟨rfl, hchecked, fun old hold hne => ?_⟩
    rw [hchecked] at hold
    exact (hasks.forward hforward).advances _ old _ hold hvalue hne

end Merge

/-! ### Where an accepted head stands -/

section Runs

variable {D : Type} [Sha512 D] [DecidableEq D] [HashPrimitives] [MlDsa87] [RefsCodec] [HexCodec D]
variable {s t : SharedRefs D} {ops : List (RefOp D)} {op : RefOp D}

/-- An attempt that a push is about to append was planned on a tip that the log has had. -/
def PushPhase.Sound (phase : PushPhase D) (args : PushArgs) (draws : RefHead D → Draws Bytes)
    (log : List (RefHead D)) : Prop :=
  ∀ baseline made, phase.pending = some (baseline, made) →
    made.Built args draws baseline ∧ ∃ seen, seen <+: log ∧ made.tip = seen.getLast?

omit [DecidableEq D] [MlDsa87] in
theorem PushPhase.Sound.append {phase : PushPhase D} {args : PushArgs}
    {draws : RefHead D → Draws Bytes} {log : List (RefHead D)} (h : phase.Sound args draws log)
    (head : RefHead D) : phase.Sound args draws (log ++ [head]) := by
  intro baseline made hpending
  obtain ⟨hbuilt, seen, hseen, htip⟩ := h baseline made hpending
  exact ⟨hbuilt, seen, hseen.trans (List.prefix_append _ _), htip⟩

/-- A push under way knows a tip that the log has had, and asks for what was checked. -/
structure RefPusher.Sound (pusher : RefPusher D) (log : List (RefHead D)) : Prop where
  asks : pusher.push.Asks pusher.checked pusher.args
  pending : ∀ baseline made, pusher.phase.pending = some (baseline, made) →
    made.Built pusher.args pusher.push.draws baseline ∧
      ∃ seen, seen <+: log ∧ made.tip = seen.getLast?

/-- An accepted head stands in the log right after the tip it was planned on. -/
structure AcceptedPush.Placed (u : AcceptedPush D) (log : List (RefHead D)) : Prop where
  asks : u.push.Asks u.checked u.args
  built : u.made.Built u.args u.push.draws u.baseline
  place : ∃ front back, log = front ++ u.made.head :: back ∧ u.made.tip = front.getLast?

omit [Sha512 D] [DecidableEq D] [HashPrimitives] [MlDsa87] [RefsCodec] [HexCodec D] in
/-- A head keeps its place in a log that grows. -/
theorem exists_place_append {log : List (RefHead D)} {made : RefHead D}
    {tip : Option (RefHead D)}
    (h : ∃ front back, log = front ++ made :: back ∧ tip = front.getLast?) (head : RefHead D) :
    ∃ front back, log ++ [head] = front ++ made :: back ∧ tip = front.getLast? := by
  obtain ⟨front, back, hlog, htip⟩ := h
  exact ⟨front, back ++ [head], by rw [hlog, List.append_assoc, List.cons_append], htip⟩

omit [DecidableEq D] [MlDsa87] in
theorem RefPusher.Sound.append {pusher : RefPusher D} {log : List (RefHead D)}
    (h : pusher.Sound log) (head : RefHead D) : pusher.Sound (log ++ [head]) where
  asks := h.asks
  pending := PushPhase.Sound.append h.pending head

omit [DecidableEq D] [MlDsa87] in
theorem AcceptedPush.Placed.append {u : AcceptedPush D} {log : List (RefHead D)}
    (h : u.Placed log) (head : RefHead D) : u.Placed (log ++ [head]) where
  asks := h.asks
  built := h.built
  place := exists_place_append h.place head

omit [DecidableEq D] [HashPrimitives] [MlDsa87] [RefsCodec] [HexCodec D] in
/-- The head after a tip that the log has had is accepted only while that tip is the last. -/
theorem eq_of_accepts {log seen : List (RefHead D)} {head : RefHead D} (hlog : Chained log)
    (hseen : seen <+: log) (hseq : head.seq = (nextHead seen.getLast?).2)
    (haccepts : Accepts log head) : seen = log := by
  -- the host compares the number with the length of its log
  have hlength : head.seq.toNat = log.length + 1 := haccepts.2.2
  apply hseen.eq_of_length
  cases hlast : seen.getLast? with
  | none =>
    rw [hseq, hlast] at hlength
    have hone : (1 : UInt64).toNat = log.length + 1 := hlength
    rw [List.getLast?_eq_none_iff.mp hlast, List.length_nil]
    change 1 = _ at hone
    omega
  | some tip =>
    have hseen' : Chained seen := by
      rw [List.prefix_iff_eq_take.mp hseen]
      exact hlog.take _
    have htip := hseen'.seq_of_getLast? hlast
    rw [hseq, hlast] at hlength
    have hsucc : (tip.seq + 1).toNat = log.length + 1 := hlength
    -- the number after the tip may have wrapped around
    rw [UInt64.toNat_add, htip] at hsucc
    change (seen.length + 1) % 2 ^ 64 = log.length + 1 at hsucc
    have hle := hseen.length_le
    have hmod := Nat.mod_le (seen.length + 1) (2 ^ 64)
    omega

def PushersSound (pushers : ℕ → Option (RefPusher D)) (log : List (RefHead D)) : Prop :=
  ∀ pid pusher, pushers pid = some pusher → pusher.Sound log

omit [DecidableEq D] [MlDsa87] in
theorem PushersSound.update {pushers : ℕ → Option (RefPusher D)} {log : List (RefHead D)}
    {pusher : RefPusher D} (h : PushersSound pushers log) (pid : ℕ) (hnew : pusher.Sound log) :
    PushersSound (Function.update pushers pid (some pusher)) log :=
  forall_update_some h pid hnew

omit [DecidableEq D] [HashPrimitives] [MlDsa87] [RefsCodec] [HexCodec D] in
/-- What stands before a head is given by its number. -/
theorem Chained.eq_take_of_append_cons {log front back : List (RefHead D)} {head : RefHead D}
    (h : Chained log) (hlog : log = front ++ head :: back) :
    front = log.take (head.seq.toNat - 1) := by
  have hplace : log[front.length]? = some head := by
    rw [hlog, List.getElem?_append_right le_rfl, Nat.sub_self, List.getElem?_cons_zero]
  rw [(h.getElem?_eq_some_iff.mp hplace).2, Nat.add_sub_cancel, hlog, List.take_left]

/-- The log is chained, pushes under way are sound, and accepted heads are in place. -/
structure SharedRefs.Linked (s : SharedRefs D) : Prop where
  chained : Chained s.log
  pushers : PushersSound s.pushers s.log
  accepted : ∀ u ∈ s.accepted, u.Placed s.log

/-- What a request does. -/
theorem SharedRefs.request_eq_some {pid : ℕ} {random : PushRandom} {delivery : Delivery}
    (h : s.step (.request pid random delivery) = some t) :
    ∃ pusher reply phase, s.pushers pid = some pusher ∧
      pusher.phase.answer s.log delivery = some reply ∧
      pusher.args.next pusher.push.draws random pusher.phase reply = some phase ∧
      t.pushers = Function.update s.pushers pid (some { pusher with phase := phase }) ∧
      ((t.log = s.log ∧ t.accepted = s.accepted) ∨
        ∃ baseline made, pusher.phase.carriesOut delivery = some (baseline, made) ∧
          Accepts s.log made.head ∧ t.log = s.log ++ [made.head] ∧
          t.accepted =
            ⟨pusher.push, pusher.checked, pusher.args, baseline, made⟩ :: s.accepted) := by
  simp only [SharedRefs.step] at h
  cases hpusher : s.pushers pid with
  | none =>
    rw [hpusher] at h
    cases h
  | some pusher =>
    simp only [hpusher] at h
    cases hnext : (pusher.phase.answer s.log delivery).bind
        (pusher.args.next pusher.push.draws random pusher.phase) with
    | none =>
      rw [hnext] at h
      cases h
    | some phase =>
      obtain ⟨reply, hanswer, hreply⟩ := Option.bind_eq_some_iff.mp hnext
      simp only [hnext] at h
      refine ⟨pusher, reply, phase, rfl, hanswer, hreply, ?_⟩
      -- a request that carries no head out leaves the log alone
      cases hout : pusher.phase.carriesOut delivery with
      | none =>
        rw [hout] at h
        obtain rfl := Option.some.inj h
        exact ⟨rfl, .inl ⟨rfl, rfl⟩⟩
      | some out =>
        obtain ⟨baseline, made⟩ := out
        simp only [hout] at h
        split_ifs at h with haccepts
        obtain rfl := Option.some.inj h
        exact ⟨rfl, .inr ⟨baseline, made, rfl, haccepts, rfl, rfl⟩⟩

omit [Sha512 D] [DecidableEq D] [HashPrimitives] [MlDsa87] [RefsCodec] [HexCodec D] in
theorem PushPhase.pending_of_carriesOut {phase : PushPhase D} {delivery : Delivery}
    {made : RefMap × Attempt D} (h : phase.carriesOut delivery = some made) :
    phase.pending = some made := by
  cases phase with
  | append baseline attempt made' => cases delivery <;> cases h <;> rfl
  | start => cases h
  | tip baseline attempt => cases h
  | upload baseline attempt chunks made' => cases h
  | done result => cases h

omit [DecidableEq D] [HashPrimitives] [MlDsa87] [RefsCodec] [HexCodec D] in
/-- A tip that is answered is the last head of the log. -/
theorem PushPhase.tip_of_answer {phase : PushPhase D} {delivery : Delivery}
    {log : List (RefHead D)} {tip : Option (RefHead D)}
    (h : phase.answer log delivery = some (.headTip (.ok tip))) : tip = log.getLast? := by
  have hreply : ∀ last : Option (RefHead D),
      some (HostReply.headTip (delivery.reply last)) = some (.headTip (.ok tip)) → tip = last := by
    intro last heq
    have hok := HostReply.headTip.inj (Option.some.inj heq)
    cases delivery with
    | answered => exact (Except.ok.inj hok).symm
    | unanswered error => cases hok
    | refused error => cases hok
  cases phase with
  | start => exact hreply _ h
  | tip baseline attempt => exact hreply _ h
  | upload baseline attempt chunks made => cases h
  | append baseline attempt made => cases h
  | done result => cases h

omit [DecidableEq D] in
/-- An attempt stays sound when its request is answered from the log. -/
theorem PushPhase.Sound.next {phase next : PushPhase D} {args : PushArgs}
    {draws : RefHead D → Draws Bytes} {log : List (RefHead D)} {delivery : Delivery}
    {random : PushRandom} {reply : HostReply D} (h : phase.Sound args draws log)
    (hanswer : phase.answer log delivery = some reply)
    (hnext : args.next draws random phase reply = some next) : next.Sound args draws log := by
  intro baseline made hpending
  rcases pending_of_next hnext hpending with hbefore | ⟨tip, hreply, htip, -, hbuilt⟩
  · exact h baseline made hbefore
  · rw [hreply] at hanswer
    exact ⟨hbuilt, log, List.prefix_rfl, by rw [htip, PushPhase.tip_of_answer hanswer]⟩

omit [DecidableEq D] [MlDsa87] in
/-- An attempt that is accepted was planned on the last head. -/
theorem PushPhase.Sound.tip_of_accepts {phase : PushPhase D} {args : PushArgs}
    {draws : RefHead D → Draws Bytes} {log : List (RefHead D)} {baseline : RefMap}
    {made : Attempt D} (h : phase.Sound args draws log) (hlog : Chained log)
    (hpending : phase.pending = some (baseline, made)) (haccepts : Accepts log made.head) :
    made.Built args draws baseline ∧ made.tip = log.getLast? := by
  obtain ⟨hbuilt, seen, hseen, htip⟩ := h baseline made hpending
  have hseq : made.head.seq = (nextHead seen.getLast?).2 := by
    obtain ⟨remote, merged, epochKey, -, -, hplanned⟩ := hbuilt
    rw [hplanned.seq, htip]
  -- that the host accepts it means that nothing was appended since its tip
  obtain rfl := eq_of_accepts hlog hseen hseq haccepts
  exact ⟨hbuilt, htip⟩

omit [DecidableEq D] in
/-- A push stays sound when its request is answered from the log. -/
theorem RefPusher.Sound.next {pusher : RefPusher D} {log : List (RefHead D)} {delivery : Delivery}
    {random : PushRandom} {reply : HostReply D} {phase : PushPhase D} (h : pusher.Sound log)
    (hanswer : pusher.phase.answer log delivery = some reply)
    (hnext : pusher.args.next pusher.push.draws random pusher.phase reply = some phase) :
    RefPusher.Sound { pusher with phase := phase } log where
  asks := h.asks
  pending := PushPhase.Sound.next h.pending hanswer hnext

omit [DecidableEq D] [MlDsa87] in
/-- An accepted head is put right after the tip it was planned on. -/
theorem RefPusher.Sound.placed {pusher : RefPusher D} {log : List (RefHead D)}
    {baseline : RefMap} {made : Attempt D} (h : pusher.Sound log) (hlog : Chained log)
    (hpending : pusher.phase.pending = some (baseline, made)) (haccepts : Accepts log made.head) :
    AcceptedPush.Placed ⟨pusher.push, pusher.checked, pusher.args, baseline, made⟩
      (log ++ [made.head]) := by
  obtain ⟨hbuilt, htip⟩ := PushPhase.Sound.tip_of_accepts h.pending hlog hpending haccepts
  exact ⟨h.asks, hbuilt, log, [], rfl, htip⟩

theorem SharedRefs.Linked.step (h : s.Linked) (hstep : s.step op = some t) : t.Linked := by
  cases op with
  | check pid push delivery draws getBlob =>
    rw [SharedRefs.step] at hstep
    split_ifs at hstep
    obtain rfl := Option.some.inj hstep
    unfold SharedRefs.check
    dsimp only
    -- only a check that goes on starts a push
    split
    · next checked args hdecide =>
      refine ⟨h.chained, h.pushers.update pid ⟨asks_of_decide hdecide, ?_⟩, h.accepted⟩
      intro _ _ hpending
      cases hpending
    · exact h
  | request pid random delivery =>
    obtain ⟨pusher, reply, phase, hpusher, hanswer, hnext, hpushers, hlog⟩ :=
      SharedRefs.request_eq_some hstep
    have hsound := h.pushers pid pusher hpusher
    -- whatever becomes of the head, the push under way stays sound for the old log
    have hafter : PushersSound t.pushers s.log := by
      rw [hpushers]
      exact h.pushers.update pid (hsound.next hanswer hnext)
    rcases hlog with ⟨hlog, haccepted⟩ | ⟨baseline, made, hout, haccepts, hlog, haccepted⟩
    · refine ⟨?_, ?_, ?_⟩
      · rw [hlog]
        exact h.chained
      · rw [hlog]
        exact hafter
      · rw [hlog, haccepted]
        exact h.accepted
    · refine ⟨?_, ?_, ?_⟩
      · rw [hlog]
        exact h.chained.concat haccepts.1 haccepts.2.1 haccepts.2.2
      · rw [hlog]
        exact fun pid' pusher' hpusher' => (hafter pid' pusher' hpusher').append made.head
      · intro u hmem
        rw [hlog]
        rw [haccepted] at hmem
        rcases List.mem_cons.mp hmem with rfl | hold
        · exact hsound.placed h.chained (PushPhase.pending_of_carriesOut hout) haccepts
        · exact (h.accepted u hold).append made.head

theorem linked_of_run (hrun : run SharedRefs.step SharedRefs.new ops = some s) : s.Linked :=
  run_invariant (P := SharedRefs.Linked) (fun _ _ _ h hstep => h.step hstep)
    ⟨.nil, fun _ _ hpusher => (by cases hpusher), fun _ hmem => (by cases hmem)⟩ hrun

/-- In a run of pushes that are accepted between one another's reads and retries, no update is
lost exactly when the three reads of every push agree where it matters. -/
theorem noLostUpdate_iff (hrun : run SharedRefs.step SharedRefs.new ops = some s) :
    s.NoLostUpdate ↔ s.ForwardUpdates AcceptedPush.Undisturbed := by
  -- for one accepted head, what it keeps is what its reads have in common
  have hone : ∀ u ∈ s.accepted, u.made.head.nonFf = false → ∀ front back prev,
      s.log = front ++ u.made.head :: back →
      tipRefs u.push.material u.push.draws front.getLast? = .ok prev →
      (u.Keeps prev ↔ u.Undisturbed prev) := by
    intro u hmem hforward front back prev hlog hprev
    have hlinked := linked_of_run hrun
    obtain ⟨hasks, ⟨remote, merged, epochKey, hremote, hmerged, hplanned⟩, front', back', hlog',
      htip⟩ := hlinked.accepted u hmem
    -- a head stands at one place of the log
    have hfront : front = front' := by
      rw [hlinked.chained.eq_take_of_append_cons hlog, hlinked.chained.eq_take_of_append_cons hlog']
    subst hfront
    rw [htip, hasks.material, hprev] at hremote
    obtain rfl := Except.ok.inj hremote
    rw [hplanned.nonFf] at hforward
    rw [hforward, ← hplanned.gitRefs] at hmerged
    exact keeps_iff hasks hforward hmerged
  constructor
  · intro h u hmem hforward front back prev hlog hprev
    exact (hone u hmem hforward front back prev hlog hprev).mp
      (h u hmem hforward front back prev hlog hprev)
  · intro h u hmem hforward front back prev hlog hprev
    exact (hone u hmem hforward front back prev hlog hprev).mpr
      (h u hmem hforward front back prev hlog hprev)

end Runs

/-! ### Pushes checked before any head -/

section Sample

attribute [local instance] transparentSha512 transparentHash transparentMlDsa87 framedRefsCodec
  plainHexCodec

/-- A push of the device to a branch. -/
def branchPush (dst oid : String) : RefPush Bytes where
  repo := Vector.replicate 32 1
  dst := dst
  force := false
  oid := oid
  bundle _ := [1]
  dag := none
  material := deviceMaterial
  keys := deviceKeys
  draws := flatDraws

/-- What the push asks for when there is no head yet. -/
def branchArgs (dst oid : String) : PushArgs :=
  deviceArgs (pushedRefs (dstRef dst) oid ∅) (some ("ref: " ++ dstRef dst))

/-- Every push is a fast-forward of no refs. -/
theorem recomputedNonFf_empty (dst oid : String) :
    recomputedNonFf none ∅ (pushedRefs dst oid ∅) = false := by
  apply recomputedNonFf_eq_false_iff.mpr
  constructor
  · intro name hmem
    simp at hmem
  · intro name oldOid newOid hold
    simp at hold

theorem decide_branchPush (dst oid : String) :
    (branchPush dst oid).decide (.ok none) = .push ∅ (branchArgs dst oid) := by
  have hforward := recomputedNonFf_empty (dstRef dst) oid
  simp only [RefPush.decide, branchPush, Bool.false_eq_true, if_false, Option.map_none,
    Option.getD_none, hforward, Bool.not_false, Bool.and_true, Bool.or_false]
  rw [if_neg (by simp)]
  rfl

/-- A push to a branch that makes its check when there is no head. -/
theorem step_check {s : SharedRefs Bytes} (pid : ℕ) (dst oid : String)
    (draws : RefHead Bytes → OpenDraws) (getBlob : Bytes → Except ClientError Bytes)
    (hfree : s.pushers pid = none) (hlog : s.log = []) :
    s.step (.check pid (branchPush dst oid) .answered draws getBlob) = some ⟨s.log,
      Function.update s.pushers pid (some ⟨branchPush dst oid, ∅, branchArgs dst oid, .start⟩),
      s.accepted⟩ := by
  have hdecide : (branchPush dst oid).decide (fetchTip (branchPush dst oid).repo
      (branchPush dst oid).material ⟨fun _ => .ok [], .ok s.log.getLast?, getBlob⟩ draws) =
      .push ∅ (branchArgs dst oid) := by
    rw [hlog]
    exact decide_branchPush dst oid
  rw [SharedRefs.step, if_pos (by rw [hfree]; rfl)]
  simp only [SharedRefs.check, Delivery.reply, hdecide]

/-- The encoding of a head that the device plans does not panic. -/
theorem encodable_of_devicePlanned {merged : RefMap} {prev : Bytes} {nextSeq : UInt64}
    {nonFf : Bool} {random : PushRandom} {head : RefHead Bytes} {refs : EncryptedRefsMap}
    (h : Planned (Vector.replicate 32 1) [1] merged deviceMaterial prev nextSeq nonFf random
      deviceEpochKey head refs)
    (hrefs : (framedRefsCodec.encode refs).length < 2 ^ 31)
    (hcosig : ∀ sig ∈ head.adminCosig, sig.length < 2 ^ 32)
    (hsig : head.pusherSig.length = mldsa87SigLen) : head.Encodable := by
  have htag : tagLen = 32 := rfl
  constructor
  · rw [CommittingAead.length_of_sealDeterministic h.encRefs, CommittingAead.length_commitBlock,
      htag]
    have hencode : (RefsCodec.encode refs).length < 2 ^ 31 := hrefs
    omega
  · rw [CommittingAead.length_of_sealDeterministic h.dekWrap, CommittingAead.length_commitBlock,
      htag, Vector.length_toList]
    decide
  · rw [← beq_iff_eq.mp h.epochTag, epochTagBytes, List.length_take]
    omega
  · rw [hsig]
    decide
  · exact hcosig

/-- The refs of a head that the device plans are as long as their names and object ids make them. -/
theorem length_encode_devicePlanned {merged : RefMap} {headSymref : Option String} {prev : Bytes}
    {nextSeq : UInt64} {nonFf : Bool} {random : PushRandom} {head : RefHead Bytes}
    {refs : EncryptedRefsMap}
    (h : Planned (Vector.replicate 32 1) [1] merged deviceMaterial prev nextSeq nonFf random
      deviceEpochKey head refs) (hhead : refs.head = headSymref) :
    (framedRefsCodec.encode refs).length = 550 + (merged.toList.map fun entry =>
      1 + ((1 + 5 * entry.1.length) + (1 + 5 * entry.2.length))).sum +
      (headSymref.elim 1 fun head => 1 + (1 + 5 * head.length)) := by
  -- the stand-in for hex is as long as its bytes
  have hpushId : refs.pushId.length = 16 := by
    rw [h.pushId]
    change (String.ofList (random.pushId.toList.map Char.ofUInt8)).length = 16
    rw [String.length_ofList, List.length_map, Vector.length_toList]
  -- one chunk of one byte, sealed with nonce, commit block and tag
  have hchunkIds : refs.chunkIds.map (fun id => 1 + (1 + 5 * id.length)) = [467] := by
    have hsealed : ∀ key aad nonce : Bytes, nonce.length = 12 →
        (CommittingAead.sealWithNonce key aad [1] nonce).length = 93 := by
      intro key aad nonce hnonce
      rw [CommittingAead.length_sealWithNonce, hnonce, CommittingAead.length_commitBlock]
      rfl
    rw [h.chunkIds]
    change [1 + (1 + 5 * (String.ofList ((CommittingAead.sealWithNonce _ _ [1]
      (random.nonce 0).toList).map Char.ofUInt8)).length)] = _
    rw [String.length_ofList, List.length_map, hsealed _ _ _ Vector.length_toList]
  rw [length_encode_framed, h.gitRefs, hhead, hpushId, hchunkIds, List.sum_singleton]
  omega

/-- A host with a short log accepts what the device plans on its last head. -/
theorem accepts_of_devicePlanned {log : List (RefHead Bytes)} {merged : RefMap}
    {headSymref : String} {nonFf : Bool} {random : PushRandom} {head : RefHead Bytes}
    {refs : EncryptedRefsMap}
    (hchained : Chained log) (hshort : log.length < 2)
    (h : Planned (Vector.replicate 32 1) [1] merged deviceMaterial (nextHead log.getLast?).1
      (nextHead log.getLast?).2 nonFf random deviceEpochKey head refs)
    (hhead : refs.head = some headSymref) (hcosig : ∀ sig ∈ head.adminCosig, sig.length < 2 ^ 32)
    (hsig : head.pusherSig.length = mldsa87SigLen)
    (hsmall : (merged.toList.map fun entry =>
      1 + ((1 + 5 * entry.1.length) + (1 + 5 * entry.2.length))).sum +
      (1 + (1 + 5 * headSymref.length)) < 2 ^ 30) : Accepts log head := by
  refine ⟨encodable_of_devicePlanned h ?_ hcosig hsig, ?_, ?_⟩
  · rw [length_encode_devicePlanned h hhead]
    dsimp only [Option.elim]
    omega
  · rw [h.prevHeadHash, lastHash]
    cases log.getLast? <;> rfl
  · rw [h.seq]
    cases hlast : log.getLast? with
    | none =>
      rw [List.getLast?_eq_none_iff.mp hlast]
      rfl
    | some tip =>
      have hseq := hchained.seq_of_getLast? hlast
      change (tip.seq + 1).toNat = _
      rw [UInt64.toNat_add, hseq]
      exact Nat.mod_eq_of_lt (by change log.length + 1 < 2 ^ 64; omega)

/-- A request that appends nothing. -/
theorem step_request {s : SharedRefs Bytes} {pid : ℕ} {random : PushRandom}
    {pusher : RefPusher Bytes} {reply : HostReply Bytes} {phase : PushPhase Bytes}
    (hpusher : s.pushers pid = some pusher)
    (hanswer : pusher.phase.answer s.log .answered = some reply)
    (hnext : pusher.args.next pusher.push.draws random pusher.phase reply = some phase)
    (hout : pusher.phase.carriesOut .answered = none) :
    s.step (.request pid random .answered) = some ⟨s.log,
      Function.update s.pushers pid (some { pusher with phase := phase }), s.accepted⟩ := by
  simp only [SharedRefs.step, hpusher, hanswer, Option.bind_some, hnext, hout]

/-- The requests of one attempt. -/
def branchRequests (pid : ℕ) (random : PushRandom) : List (RefOp Bytes) :=
  List.replicate 4 (.request pid random .answered)

/-- A push whose requests are answered one after the other is accepted. -/
theorem exists_run_branchRequests {s : SharedRefs Bytes} (pid : ℕ) {dst oid : String}
    {remote merged : RefMap} (random : PushRandom) (hchained : Chained s.log)
    (hshort : s.log.length < 2)
    (hpusher : s.pushers pid = some ⟨branchPush dst oid, ∅, branchArgs dst oid, .start⟩)
    (htip : tipRefs deviceMaterial flatDraws s.log.getLast? = .ok remote)
    (hmerged : reconcileRefsForCas remote (pushedRefs (dstRef dst) oid ∅) remote false = .ok merged)
    (hsmall : (merged.toList.map fun entry =>
      1 + ((1 + 5 * entry.1.length) + (1 + 5 * entry.2.length))).sum +
      (1 + (1 + 5 * ("ref: " ++ dstRef dst).length)) < 2 ^ 30) :
    ∃ made call, run SharedRefs.step s (branchRequests pid random) =
        some ⟨s.log ++ [made.head], Function.update s.pushers pid call,
          ⟨branchPush dst oid, ∅, branchArgs dst oid, remote, made⟩ :: s.accepted⟩ ∧
      made.refs.refs = merged ∧ made.head.nonFf = false ∧
      tipRefs deviceMaterial flatDraws (some made.head) = .ok merged ∧
      Chained (s.log ++ [made.head]) := by
  obtain ⟨chunks, made, hplan, -, -, hplanned, hhead, hcosig, hsig⟩ :=
    exists_devicePlan (some ("ref: " ++ dstRef dst)) random htip hmerged
  have haccepts : Accepts s.log made.head :=
    accepts_of_devicePlanned hchained hshort hplanned hhead (by simp [hcosig]) hsig hsmall
  refine ⟨made, some ⟨branchPush dst oid, ∅, branchArgs dst oid,
    (branchArgs dst oid).settle remote 0 made (.ok made.head.hash)⟩, ?_, hplanned.gitRefs,
    hplanned.nonFf, tipRefs_of_devicePlanned hplanned,
    hchained.concat haccepts.1 haccepts.2.1 haccepts.2.2⟩
  refine run_cons_eq_some.mpr ⟨_, step_request hpusher rfl (PushArgs.next_start htip) rfl, ?_⟩
  refine run_cons_eq_some.mpr
    ⟨_, step_request (Function.update_self ..) rfl (PushArgs.next_tip hplan) rfl, ?_⟩
  refine run_cons_eq_some.mpr
    ⟨_, step_request (Function.update_self ..) rfl PushArgs.next_upload rfl, ?_⟩
  simp only [Function.update_idem]
  refine run_cons_eq_some.mpr ⟨_, ?_, rfl⟩
  simp only [SharedRefs.step, Function.update_self, PushPhase.answer, Delivery.reply,
    Option.bind_some, PushArgs.next, PushPhase.carriesOut, if_pos haccepts, Function.update_idem]

/-- A push to a branch that has made its check when there was no head. -/
def checkedPush (dst oid : String) : RefPusher Bytes :=
  ⟨branchPush dst oid, ∅, branchArgs dst oid, .start⟩

/-- Two pushes make their checks when there is no head. -/
def twoChecks (dst : String) : List (RefOp Bytes) :=
  [.check 0 (branchPush dst "a") .answered (fun _ => ⟨⟨[], []⟩, ⟨[], []⟩⟩) .ok,
    .check 1 (branchPush "main" "b") .answered (fun _ => ⟨⟨[], []⟩, ⟨[], []⟩⟩) .ok]

/-- Then the second one is accepted, and the first one after it. -/
def overlappingPushes (dst : String) : List (RefOp Bytes) :=
  twoChecks dst ++ (branchRequests 1 (flatRandom 2) ++ branchRequests 0 (flatRandom 1))

/-- The pushes after their checks. -/
def checkedPushers (dst : String) : ℕ → Option (RefPusher Bytes) :=
  Function.update (Function.update (fun _ => none) 0 (some (checkedPush dst "a"))) 1
    (some (checkedPush "main" "b"))

theorem run_twoChecks (dst : String) :
    run SharedRefs.step SharedRefs.new (twoChecks dst) = some ⟨[], checkedPushers dst, []⟩ := by
  refine run_cons_eq_some.mpr ⟨_, step_check 0 dst "a" _ _ rfl rfl, ?_⟩
  exact run_cons_eq_some.mpr ⟨_, step_check 1 "main" "b" _ _ rfl rfl, rfl⟩

/-- A push asks for its own ref only, which a tip that serves as its own baseline takes over. -/
theorem reconcile_pushedRefs (dst oid : String) (remote : RefMap) :
    reconcileRefsForCas remote (pushedRefs dst oid ∅) remote false =
      .ok (remote.insert dst oid) := by
  refine reconcileRefsForCas_eq_ok_iff.mpr ⟨fun _ _ _ _ => .inr (.inl rfl), ?_⟩
  ext1 name
  rw [getElem?_insertMany_intendedRefs, getElem?_pushedRefs, ExtTreeMap.getElem?_insert]
  simp only [Std.LawfulEqCmp.compare_eq_iff_eq]
  by_cases hname : dst = name
  · rw [if_pos hname, if_pos hname, Option.some_or]
    split_ifs with hsame
    · exact hsame.symm
    · rfl
  · rw [if_neg hname, if_neg hname]
    split_ifs with hsame
    · rfl
    · rw [ExtTreeMap.getElem?_empty, Option.none_or]

/-- The refs after the push to the main branch. -/
def mainRefs : RefMap := (∅ : RefMap).insert (dstRef "main") "b"

theorem exists_run_overlappingPushes (dst : String)
    (hsmall : (((mainRefs.insert (dstRef dst) "a").toList.map fun entry =>
      1 + ((1 + 5 * entry.1.length) + (1 + 5 * entry.2.length))).sum +
      (1 + (1 + 5 * ("ref: " ++ dstRef dst).length))) < 2 ^ 30) :
    ∃ first second s, run SharedRefs.step SharedRefs.new (overlappingPushes dst) = some s ∧
      s.log = [first.head, second.head] ∧
      s.accepted = [⟨branchPush dst "a", ∅, branchArgs dst "a", mainRefs, second⟩,
        ⟨branchPush "main" "b", ∅, branchArgs "main" "b", ∅, first⟩] ∧
      second.refs.refs = mainRefs.insert (dstRef dst) "a" ∧ second.head.nonFf = false ∧
      tipRefs deviceMaterial flatDraws (some first.head) = .ok mainRefs := by
  have hempty : tipRefs deviceMaterial flatDraws none = .ok ∅ := rfl
  obtain ⟨first, call, hrun₁, hrefs₁, hforward₁, htip₁, hchained₁⟩ :=
    exists_run_branchRequests (s := ⟨[], checkedPushers dst, []⟩) 1 (flatRandom 2) .nil Nat.two_pos
      rfl hempty (reconcile_pushedRefs _ _ ∅) (by decide +kernel)
  -- the push that checked first comes second: its check saw no refs, its baseline is that head's
  obtain ⟨second, call', hrun₂, hrefs₂, hforward₂, -, -⟩ :=
    exists_run_branchRequests (s := ⟨[first.head], Function.update (checkedPushers dst) 1 call,
      [⟨branchPush "main" "b", ∅, branchArgs "main" "b", ∅, first⟩]⟩) 0 (flatRandom 1) hchained₁
      Nat.one_lt_two rfl htip₁ (reconcile_pushedRefs _ _ mainRefs) hsmall
  exact ⟨first, second, _, run_append_eq_some.mpr ⟨_, run_twoChecks dst,
    run_append_eq_some.mpr ⟨_, hrun₁, hrun₂⟩⟩, rfl, rfl, hrefs₂, hforward₂, htip₁⟩

/-- Both pushes name the main branch. The second one's value is in no read of the first one's
check, but in its baseline, and is overwritten. -/
theorem not_noLostUpdate_overlappingPushes : ∃ s,
    run SharedRefs.step SharedRefs.new (overlappingPushes "main") = some s ∧ ¬ s.NoLostUpdate := by
  obtain ⟨first, second, s, hrun, hlog, haccepted, hrefs, hforward, htip⟩ :=
    exists_run_overlappingPushes "main" (by decide +kernel)
  refine ⟨s, hrun, fun h => ?_⟩
  have hkeeps := h ⟨branchPush "main" "a", ∅, branchArgs "main" "a", mainRefs, second⟩
    (by rw [haccepted]; exact List.mem_cons_self) hforward [first.head] [] mainRefs hlog htip
  have hchecked : mainRefs[dstRef "main"]? = (∅ : RefMap)[dstRef "main"]? :=
    (hkeeps (dstRef "main") (by rw [hrefs]; decide +kernel)).2.1
  exact absurd hchecked (by decide +kernel)

/-- The pushes name different branches, and the second accepted head keeps the first one's. -/
theorem noLostUpdate_overlappingPushes : ∃ s,
    run SharedRefs.step SharedRefs.new (overlappingPushes "dev") = some s ∧ s.log.length = 2 ∧
      s.NoLostUpdate := by
  obtain ⟨first, second, s, hrun, hlog, haccepted, -, -, htip⟩ :=
    exists_run_overlappingPushes "dev" (by decide +kernel)
  refine ⟨s, hrun, by rw [hlog]; rfl, (noLostUpdate_iff hrun).mpr ?_⟩
  intro u hmem _ front back prev hsplit hprev
  have hchained := (linked_of_run hrun).chained
  -- each accepted head stands at its number, which gives what precedes it
  have hfront : ∀ k, s.log[k]? = some u.made.head → front = s.log.take k := by
    intro k hk
    rw [hchained.eq_take_of_append_cons hsplit, (hchained.getElem?_eq_some_iff.mp hk).2,
      Nat.add_sub_cancel]
  rw [haccepted] at hmem
  rcases List.mem_pair.mp hmem with rfl | rfl
  · rw [hfront 1 (by rw [hlog]; rfl), hlog] at hprev
    obtain rfl := Except.ok.inj (htip.symm.trans hprev)
    have hnone : mainRefs[dstRef "dev"]? = (∅ : RefMap)[dstRef "dev"]? := by decide +kernel
    exact ⟨fun _ _ _ hchecked => (by simp at hchecked), .inr (.inr hnone)⟩
  · rw [hfront 0 (by rw [hlog]; rfl)] at hprev
    obtain rfl := Except.ok.inj hprev
    exact ⟨fun _ _ _ hchecked => (by simp at hchecked), .inr (.inr rfl)⟩

end Sample

end SafeHub
