import SafeHub.Client.Push
import SafeHub.Lib.Run
import Mathlib.Data.List.Pairwise

/-!
# Keys and nonces of sealed heads

The key a head is sealed under depends on the epoch key and the intended sequence number, and
the counters are fixed: 0 for the data-encryption key and 1 for the refs. Every attempt that is
planned on a tip with the same number therefore uses the same two pairs of key and nonce, also
when an earlier attempt has been sent and was refused.

## Main definitions

* `Pushers`, `Pushers.step` — pushers, what was sent, and any answers of the host
* `SentHead.seals` — what was sealed by counter in a head that was sent
* `SealsUnique` — no pair of key and counter covers two plaintexts

## Main results

* `sealed_of_run` — the seals of a sent head are its ciphertexts
* `sealsUnique_iff` — exactly which runs keep the pairs unique
-/

namespace SafeHub

open Run FixedWidth

/-- A plaintext sealed under a key with a counter. -/
structure CounterSeal where
  key : Bytes
  counter : UInt64
  plaintext : Bytes

/-- A head that was sent to the host, and the push it came from. -/
structure SentHead (D : Type) where
  args : PushArgs
  made : Attempt D

/-- The pushes under way and the heads they have sent, latest first. -/
structure Pushers (D : Type) where
  calls : ℕ → Option (PushArgs × PushPhase D)
  sent : List (SentHead D)

/-- No push yet. -/
def Pushers.new {D : Type} : Pushers D := ⟨fun _ => none, []⟩

/-- A push starts, or the host answers the request of one. A request that gets no answer counts
as one that fails. -/
inductive PusherOp (D : Type)
  | begin (pid : ℕ) (args : PushArgs)
  | answer (pid : ℕ) (draws : RefHead D → Draws Bytes) (random : PushRandom) (reply : HostReply D)

/-- The head that the request of a push carries. -/
def PushPhase.sends {D : Type} (args : PushArgs) : PushPhase D → List (SentHead D)
  | .append _ _ made => [⟨args, made⟩]
  | _ => []

/-- The number of a tip, 0 without one. -/
def tipSeq {D : Type} : Option (RefHead D) → UInt64
  | some head => head.seq
  | none => 0

section Pushers

variable {D : Type} [Sha512 D] [HashPrimitives] [MlDsa87] [RefsCodec] [HexCodec D]

def Pushers.step (s : Pushers D) : PusherOp D → Option (Pushers D)
  | .begin pid args =>
    if (s.calls pid).isNone then
      some { s with calls := Function.update s.calls pid (some (args, .start)) }
    else none
  | .answer pid draws random reply =>
    match s.calls pid with
    | none => none
    | some (args, phase) =>
      match args.next draws random phase reply with
      | none => none
      | some next =>
        some {
          calls := Function.update s.calls pid (some (args, next))
          sent := phase.sends args ++ s.sent }

/-- What was sealed by counter in a head that was sent. -/
def SentHead.seals (sent : SentHead D) : List CounterSeal :=
  match sent.args.material.epochKey sent.made.random.epoch with
  | .error _ => []
  | .ok epochKey =>
    let key := headSealKey epochKey sent.made.head.seq
    [⟨key, 0, sent.made.random.dek.toList⟩, ⟨key, 1, RefsCodec.encode sent.made.refs⟩]

/-- No two plaintexts were sealed under one key and counter and then sent. -/
def Pushers.SealsUnique (s : Pushers D) : Prop :=
  ∀ a ∈ s.sent.flatMap SentHead.seals, ∀ b ∈ s.sent.flatMap SentHead.seals,
    a.key = b.key → a.counter = b.counter → a.plaintext = b.plaintext

variable {s t : Pushers D} {op : PusherOp D} {ops : List (PusherOp D)} {sent : SentHead D}

/-! ### What is sent -/

/-- What an answer does. -/
theorem Pushers.answer_eq_some_iff {pid : ℕ} {draws : RefHead D → Draws Bytes}
    {random : PushRandom} {reply : HostReply D} :
    s.step (.answer pid draws random reply) = some t ↔
      ∃ args phase next, s.calls pid = some (args, phase) ∧
        args.next draws random phase reply = some next ∧
        t = ⟨Function.update s.calls pid (some (args, next)), phase.sends args ++ s.sent⟩ := by
  simp only [Pushers.step]
  constructor
  · intro hstep
    cases hcall : s.calls pid with
    | none =>
      rw [hcall] at hstep
      cases hstep
    | some call =>
      obtain ⟨args, phase⟩ := call
      simp only [hcall] at hstep
      cases hnext : args.next draws random phase reply with
      | none =>
        rw [hnext] at hstep
        cases hstep
      | some next =>
        rw [hnext] at hstep
        exact ⟨args, phase, next, rfl, hnext, (Option.some.inj hstep).symm⟩
  · intro ⟨args, phase, next, hcall, hnext, ht⟩
    simp only [hcall, hnext, ht]

/-- The attempts that are under way were built from the tips they were planned on. -/
def CallsBuilt (calls : ℕ → Option (PushArgs × PushPhase D)) : Prop :=
  ∀ pid args phase baseline made, calls pid = some (args, phase) →
    phase.pending = some (baseline, made) → ∃ draws, made.Built args draws baseline

omit [MlDsa87] in
theorem CallsBuilt.update {calls : ℕ → Option (PushArgs × PushPhase D)} {args : PushArgs}
    {phase : PushPhase D} (h : CallsBuilt calls) (pid : ℕ) (hnew : ∀ baseline made,
      phase.pending = some (baseline, made) → ∃ draws, made.Built args draws baseline) :
    CallsBuilt (Function.update calls pid (some (args, phase))) := by
  intro pid' args' phase' baseline made hcall hpending
  by_cases hpid : pid' = pid
  · subst hpid
    rw [Function.update_self] at hcall
    obtain ⟨rfl, rfl⟩ := Prod.mk.inj (Option.some.inj hcall)
    exact hnew baseline made hpending
  · rw [Function.update_of_ne hpid] at hcall
    exact h pid' args' phase' baseline made hcall hpending

omit [Sha512 D] [HashPrimitives] [MlDsa87] [RefsCodec] [HexCodec D] in
/-- A head that is sent is the one under way. -/
theorem mem_sends_iff {args : PushArgs} {phase : PushPhase D} :
    sent ∈ phase.sends args ↔
      ∃ baseline attempt, phase = .append baseline attempt sent.made ∧ sent.args = args := by
  cases phase with
  | append baseline attempt made =>
    rw [PushPhase.sends, List.mem_singleton]
    constructor
    · intro hsent
      rw [hsent]
      exact ⟨baseline, attempt, rfl, rfl⟩
    · intro ⟨baseline', attempt', hphase, hargs⟩
      obtain ⟨-, -, rfl⟩ := PushPhase.append.inj hphase
      rw [← hargs]
  | start => simp [PushPhase.sends]
  | tip baseline attempt => simp [PushPhase.sends]
  | upload baseline attempt chunks made => simp [PushPhase.sends]
  | done result => simp [PushPhase.sends]

/-- Every attempt, sent or under way, was built from the tip it was planned on. -/
structure Pushers.Built (s : Pushers D) : Prop where
  calls : CallsBuilt s.calls
  sent : ∀ sent ∈ s.sent, ∃ draws baseline, sent.made.Built sent.args draws baseline

theorem Pushers.Built.step (h : s.Built) (hstep : s.step op = some t) : t.Built := by
  cases op with
  | begin pid args =>
    rw [Pushers.step] at hstep
    split_ifs at hstep
    obtain rfl := Option.some.inj hstep
    exact ⟨h.calls.update pid fun _ _ hpending => (by cases hpending), h.sent⟩
  | answer pid draws random reply =>
    obtain ⟨args, phase, next, hcall, hnext, rfl⟩ := Pushers.answer_eq_some_iff.mp hstep
    constructor
    · apply h.calls.update pid
      intro baseline made hpending
      rcases pending_of_next hnext hpending with hbefore | ⟨tip, -, -, -, hbuilt⟩
      · exact h.calls pid args phase baseline made hcall hbefore
      · exact ⟨draws, hbuilt⟩
    · -- what is sent was under way
      intro sent hmem
      rcases List.mem_append.mp hmem with hnew | hold
      · obtain ⟨baseline, attempt, rfl, rfl⟩ := mem_sends_iff.mp hnew
        obtain ⟨draws', hbuilt⟩ := h.calls pid sent.args _ baseline sent.made hcall rfl
        exact ⟨draws', baseline, hbuilt⟩
      · exact h.sent sent hold

theorem built_of_run (hrun : run Pushers.step Pushers.new ops = some s) : s.Built :=
  run_invariant (P := Pushers.Built) (fun _ _ _ h hstep => h.step hstep)
    ⟨fun _ _ _ _ _ hcall => (by cases hcall), fun _ hmem => (by cases hmem)⟩ hrun

/-! ### Which pairs are used -/

/-- The ciphertexts of a head that was sent are what was sealed by counter. -/
theorem sealed_of_run (hrun : run Pushers.step Pushers.new ops = some s) (hsent : sent ∈ s.sent) :
    ∃ dek refs, sent.seals = [dek, refs] ∧
      CommittingAead.sealDeterministic dek.key (labelBytes "dek-wrap") dek.plaintext dek.counter =
        .ok sent.made.head.dekWrap ∧
      CommittingAead.sealDeterministic refs.key (labelBytes "refs") refs.plaintext refs.counter =
        .ok sent.made.head.encRefs := by
  obtain ⟨draws, baseline, remote, merged, epochKey, -, -, hplanned⟩ :=
    (built_of_run hrun).sent sent hsent
  refine ⟨⟨headSealKey epochKey sent.made.head.seq, 0, sent.made.random.dek.toList⟩,
    ⟨headSealKey epochKey sent.made.head.seq, 1, RefsCodec.encode sent.made.refs⟩, ?_, ?_, ?_⟩
  · rw [SentHead.seals, hplanned.key]
  · rw [hplanned.seq]
    exact hplanned.dekWrap
  · rw [hplanned.seq]
    exact hplanned.encRefs

/-- A head is numbered after the tip it was planned on. -/
theorem seq_of_run (hrun : run Pushers.step Pushers.new ops = some s) (hsent : sent ∈ s.sent) :
    sent.made.head.seq = tipSeq sent.made.tip + 1 := by
  obtain ⟨draws, baseline, remote, merged, epochKey, -, -, hplanned⟩ :=
    (built_of_run hrun).sent sent hsent
  rw [hplanned.seq]
  cases sent.made.tip with
  | none => rfl
  | some head => rfl

omit [Sha512 D] [MlDsa87] [HexCodec D] in
/-- What the seals of a head that was sent share. -/
theorem seals_of_key {epochKey : Bytes}
    (hkey : sent.args.material.epochKey sent.made.random.epoch = .ok epochKey) :
    sent.seals = [⟨headSealKey epochKey sent.made.head.seq, 0, sent.made.random.dek.toList⟩,
      ⟨headSealKey epochKey sent.made.head.seq, 1, RefsCodec.encode sent.made.refs⟩] := by
  rw [SentHead.seals, hkey]

section Shared

variable {epochKey : Bytes} (hrun : run Pushers.step Pushers.new ops = some s)
variable (hshared : ∀ sent ∈ s.sent,
  sent.args.material.epochKey sent.made.random.epoch = .ok epochKey)

include hrun hshared

/-- Two heads that were sent for one number wrap their keys under the same pair. -/
theorem Pushers.SealsUnique.pairwise (h : s.SealsUnique)
    (hfresh : (s.sent.map fun sent => sent.made.random.dek).Nodup) :
    s.sent.Pairwise fun a b => tipSeq a.made.tip ≠ tipSeq b.made.tip := by
  apply (List.pairwise_map.mp hfresh).imp_of_mem
  intro a b ha hb hdek htip
  apply hdek
  have hseq : a.made.head.seq = b.made.head.seq := by
    rw [seq_of_run hrun ha, seq_of_run hrun hb, htip]
  -- both wrap a data-encryption key with counter 0
  have hplain := h ⟨headSealKey epochKey a.made.head.seq, 0, a.made.random.dek.toList⟩
    (List.mem_flatMap.mpr ⟨a, ha, seals_of_key (hshared a ha) ▸ List.mem_cons_self⟩)
    ⟨headSealKey epochKey b.made.head.seq, 0, b.made.random.dek.toList⟩
    (List.mem_flatMap.mpr ⟨b, hb, seals_of_key (hshared b hb) ▸ List.mem_cons_self⟩)
    (by rw [hseq]) rfl
  exact Vector.toList_inj.mp hplain

/-- Heads for different numbers are sealed under different keys. -/
theorem sealsUnique_of_pairwise (hkdf : Function.Injective fun seq => headSealKey epochKey seq)
    (h : s.sent.Pairwise fun a b => tipSeq a.made.tip ≠ tipSeq b.made.tip) : s.SealsUnique := by
  intro a ha b hb hkey hcounter
  obtain ⟨x, hx, hax⟩ := List.mem_flatMap.mp ha
  obtain ⟨y, hy, hby⟩ := List.mem_flatMap.mp hb
  rw [seals_of_key (hshared x hx), List.mem_pair] at hax
  rw [seals_of_key (hshared y hy), List.mem_pair] at hby
  -- both seals of a head use the one key of its number
  have hkeys : headSealKey epochKey x.made.head.seq = headSealKey epochKey y.made.head.seq := by
    rcases hax with rfl | rfl <;> rcases hby with rfl | rfl <;> exact hkey
  have htip : tipSeq x.made.tip = tipSeq y.made.tip := by
    have hseq := hkdf hkeys
    rw [seq_of_run hrun hx, seq_of_run hrun hy] at hseq
    exact (UInt64.add_left_inj 1).mp hseq
  -- so both are seals of one head
  have hsame : x = y := by
    have : Std.Symm fun a b : SentHead D => tipSeq a.made.tip ≠ tipSeq b.made.tip :=
      ⟨fun _ _ h => h.symm⟩
    by_contra hne
    exact h.forall hx hy hne htip
  subst hsame
  -- within one head the counters differ
  rcases hax with rfl | rfl <;> rcases hby with rfl | rfl
  · rfl
  · cases hcounter
  · cases hcounter
  · rfl

/-- Pushers that share an epoch key, and draw no data-encryption key twice, use every pair of key
and counter for one plaintext exactly when no two heads were sent for the same number. -/
theorem sealsUnique_iff (hkdf : Function.Injective fun seq => headSealKey epochKey seq)
    (hfresh : (s.sent.map fun sent => sent.made.random.dek).Nodup) :
    s.SealsUnique ↔ s.sent.Pairwise fun a b => tipSeq a.made.tip ≠ tipSeq b.made.tip :=
  ⟨fun h => h.pairwise hrun hshared hfresh, sealsUnique_of_pairwise hrun hshared hkdf⟩

end Shared

end Pushers

/-! ### Pushes of one device -/

section Sample

attribute [local instance] transparentSha512 transparentHash transparentMlDsa87 framedRefsCodec
  plainHexCodec

/-- A push of the device that is told of one tip throughout. -/
def devicePush (pid : ℕ) (tip : Option (RefHead Bytes)) (random : PushRandom)
    (reply : Except ClientError Bytes) : List (PusherOp Bytes) :=
  [.begin pid (deviceArgs ∅ none), .answer pid flatDraws random (.headTip (.ok tip)),
    .answer pid flatDraws random (.headTip (.ok tip)),
    .answer pid flatDraws random (.putBlob fun _ => .ok ()),
    .answer pid flatDraws random (.appendHead reply)]

theorem exists_run_devicePush {s : Pushers Bytes} {tip : Option (RefHead Bytes)} (pid : ℕ)
    (random : PushRandom) (reply : Except ClientError Bytes) (hfree : s.calls pid = none)
    (htip : tipRefs deviceMaterial flatDraws tip = .ok ∅) :
    ∃ made call, run Pushers.step s (devicePush pid tip random reply) =
        some ⟨Function.update s.calls pid call, ⟨deviceArgs ∅ none, made⟩ :: s.sent⟩ ∧
      made.tip = tip ∧ made.random = random ∧
      tipRefs deviceMaterial flatDraws (some made.head) = .ok ∅ := by
  have hmerged : reconcileRefsForCas ∅ ∅ ∅ false = .ok ∅ := rfl
  obtain ⟨chunks, made, hplan, hfrom, hrandom, hplanned, -⟩ :=
    exists_devicePlan none random htip hmerged
  refine ⟨made, some (deviceArgs ∅ none, (deviceArgs ∅ none).settle ∅ 0 made reply), ?_, hfrom,
    hrandom, tipRefs_of_devicePlanned hplanned⟩
  refine run_cons_eq_some.mpr ⟨_, if_pos (by rw [hfree]; rfl), ?_⟩
  refine run_cons_eq_some.mpr ⟨_, Pushers.answer_eq_some_iff.mpr
    ⟨_, _, _, Function.update_self .., PushArgs.next_start htip, rfl⟩, ?_⟩
  refine run_cons_eq_some.mpr ⟨_, Pushers.answer_eq_some_iff.mpr
    ⟨_, _, _, Function.update_self .., PushArgs.next_tip hplan, rfl⟩, ?_⟩
  refine run_cons_eq_some.mpr ⟨_, Pushers.answer_eq_some_iff.mpr
    ⟨_, _, _, Function.update_self .., PushArgs.next_upload, rfl⟩, ?_⟩
  refine run_cons_eq_some.mpr ⟨_, Pushers.answer_eq_some_iff.mpr
    ⟨_, _, _, Function.update_self .., rfl, rfl⟩, ?_⟩
  simp only [Function.update_idem]
  rfl

/-- The stand-in for HKDF derives a different key for every number. -/
theorem headSealKey_deviceEpochKey_injective :
    Function.Injective fun seq => headSealKey deviceEpochKey seq := by
  intro seq seq' h
  -- the info string stands at the front of the derived key
  have hinfo : ∀ seq, (headSealKey deviceEpochKey seq).take 28 = headSealInfo seq := by
    intro seq
    have hlength : (headSealInfo seq).length = 28 := by
      rw [headSealInfo, List.length_append, u64BE, length_beBytes]
      decide +kernel
    change (((headSealInfo seq ++ deviceEpochKey) ++ List.replicate 32 0).take 32).take 28 = _
    rw [List.take_take, List.append_assoc, List.take_left' (by rw [hlength]; rfl)]
  apply headSealInfo_injective
  rw [← hinfo seq, ← hinfo seq']
  exact congrArg (List.take 28) h

/-- The device pushes twice: first on no tip, then on what it is told of. -/
theorem exists_run_devicePushes (tip : RefHead Bytes → Option (RefHead Bytes))
    (reply : Except ClientError Bytes)
    (htip : ∀ head, tipRefs deviceMaterial flatDraws (some head) = .ok ∅ →
      tipRefs deviceMaterial flatDraws (tip head) = .ok ∅) :
    ∃ first second s, run Pushers.step Pushers.new (devicePush 0 none (flatRandom 1) (.ok []) ++
        devicePush 1 (tip first.head) (flatRandom 2) reply) = some s ∧
      s.sent = [⟨deviceArgs ∅ none, second⟩, ⟨deviceArgs ∅ none, first⟩] ∧
      first.tip = none ∧ second.tip = tip first.head ∧
      (s.sent.map fun sent => sent.made.random.dek).Nodup := by
  have hfree : (Pushers.new : Pushers Bytes).calls 0 = none := rfl
  have hempty : tipRefs deviceMaterial flatDraws none = .ok ∅ := rfl
  obtain ⟨first, call, hrun₁, htip₁, hrandom₁, hopen⟩ :=
    exists_run_devicePush 0 (flatRandom 1) (.ok []) hfree hempty
  have hfree' : Function.update (Pushers.new : Pushers Bytes).calls 0 call 1 = none :=
    Function.update_of_ne Nat.one_ne_zero call _
  obtain ⟨second, call', hrun₂, htip₂, hrandom₂, -⟩ := exists_run_devicePush
    (s := ⟨Function.update Pushers.new.calls 0 call, [⟨deviceArgs ∅ none, first⟩]⟩) 1
    (flatRandom 2) reply hfree' (htip first.head hopen)
  refine ⟨first, second, _, run_append_eq_some.mpr ⟨_, hrun₁, hrun₂⟩, rfl, htip₁, htip₂, ?_⟩
  simp only [List.map_cons, List.map_nil, hrandom₁, hrandom₂]
  decide

/-- The pushes of the device share its epoch key. -/
theorem epochKey_of_devicePushes {first second : Attempt Bytes} :
    ∀ sent ∈ [(⟨deviceArgs ∅ none, second⟩ : SentHead Bytes), ⟨deviceArgs ∅ none, first⟩],
      sent.args.material.epochKey sent.made.random.epoch = .ok deviceEpochKey := by
  intro sent hmem
  rcases List.mem_pair.mp hmem with rfl | rfl <;> exact deviceMaterial_epochKey _

/-- Two pushes are told that there is no tip yet. Both seal a key and refs for the first head and
send them, and the host refuses the second. -/
theorem not_sealsUnique_sameTip : ∃ s, run Pushers.step Pushers.new
      (devicePush 0 none (flatRandom 1) (.ok []) ++
        devicePush 1 none (flatRandom 2) (.error (.api 409 "cas conflict"))) = some s ∧
    (∀ sent ∈ s.sent, sent.args.material.epochKey sent.made.random.epoch = .ok deviceEpochKey) ∧
    (Function.Injective fun seq => headSealKey deviceEpochKey seq) ∧
    (s.sent.map fun sent => sent.made.random.dek).Nodup ∧ ¬ s.SealsUnique := by
  obtain ⟨first, second, s, hrun, hsent, htip₁, htip₂, hfresh⟩ :=
    exists_run_devicePushes (fun _ => none) (.error (.api 409 "cas conflict")) fun _ _ => rfl
  have hshared : ∀ sent ∈ [(⟨deviceArgs ∅ none, second⟩ : SentHead Bytes),
      ⟨deviceArgs ∅ none, first⟩], _ := epochKey_of_devicePushes
  rw [← hsent] at hshared
  refine ⟨s, hrun, hshared, headSealKey_deviceEpochKey_injective, hfresh, fun hunique => ?_⟩
  have hapart := hunique.pairwise hrun hshared hfresh
  rw [hsent] at hapart
  apply (List.pairwise_cons.mp hapart).1 _ List.mem_cons_self
  rw [htip₁, htip₂]

/-- The second push is told of the first one's head and seals for the number after it. -/
theorem sealsUnique_stackedPushes : ∃ first s, run Pushers.step Pushers.new
      (devicePush 0 none (flatRandom 1) (.ok []) ++
        devicePush 1 (some first) (flatRandom 2) (.ok [])) = some s ∧
    s.sent.length = 2 ∧ s.SealsUnique := by
  obtain ⟨first, second, s, hrun, hsent, htip₁, htip₂, hfresh⟩ :=
    exists_run_devicePushes some (.ok []) fun _ h => h
  have hshared : ∀ sent ∈ [(⟨deviceArgs ∅ none, second⟩ : SentHead Bytes),
      ⟨deviceArgs ∅ none, first⟩], _ := epochKey_of_devicePushes
  rw [← hsent] at hshared
  refine ⟨first.head, s, hrun, by rw [hsent]; rfl, ?_⟩
  rw [sealsUnique_iff hrun hshared headSealKey_deviceEpochKey_injective hfresh, hsent,
    List.pairwise_pair, htip₁, htip₂]
  have hseq := seq_of_run hrun (hsent ▸ List.mem_cons_of_mem _ List.mem_cons_self :
    (⟨deviceArgs ∅ none, first⟩ : SentHead Bytes) ∈ s.sent)
  rw [htip₁] at hseq
  change first.head.seq ≠ 0
  rw [hseq]
  decide

end Sample

end SafeHub
