import SafeHub.Client.Fetch
import SafeHub.Storage.HeadLog
import SafeHub.Lib.Run

/-!
# The applied cursor of a checkout

A checkout records the sequence number and the hash of the last head it has applied, and the
next pull asks for what follows. Pull records every head it replays, clone the last one, and
push the head it was given, whatever landed before that head. Heads of other clients are
appended in between, also between the pages that a pull reads.

## Main definitions

* `Checkout`, `CheckoutOp`, `SharedLog.step` — a checkout, the host's log and their steps
* `runFetchMerge`, `cloneRun` — what pull and clone replay and record
* `AppliedSound` — the checkout has every head up to its cursor
* `SharedLog.Orderly` — a push lands on the heads that the checkout has
* `CursorSound` — the cursor of a run is sound throughout

## Main results

* `headsSince_servedBy` — the pages of a growing log are one run of it
* `cursorSound_of_along_orderly` — orderly runs keep the cursor sound
-/

namespace SafeHub

open Run

/-- A checkout. -/
structure Checkout (D : Type) where
  /-- `applied_seq`, 0 when there is none. -/
  appliedSeq : UInt64
  /-- `applied_head` -/
  appliedHead : Option (HeadHash D)
  /-- The sequence number that the clone started after. -/
  start : ℕ
  /-- The heads whose bundle was imported, or found to carry refs only. -/
  replayed : List (RefHead D)
  /-- The heads pushed from here. -/
  produced : List (RefHead D)

/-- A new checkout. -/
def Checkout.fresh {D : Type} : Checkout D := ⟨0, none, 0, [], []⟩

/-- The checkout holds the objects of a head. -/
def Checkout.Has {D : Type} (checkout : Checkout D) (head : RefHead D) : Prop :=
  head ∈ checkout.replayed ∨ head ∈ checkout.produced

/-- One fetch: the member's material and group, how long the log was when each page and the tip
were read, the blobs and which bundles git imports. -/
structure FetchCall (D : Type) where
  repo : RepoId
  material : EpochMaterial Bytes Bytes
  group : Except ClientError LocalGroup
  draws : RefHead D → OpenDraws
  pageAt : UInt64 → ℕ
  tipAt : ℕ
  getBlob : BlobId D → Except ClientError Bytes
  imports : FetchResult D → Bool

/-- The host's head log and the checkout. -/
structure SharedLog (D : Type) where
  log : List (RefHead D)
  checkout : Checkout D

/-- An empty log and a new checkout. -/
def SharedLog.new {D : Type} : SharedLog D := ⟨[], Checkout.fresh⟩

/-- A command on the checkout, or another client's append. -/
inductive CheckoutOp (D : Type)
  /-- A checkout is set up without a fetch. -/
  | init
  /-- Another client's head is accepted. -/
  | append (head : RefHead D)
  /-- A push from here is accepted with this head, after whatever retries. A deletion of a ref, or
  a push that stops before it has recorded its head, records nothing. -/
  | push (head : RefHead D) (recorded : Bool)
  /-- The checkout pulls. -/
  | pull (call : FetchCall D)
  /-- The checkout is cloned anew. -/
  | clone (call : FetchCall D) (checkedOut : Bool)

section Commands

variable {D : Type} [Sha512 D]

/-- Record a head as the last one applied. -/
def Checkout.recordApplied (checkout : Checkout D) (head : RefHead D) : Checkout D :=
  { checkout with
    appliedSeq := head.seq
    appliedHead := some head.hash }

/-- Whether a fetched bundle is done with: it carries refs only, or git imports it. -/
def FetchCall.replays (call : FetchCall D) (fetched : FetchResult D) : Bool :=
  isRefOnlyBundle fetched.bundle || call.imports fetched

/-- Replay bundles in order and record each head, up to the first failure. -/
def replayLoop (call : FetchCall D) : List (FetchResult D) → Checkout D → Checkout D
  | [], checkout => checkout
  | fetched :: batch, checkout =>
    if call.replays fetched then
      replayLoop call batch
        ({ checkout with replayed := fetched.head :: checkout.replayed }.recordApplied fetched.head)
    else checkout

variable [DecidableEq D]

/-- A host that answers from its log, of which it may have had less when a page was read. -/
def servedBy (log : List (RefHead D)) (pageAt : UInt64 → ℕ) (tipAt : ℕ)
    (getBlob : BlobId D → Except ClientError Bytes) : HostReplies D where
  headsPage cursor :=
    .ok (((log.take (pageAt cursor)).filter fun head => cursor < head.seq).take headsPageLen)
  headTip := .ok (log.take tipAt).getLast?
  getBlob := getBlob

variable [HashPrimitives] [MlDsa87] [RefsCodec] [HexCodec D]

/-- The bundles after a sequence number. -/
def FetchCall.batch (call : FetchCall D) (log : List (RefHead D)) (afterSeq : UInt64)
    (anchor : Option (HeadHash D)) : Except ClientError (List (FetchResult D)) :=
  fetchBundlesSince call.repo call.material call.group
    (servedBy log call.pageAt call.tipAt call.getBlob) call.draws afterSeq anchor

/-- The checkout after a pull; what git merges afterwards does not touch the cursor. -/
def runFetchMerge (call : FetchCall D) (log : List (RefHead D)) (checkout : Checkout D) :
    Checkout D :=
  match call.batch log checkout.appliedSeq checkout.appliedHead with
  | .error _ => checkout
  | .ok batch => replayLoop call batch checkout

/-- The checkout after a clone. Only a clone that has replayed the whole batch and checked out
the tip records it. -/
def cloneRun (call : FetchCall D) (log : List (RefHead D)) (checkedOut : Bool) : Checkout D :=
  match call.batch log 0 (some Sha512.zero) with
  | .error _ => Checkout.fresh
  | .ok batch =>
    let done := batch.takeWhile call.replays
    let checkout := { (Checkout.fresh : Checkout D) with replayed := done.map FetchResult.head }
    match batch.head?, batch.getLast? with
    | some first, some tip =>
      if done.length = batch.length && checkedOut then
        { checkout with start := first.head.seq.toNat - 1 }.recordApplied tip.head
      else checkout
    | _, _ => checkout

/-- One step. -/
def SharedLog.step (s : SharedLog D) : CheckoutOp D → Option (SharedLog D)
  | .init => some { s with checkout := Checkout.fresh }
  | .append head => if Accepts s.log head then some { s with log := s.log ++ [head] } else none
  | .push head recorded =>
    if Accepts s.log head then
      let checkout := { s.checkout with produced := head :: s.checkout.produced }
      some {
        log := s.log ++ [head]
        checkout := if recorded then checkout.recordApplied head else checkout }
    else none
  | .pull call => some { s with checkout := runFetchMerge call s.log s.checkout }
  | .clone call checkedOut => some { s with checkout := cloneRun call s.log checkedOut }

end Commands

/-! ### The property and its condition -/

namespace SharedLog

variable {D : Type}

/-- The checkout has every head from the clone's start up to its cursor. -/
def AppliedSound (s : SharedLog D) : Prop :=
  ∀ head ∈ s.log, s.checkout.start < head.seq.toNat → head.seq ≤ s.checkout.appliedSeq →
    s.checkout.Has head

/-- A push that is recorded lands on heads that the checkout has; the member's grant leaves out
no head that comes before one it includes, of those a pull asks for, and none between two that it
includes, of those a clone asks for. -/
def Orderly (s : SharedLog D) : CheckoutOp D → Prop
  | .push _ recorded => recorded = true →
      ∀ head ∈ s.log, s.checkout.appliedSeq < head.seq → s.checkout.Has head
  | .pull call => ∀ head ∈ s.log, ∀ later ∈ s.log, s.checkout.appliedSeq < head.seq →
      head.seq < later.seq → call.material.historyFrom ≤ later.mlsEpoch.toNat →
      call.material.historyFrom ≤ head.mlsEpoch.toNat
  | .clone call _ => ∀ first ∈ s.log, ∀ head ∈ s.log, ∀ later ∈ s.log, first.seq < head.seq →
      head.seq < later.seq → call.material.historyFrom ≤ first.mlsEpoch.toNat →
      call.material.historyFrom ≤ later.mlsEpoch.toNat →
      call.material.historyFrom ≤ head.mlsEpoch.toNat
  | _ => True

end SharedLog

/-- What is kept of a list is its beginning when nothing is kept after something left out. -/
theorem filter_isPrefix_of_pairwise {α : Type*} {p : α → Bool} {l : List α}
    (h : l.Pairwise fun a b => p b = true → p a = true) : l.filter p <+: l := by
  induction l with
  | nil => exact List.prefix_rfl
  | cons a l ih =>
    obtain ⟨hlater, hrest⟩ := List.pairwise_cons.mp h
    by_cases ha : p a = true
    · rw [List.filter_cons_of_pos ha]
      exact (List.prefix_cons_inj a).mpr (ih hrest)
    · have hnone : l.filter p = [] :=
        List.filter_eq_nil_iff.mpr fun b hb hkept => ha (hlater b hb hkept)
      rw [List.filter_cons_of_neg ha, hnone]
      exact List.nil_prefix

section Logs

variable {D : Type} [Sha512 D] {log : List (RefHead D)} {head : RefHead D}

/-- The last number of a run of heads that begins after a place of the log. -/
theorem Chained.seq_of_isPrefix_drop (h : Chained log) {start : ℕ} (hstart : start ≤ log.length)
    {page : List (RefHead D)} (hpage : page <+: log.drop start)
    (hlast : page.getLast? = some head) : head.seq.toNat = start + page.length := by
  have htake : log.take (start + page.length) = log.take start ++ page := by
    rw [List.take_add, ← List.prefix_iff_eq_take.mp hpage]
  have hend : (log.take (start + page.length)).getLast? = some head := by
    rw [htake, List.getLast?_append, hlast, Option.some_or]
  rw [(h.take _).seq_of_getLast? hend, htake, List.length_append, List.length_take,
    Nat.min_eq_left hstart]

theorem Chained.pairwise_of_isPrefix_drop (h : Chained log) {start : ℕ}
    {page : List (RefHead D)} (hpage : page <+: log.drop start) :
    page.Pairwise fun a b => a.seq ≤ b.seq := by
  have hsub := hpage.sublist.trans (List.drop_sublist start log)
  exact (h.pairwise.sublist hsub).imp fun hlt => UInt64.le_of_lt hlt

end Logs

/-! ### What a fetch reads of a growing log -/

section Serving

variable {D : Type} [Sha512 D] [DecidableEq D] [HashPrimitives] [MlDsa87] [RefsCodec] [HexCodec D]
variable {log : List (RefHead D)} {pageAt : UInt64 → ℕ} {tipAt : ℕ}
variable {getBlob : BlobId D → Except ClientError Bytes} {cursor : UInt64}

omit [DecidableEq D] [HashPrimitives] [MlDsa87] [RefsCodec] [HexCodec D] in
/-- A page is the beginning of what follows its cursor now. -/
theorem headsPage_isPrefix_drop (h : Chained log) {page : List (RefHead D)}
    (hpage : (servedBy log pageAt tipAt getBlob).headsPage cursor = .ok page) :
    page <+: log.drop cursor.toNat := by
  obtain rfl := Except.ok.inj hpage
  -- the page was read from a beginning of the log
  rw [(h.take _).filter_eq_drop]
  apply (List.take_prefix _ _).trans
  exact (List.take_prefix _ log).drop cursor.toNat

omit [DecidableEq D] [HashPrimitives] [MlDsa87] [RefsCodec] [HexCodec D] in
/-- The pages read one after the other are one run of the log. -/
theorem headsSinceLoop_servedBy (h : Chained log) {all served : List (RefHead D)}
    (hcursor : cursor.toNat ≤ log.length)
    (hserved : headsSinceLoop (servedBy log pageAt tipAt getBlob).headsPage cursor all =
      .ok served) :
    ∃ run, served = all ++ run ∧ run <+: log.drop cursor.toNat := by
  fun_induction headsSinceLoop with
  | case1 cursor all error hpage => cases hserved
  | case2 cursor all page hpage hlast =>
    exact ⟨page, (Except.ok.inj hserved).symm, headsPage_isPrefix_drop h hpage⟩
  | case3 cursor all page hpage last hlast hmoves hshort =>
    exact ⟨page, (Except.ok.inj hserved).symm, headsPage_isPrefix_drop h hpage⟩
  | case4 cursor all page hpage last hlast hmoves hfull ih =>
    -- the next page begins where this one ends
    have hbegins := headsPage_isPrefix_drop h hpage
    have hseq := h.seq_of_isPrefix_drop hcursor hbegins hlast
    have hmem : last ∈ log :=
      List.mem_of_mem_drop (hbegins.subset (List.mem_of_getLast? hlast))
    obtain ⟨more, hmore, hafter⟩ := ih (h.seq_le last hmem) hserved
    obtain ⟨rest, hrest⟩ := hbegins
    have hnext : log.drop last.seq.toNat = rest := by
      rw [hseq, ← List.drop_drop, ← hrest, List.drop_left]
    refine ⟨page ++ more, by rw [hmore, List.append_assoc], ?_⟩
    rw [← hrest, List.prefix_append_right_inj, ← hnext]
    exact hafter
  | case5 cursor all page hpage last hlast hstuck =>
    exact ⟨page, (Except.ok.inj hserved).symm, headsPage_isPrefix_drop h hpage⟩

omit [DecidableEq D] [HashPrimitives] [MlDsa87] [RefsCodec] [HexCodec D] in
theorem headsSince_servedBy (h : Chained log) {served : List (RefHead D)}
    (hcursor : cursor.toNat ≤ log.length)
    (hserved : headsSince (servedBy log pageAt tipAt getBlob) cursor = .ok served) :
    served <+: log.drop cursor.toNat := by
  obtain ⟨run, rfl, hrun⟩ := headsSinceLoop_servedBy h hcursor hserved
  exact hrun

omit [Sha512 D] [DecidableEq D] [HashPrimitives] [MlDsa87] [RefsCodec] [HexCodec D] in
/-- Heads that arrive in order are only filtered by the grant. -/
theorem readableHeads_of_pairwise {material : EpochMaterial Bytes Bytes}
    {heads : List (RefHead D)} (h : heads.Pairwise fun a b => a.seq ≤ b.seq) :
    readableHeads material heads =
      heads.filter fun head => material.historyFrom ≤ head.mlsEpoch.toNat := by
  have hsorted : heads.insertionSort (fun a b => a.seq ≤ b.seq) = heads := h.insertionSort_eq
  rw [readableHeads, hsorted]
  split_ifs with hgrant
  · rfl
  · symm
    apply List.filter_eq_self.mpr
    intro head _
    simp [Nat.eq_zero_of_not_pos hgrant]

/-- The bundles of a fetch are those of the readable heads of one run of the log. -/
theorem FetchCall.batch_eq_ok {call : FetchCall D} {anchor : Option (HeadHash D)}
    {batch : List (FetchResult D)} (h : Chained log) (hcursor : cursor.toNat ≤ log.length)
    (hbatch : call.batch log cursor anchor = .ok batch) :
    ∃ served, served <+: log.drop cursor.toNat ∧ batch.map FetchResult.head =
      served.filter fun head => call.material.historyFrom ≤ head.mlsEpoch.toNat := by
  obtain ⟨served, hserved, hheads, -, -⟩ := fetchBundlesSince_eq_ok hbatch
  have hbegins := headsSince_servedBy h hcursor hserved
  refine ⟨served, hbegins, ?_⟩
  rw [hheads, readableHeads_of_pairwise (h.pairwise_of_isPrefix_drop hbegins)]

omit [DecidableEq D] [HashPrimitives] [MlDsa87] [RefsCodec] [HexCodec D] in
/-- What a member may read has no gaps when its grant leaves out nothing in between. -/
theorem Chained.mem_filter_of_between (h : Chained log) {grant : ℕ} {served : List (RefHead D)}
    {first tip head : RefHead D} (hserved : served <+: log)
    (hgrant : ∀ first ∈ log, ∀ head ∈ log, ∀ later ∈ log, first.seq < head.seq →
      head.seq < later.seq → grant ≤ first.mlsEpoch.toNat → grant ≤ later.mlsEpoch.toNat →
      grant ≤ head.mlsEpoch.toNat)
    (hfirst : first ∈ served.filter fun head => grant ≤ head.mlsEpoch.toNat)
    (htip : tip ∈ served.filter fun head => grant ≤ head.mlsEpoch.toNat) (hmem : head ∈ log)
    (hfrom : first.seq ≤ head.seq) (hto : head.seq ≤ tip.seq) :
    head ∈ served.filter fun head => grant ≤ head.mlsEpoch.toNat := by
  by_cases hends : first.seq = head.seq ∨ head.seq = tip.seq
  · -- the first one and the tip are readable
    rcases hends with heq | heq
    · rwa [← h.eq_of_seq_eq (hserved.subset (List.mem_of_mem_filter hfirst)) hmem heq]
    · rwa [h.eq_of_seq_eq hmem (hserved.subset (List.mem_of_mem_filter htip)) heq]
  rw [not_or] at hends
  obtain ⟨hfirst, hfirstReadable⟩ := List.mem_filter.mp hfirst
  obtain ⟨htip, htipReadable⟩ := List.mem_filter.mp htip
  have htipMem := hserved.subset htip
  apply List.mem_filter.mpr
  constructor
  · -- served, since it comes before the tip
    rw [List.prefix_iff_eq_take.mp hserved, h.mem_take_iff] at htip ⊢
    exact ⟨hmem, (UInt64.le_iff_toNat_le.mp hto).trans htip.2⟩
  · -- readable, since it comes between the two
    exact decide_eq_true (hgrant first (hserved.subset hfirst) head hmem tip htipMem
      (UInt64.lt_of_le_of_ne hfrom hends.1) (UInt64.lt_of_le_of_ne hto hends.2)
      (of_decide_eq_true hfirstReadable) (of_decide_eq_true htipReadable))

end Serving

/-! ### Orderly runs -/

namespace SharedLog

variable {D : Type}

/-- What every state of an orderly run meets. -/
structure Current [Sha512 D] (s : SharedLog D) : Prop where
  chained : Chained s.log
  applied_le : s.checkout.appliedSeq.toNat ≤ s.log.length
  sound : s.AppliedSound

theorem appliedSound_of_appliedSeq_eq_zero {s : SharedLog D} (h : s.checkout.appliedSeq = 0) :
    s.AppliedSound := by
  intro head _ hstart happlied
  rw [h, UInt64.le_iff_toNat_le] at happlied
  have hzero : (0 : UInt64).toNat = 0 := rfl
  omega

variable [Sha512 D] {s t : SharedLog D} {head : RefHead D}

/-- The head after the applied one is recorded, and its objects are there. -/
theorem Current.recordApplied {log : List (RefHead D)} {checkout next : Checkout D}
    (h : Current ⟨log, checkout⟩) (hmem : head ∈ log)
    (hafter : ∀ h ∈ log, checkout.appliedSeq < h.seq → h.seq ≤ head.seq → next.Has h)
    (hstart : next.start = checkout.start) (hhas : ∀ h, checkout.Has h → next.Has h) :
    Current ⟨log, next.recordApplied head⟩ where
  chained := h.chained
  applied_le := h.chained.seq_le head hmem
  sound := by
    intro h' hmem' hfrom hto
    have hkept : next.Has h' := by
      -- up to the old cursor by the invariant, beyond it by hypothesis
      by_cases hold : h'.seq ≤ checkout.appliedSeq
      · apply hhas
        exact h.sound h' hmem' (hstart ▸ hfrom) hold
      · exact hafter h' hmem' (UInt64.not_le.mp hold) hto
    exact hkept

/-- Bundles replayed in the order of the log keep the cursor sound. -/
theorem Current.replayLoop {log : List (RefHead D)} {call : FetchCall D}
    {batch : List (FetchResult D)} {checkout : Checkout D} (h : Current ⟨log, checkout⟩)
    (hbatch : batch.map FetchResult.head <+: log.drop checkout.appliedSeq.toNat) :
    Current ⟨log, replayLoop call batch checkout⟩ := by
  induction batch generalizing checkout with
  | nil => exact h
  | cons fetched batch ih =>
    rw [SafeHub.replayLoop]
    split_ifs with hreplays
    · rw [List.map_cons] at hbatch
      obtain ⟨rest, hrest⟩ := hbatch
      rw [List.cons_append] at hrest
      -- the replayed head stands right after the cursor
      have hplace : log[checkout.appliedSeq.toNat]? = some fetched.head := by
        rw [← List.head?_drop, ← hrest, List.head?_cons]
      obtain ⟨hmem, hseq⟩ := h.chained.getElem?_eq_some_iff.mp hplace
      apply ih
      · apply h.recordApplied hmem
        · intro h' hmem' hlt hle
          have hsame : h'.seq = fetched.head.seq := by
            rw [UInt64.lt_iff_toNat_lt] at hlt
            rw [UInt64.le_iff_toNat_le] at hle
            apply UInt64.toNat_inj.mp
            omega
          rw [h.chained.eq_of_seq_eq hmem' hmem hsame]
          exact .inl List.mem_cons_self
        · rfl
        · intro h' hhas
          exact hhas.imp_left (List.mem_cons_of_mem _)
      · have hdrop : log.drop fetched.head.seq.toNat = batch.map FetchResult.head ++ rest := by
          rw [hseq, ← List.drop_drop, ← hrest]
          rfl
        change _ <+: log.drop fetched.head.seq.toNat
        rw [hdrop]
        exact List.prefix_append _ _
    · exact h

/-- An accepted head leaves the cursor where it is. -/
theorem Current.append {log : List (RefHead D)} {checkout : Checkout D}
    (h : Current ⟨log, checkout⟩) (haccepts : Accepts log head) :
    Current ⟨log ++ [head], checkout⟩ where
  chained := h.chained.concat haccepts.1 haccepts.2.1 haccepts.2.2
  applied_le := by
    have hle : checkout.appliedSeq.toNat ≤ log.length := h.applied_le
    apply hle.trans
    rw [List.length_append]
    exact Nat.le_add_right _ _
  sound := by
    intro h' hmem hfrom hto
    rcases List.mem_append.mp hmem with hold | hnew
    · exact h.sound h' hold hfrom hto
    · -- the new head is beyond the cursor
      have hseq := haccepts.2.2
      rw [List.mem_singleton.mp hnew, UInt64.le_iff_toNat_le] at hto
      have hle : checkout.appliedSeq.toNat ≤ log.length := h.applied_le
      have hto' : head.seq.toNat ≤ checkout.appliedSeq.toNat := hto
      omega

theorem Current.produced {log : List (RefHead D)} {checkout : Checkout D}
    (h : Current ⟨log, checkout⟩) (head : RefHead D) :
    Current ⟨log, { checkout with produced := head :: checkout.produced }⟩ where
  chained := h.chained
  applied_le := h.applied_le
  sound := fun h' hmem hfrom hto =>
    (h.sound h' hmem hfrom hto).imp_right (List.mem_cons_of_mem _)

variable [DecidableEq D] [HashPrimitives] [MlDsa87] [RefsCodec] [HexCodec D]

theorem Current.runFetchMerge {log : List (RefHead D)} {checkout : Checkout D} {call : FetchCall D}
    (h : Current ⟨log, checkout⟩) (hgrant : Orderly ⟨log, checkout⟩ (.pull call)) :
    Current ⟨log, runFetchMerge call log checkout⟩ := by
  unfold SafeHub.runFetchMerge
  cases hbatch : call.batch log checkout.appliedSeq checkout.appliedHead with
  | error e => exact h
  | ok batch =>
    apply h.replayLoop
    obtain ⟨served, hserved, hheads⟩ := FetchCall.batch_eq_ok h.chained h.applied_le hbatch
    have hchained : Chained log := h.chained
    -- nothing that was served is dropped before something that is kept
    have hkept : (served.filter fun head => call.material.historyFrom ≤ head.mlsEpoch.toNat) <+:
        served := by
      apply filter_isPrefix_of_pairwise
      have hordered : served.Pairwise fun a b => a.seq < b.seq :=
        hchained.pairwise.sublist (hserved.sublist.trans (List.drop_sublist _ log))
      refine hordered.imp_of_mem fun {head later} hhead hlater hlt hreadable => ?_
      have hafter := hserved.subset hhead
      rw [← hchained.filter_eq_drop, List.mem_filter] at hafter
      exact decide_eq_true (hgrant head hafter.1 later
        (List.mem_of_mem_drop (hserved.subset hlater)) (of_decide_eq_true hafter.2) hlt
        (of_decide_eq_true hreadable))
    rw [hheads]
    exact hkept.trans hserved

/-- A clone that records its tip has replayed every head from its first one on. -/
theorem Current.cloneRun {log : List (RefHead D)} {call : FetchCall D} {checkedOut : Bool}
    (h : Chained log) (hgrant : ∀ first ∈ log, ∀ head ∈ log, ∀ later ∈ log,
      first.seq < head.seq → head.seq < later.seq →
      call.material.historyFrom ≤ first.mlsEpoch.toNat →
      call.material.historyFrom ≤ later.mlsEpoch.toNat →
      call.material.historyFrom ≤ head.mlsEpoch.toNat) :
    Current ⟨log, cloneRun call log checkedOut⟩ := by
  -- a clone that records nothing has its cursor at zero
  have hidle : ∀ checkout : Checkout D, checkout.appliedSeq = 0 → Current ⟨log, checkout⟩ := by
    intro checkout hzero
    refine ⟨h, ?_, appliedSound_of_appliedSeq_eq_zero hzero⟩
    rw [show checkout.appliedSeq = 0 from hzero]
    exact Nat.zero_le _
  unfold SafeHub.cloneRun
  cases hbatch : call.batch log 0 (some Sha512.zero) with
  | error e => exact hidle _ rfl
  | ok batch =>
    dsimp only
    cases hfirst : batch.head? with
    | none => exact hidle _ rfl
    | some first =>
      cases htip : batch.getLast? with
      | none => exact hidle _ rfl
      | some tip =>
        dsimp only
        split_ifs with hdone
        · obtain ⟨served, hserved, hheads⟩ := FetchCall.batch_eq_ok h (Nat.zero_le _) hbatch
          have hfirst' := List.mem_map_of_mem (f := FetchResult.head) (List.mem_of_head? hfirst)
          have htip' := List.mem_map_of_mem (f := FetchResult.head) (List.mem_of_getLast? htip)
          rw [hheads] at hfirst' htip'
          have htipMem : tip.head ∈ log :=
            List.mem_of_mem_drop (hserved.subset (List.mem_of_mem_filter htip'))
          refine ⟨h, h.seq_le _ htipMem, ?_⟩
          intro head hmem hfrom hto
          -- the whole batch was replayed, and it has every head from the first to the tip
          have hbetween := h.mem_filter_of_between hserved hgrant hfirst' htip' hmem
            (UInt64.le_iff_toNat_le.mpr (Nat.le_of_pred_lt hfrom)) hto
          have hlength := (Bool.and_eq_true_iff.mp hdone).1
          have hwhole : batch.takeWhile call.replays = batch :=
            (List.takeWhile_prefix _).eq_of_length (of_decide_eq_true hlength)
          rw [← hheads, ← hwhole] at hbetween
          exact .inl hbetween
        · exact hidle _ rfl

theorem Current.step {op : CheckoutOp D} (h : Current s) (horderly : s.Orderly op)
    (hstep : s.step op = some t) : Current t := by
  obtain ⟨log, checkout⟩ := s
  cases op with
  | init =>
    obtain rfl := Option.some.inj hstep
    exact ⟨h.chained, Nat.zero_le _, appliedSound_of_appliedSeq_eq_zero rfl⟩
  | append head =>
    rw [SharedLog.step] at hstep
    split_ifs at hstep with haccepts
    obtain rfl := Option.some.inj hstep
    exact h.append haccepts
  | push head recorded =>
    simp only [SharedLog.step] at hstep
    split_ifs at hstep with haccepts hrecorded
    · obtain rfl := Option.some.inj hstep
      apply (h.append haccepts).recordApplied (List.mem_append_right _ List.mem_cons_self)
      · intro h' hmem hlt _
        -- what lies between the cursor and the new head is there, and the new head is this push
        rcases List.mem_append.mp hmem with hold | hnew
        · exact (horderly hrecorded h' hold hlt).imp_right (List.mem_cons_of_mem _)
        · exact .inr (List.mem_cons.mpr (.inl (List.mem_singleton.mp hnew)))
      · rfl
      · intro h' hhas
        exact hhas.imp_right (List.mem_cons_of_mem _)
    · obtain rfl := Option.some.inj hstep
      exact (h.append haccepts).produced head
  | pull call =>
    obtain rfl := Option.some.inj hstep
    exact h.runFetchMerge horderly
  | clone call checkedOut =>
    obtain rfl := Option.some.inj hstep
    exact Current.cloneRun h.chained horderly

omit [DecidableEq D] [HashPrimitives] [MlDsa87] [RefsCodec] [HexCodec D] in
theorem current_new : Current (SharedLog.new : SharedLog D) :=
  ⟨.nil, Nat.zero_le _, appliedSound_of_appliedSeq_eq_zero rfl⟩

end SharedLog

section Runs

variable {D : Type} [Sha512 D] [DecidableEq D] [HashPrimitives] [MlDsa87] [RefsCodec] [HexCodec D]

/-- The cursor is sound in every state that a run passes through. -/
def CursorSound (ops : List (CheckoutOp D)) : Prop :=
  ∀ front back s, ops = front ++ back → run SharedLog.step SharedLog.new front = some s →
    s.AppliedSound

/-- In a run whose recorded pushes land on heads that the checkout has, and whose fetches drop no
head that a kept one comes after (a clone: between two kept ones), the cursor is sound. -/
theorem cursorSound_of_along_orderly {ops : List (CheckoutOp D)}
    (horderly : Along SharedLog.step SharedLog.Orderly SharedLog.new ops) : CursorSound ops := by
  intro front back s hops hrun
  rw [hops] at horderly
  have hfront := (along_append.mp horderly).1
  have hcurrent := hfront.invariant (fun _ _ _ h horderly hstep => h.step horderly hstep)
    SharedLog.current_new hrun
  exact hcurrent.sound

end Runs

section Sample

attribute [local instance] transparentSha512 transparentHash transparentMlDsa87 framedRefsCodec
  plainHexCodec

/-- A head on top of another. -/
def stackedHead (seq : UInt64) (prev : Bytes) : RefHead Bytes where
  repoId := Vector.replicate 32 5
  seq := seq
  encRefs := [1]
  bundleRoot := []
  dekWrap := [1]
  prevHeadHash := prev
  mlsEpoch := 0
  epochTag := List.replicate 32 3
  nonFf := false
  pusherSig := [4]
  adminCosig := none

/-- Two heads, the second on top of the first. -/
def lowerHead : RefHead Bytes := stackedHead 1 []

def upperHead : RefHead Bytes := stackedHead 2 lowerHead.hash

/-- Another client's head lands, and a push from here is accepted on top of it. -/
def overtakenPush : List (CheckoutOp Bytes) := [.append lowerHead, .push upperHead true]

/-- The push moves the cursor over the other client's head, whose bundle was never imported. -/
theorem not_cursorSound_overtakenPush : ¬ CursorSound overtakenPush := by
  intro h
  have hrun : ∃ s, run SharedLog.step SharedLog.new overtakenPush = some s ∧
      s.log = [lowerHead, upperHead] ∧ s.checkout.appliedSeq = 2 ∧ s.checkout.start = 0 ∧
      s.checkout.replayed = [] ∧ s.checkout.produced = [upperHead] :=
    ⟨_, rfl, rfl, rfl, rfl, rfl, rfl⟩
  obtain ⟨s, hrun, hlog, happlied, hstart, hreplayed, hproduced⟩ := hrun
  have hsound := h overtakenPush [] s (List.append_nil _).symm hrun lowerHead
    (hlog ▸ List.mem_cons_self) (by rw [hstart]; decide) (by rw [happlied]; decide)
  -- nothing was replayed, and only the upper head was produced
  rw [Checkout.Has, hreplayed, hproduced] at hsound
  rcases hsound with hreplayed | hproduced
  · cases hreplayed
  · have hseq := congrArg RefHead.seq (List.mem_singleton.mp hproduced)
    exact absurd hseq (by decide)

/-- A fetch that reads the log when it has one head. -/
def earlyFetch : FetchCall Bytes where
  repo := Vector.replicate 32 5
  material := deviceMaterial
  group := deviceKeys.group
  draws _ := ⟨⟨[], []⟩, ⟨[], []⟩⟩
  pageAt _ := 1
  tipAt := 1
  getBlob id := .ok id
  imports _ := true

/-- A push from here, another client's head on top of it and a pull that misses it. -/
def leadingPush : List (CheckoutOp Bytes) :=
  [.push lowerHead true, .append upperHead, .pull earlyFetch]

theorem cursorSound_leadingPush :
    (run SharedLog.step SharedLog.new leadingPush).map SharedLog.log = some [lowerHead, upperHead] ∧
      CursorSound leadingPush := by
  refine ⟨rfl, cursorSound_of_along_orderly ?_⟩
  refine ⟨?_, ?_⟩
  · intro _ head hmem
    cases hmem
  intro s _
  refine ⟨trivial, ?_⟩
  intro t _
  exact ⟨fun _ _ _ _ _ _ _ => Nat.zero_le _, fun _ _ => trivial⟩

end Sample

end SafeHub
