import SafeHub.System.AppliedCursor
import SafeHub.System.ForcePush
import SafeHub.System.HonestViews
import SafeHub.System.RefUpdates

/-!
# Fetching from an honest host

A fetch asks for the heads page by page and for the tip, and the log may grow in between. It
keeps the heads of the member's window, checks their chain, tags and signatures, compares them
with the tip and opens them. None of this fails on the log of honest members as long as no head
lands between the pages and the tip, the window leaves no hole, and the reader's material and
roster cover the writers.

## Main definitions

* `FetchCall.readTo`, `FetchCall.kept` — how far the pages reach and what is kept of them
* `Pushed` — an honest member pushed a head, and the host has its chunks
* `Readable`, `QuietFetch` — what a fetch needs

## Main results

* `Chained.headsSinceLoop_eq_ok` — the pages of a growing log
* `fetched_iff` — when a fetch from an honest host succeeds
-/

namespace SafeHub

open HashChain

section Pages

variable {D : Type} {log : List (RefHead D)} {cursor : UInt64} {length c : ℕ}

/-- How far the pages reach that are read from a cursor on, given how long the log finally is:
the next page is asked for where a full one ends. -/
def FetchCall.readTo (call : FetchCall D) (length cursor : ℕ) : ℕ :=
  if cursor + headsPageLen ≤ min (call.pageAt (.ofNat cursor)) length then
    call.readTo length (cursor + headsPageLen)
  else max cursor (min (call.pageAt (.ofNat cursor)) length)
termination_by length - cursor
decreasing_by
  have hpage : headsPageLen = 500 := rfl
  omega

/-- The heads a fetch keeps: those served after a cursor that are in the member's window. -/
def FetchCall.kept (call : FetchCall D) (log : List (RefHead D)) (afterSeq : UInt64) :
    List (RefHead D) :=
  ((log.take (call.readTo log.length afterSeq.toNat)).drop afterSeq.toNat).filter fun head =>
    call.material.historyFrom ≤ head.mlsEpoch.toNat

theorem FetchCall.le_readTo {call : FetchCall D} : c ≤ call.readTo length c := by
  fun_induction FetchCall.readTo with
  | case1 cursor hfull ih => omega
  | case2 cursor hshort => exact le_max_left _ _

variable [Sha512 D] [DecidableEq D]

omit [Sha512 D] [DecidableEq D] in
/-- A full page that moves the cursor is followed by the next one. -/
theorem headsSinceLoop_of_full {page : UInt64 → Except ClientError (List (RefHead D))}
    {heads : List (RefHead D)} {last : RefHead D} (all : List (RefHead D))
    (hpage : page cursor = .ok heads) (hlast : heads.getLast? = some last)
    (hmoves : cursor < last.seq) (hfull : heads.length = headsPageLen) :
    headsSinceLoop page cursor all = headsSinceLoop page last.seq (all ++ heads) := by
  rw [headsSinceLoop, hpage]
  simp only [hlast, if_pos hmoves, hfull, lt_irrefl, if_false]

omit [Sha512 D] [DecidableEq D] in
/-- A short page is the last one. -/
theorem headsSinceLoop_of_short {page : UInt64 → Except ClientError (List (RefHead D))}
    {heads : List (RefHead D)} (all : List (RefHead D)) (hpage : page cursor = .ok heads)
    (hshort : heads.length < headsPageLen) :
    headsSinceLoop page cursor all = .ok (all ++ heads) := by
  rw [headsSinceLoop, hpage]
  cases hlast : heads.getLast? with
  | none => simp only [hlast]
  | some last => simp only [hlast, if_pos hshort, ite_self]

omit [DecidableEq D] in
/-- A page of a growing log. -/
theorem Chained.headsPage_eq (h : Chained log) (call : FetchCall D) (cursor : UInt64) :
    (servedBy log call.pageAt call.tipAt call.getBlob).headsPage cursor =
      .ok ((log.drop cursor.toNat).take
        (min headsPageLen (min (call.pageAt cursor) log.length - cursor.toNat))) := by
  change Except.ok (((log.take (call.pageAt cursor)).filter fun head => cursor < head.seq).take
    headsPageLen) = _
  have hseen : log.take (call.pageAt cursor) = log.take (min (call.pageAt cursor) log.length) :=
    List.take_eq_take_min
  rw [(h.take _).filter_eq_drop, hseen, List.drop_take, List.take_take]

omit [DecidableEq D] in
/-- The pages of a growing log, read one after the other. -/
theorem Chained.headsSinceLoop_eq_ok (h : Chained log) (call : FetchCall D)
    (hcursor : cursor.toNat = c) (hle : c ≤ log.length) (all : List (RefHead D)) :
    headsSinceLoop (servedBy log call.pageAt call.tipAt call.getBlob).headsPage cursor all =
      .ok (all ++ (log.take (call.readTo log.length c)).drop c) := by
  have hpageLen : headsPageLen = 500 := rfl
  induction c using FetchCall.readTo.induct call log.length generalizing cursor all with
  | case1 c hfull ih =>
    have hpage := h.headsPage_eq call cursor
    have hofNat : UInt64.ofNat c = cursor := by rw [← hcursor, UInt64.ofNat_toNat]
    rw [hofNat] at hfull
    rw [hcursor, Nat.min_eq_left (by omega)] at hpage
    have hlength : ((log.drop c).take headsPageLen).length = headsPageLen := by
      rw [List.length_take, List.length_drop]
      omega
    have hnonempty : (log.drop c).take headsPageLen ≠ [] := by
      intro hnil
      rw [hnil] at hlength
      cases hlength
    have hlast := List.getLast?_eq_some_getLast hnonempty
    -- a full page moves the cursor to its end
    have hseq := h.seq_of_isPrefix_drop hle (List.take_prefix _ _) hlast
    rw [hlength] at hseq
    have hmoves : cursor < (((log.drop c).take headsPageLen).getLast hnonempty).seq := by
      rw [UInt64.lt_iff_toNat_lt, hseq, hcursor]
      omega
    have hnext : call.readTo log.length c = call.readTo log.length (c + headsPageLen) := by
      rw [FetchCall.readTo.eq_def call log.length c, if_pos (by rwa [hofNat])]
    have hreach : c + headsPageLen ≤ call.readTo log.length (c + headsPageLen) :=
      FetchCall.le_readTo
    rw [headsSinceLoop_of_full all hpage hlast hmoves hlength, ih hseq (by omega) (all ++ _), hnext,
      List.append_assoc, List.drop_take, List.drop_take]
    have hsum : call.readTo log.length (c + headsPageLen) - c =
        headsPageLen + (call.readTo log.length (c + headsPageLen) - (c + headsPageLen)) := by
      omega
    rw [hsum, List.take_add, List.drop_drop]
  | case2 c hshort =>
    have hpage := h.headsPage_eq call cursor
    have hofNat : UInt64.ofNat c = cursor := by rw [← hcursor, UInt64.ofNat_toNat]
    rw [hofNat] at hshort
    rw [hcursor, Nat.min_eq_right (by omega)] at hpage
    rw [headsSinceLoop_of_short all hpage (by rw [List.length_take]; omega),
      FetchCall.readTo.eq_def call log.length c, if_neg (by rwa [hofNat]), hofNat, List.drop_take]
    congr 3
    omega

end Pages

/-! ### What honest members push -/

section Honest

variable {D : Type} [Sha512 D] [HashPrimitives] [MlDsa87] [RefsCodec] [HexCodec D]

/-- What a member pushes with a head. -/
structure PushContent where
  bundle : Bytes
  gitRefs : RefMap
  /-- The material of the member. -/
  author : EpochMaterial Bytes Bytes
  nonFf : Bool
  random : PushRandom
  epochKey : Bytes
  refs : EncryptedRefsMap

/-- A head was planned by an honest member on the head before it, the host has its chunks, and
its ciphertexts open to nothing else than what was sealed. -/
structure PushedWith (call : FetchCall D) (head : RefHead D) (content : PushContent) : Prop where
  planned : Planned call.repo content.bundle content.gitRefs content.author head.prevHeadHash
    head.seq content.nonFf content.random content.epochKey head content.refs
  /-- The chunks can be counted in 32 bits. -/
  fits : content.bundle.length < (2 ^ 32 - 1) * bundleChunkSize
  framed : content.refs.pushId.isEmpty = false
  stored : ∀ chunk : EncryptedChunk D, chunk ∈ bundleChunks call.repo content.refs.pushId
    content.bundle content.random.dek.toList content.random.nonce →
      call.getBlob chunk.blobMeta.id = .ok chunk.ciphertext
  authenticRefs : ∀ refs, openRefsMap call.material (call.draws head).refs head = .ok refs →
    refs = content.refs
  authenticDek : ∀ dek, unwrapDek call.material (call.draws head).dek head = .ok dek →
    dek = content.random.dek.toList

/-- A head that an honest member pushed. -/
def Pushed (call : FetchCall D) (head : RefHead D) : Prop :=
  ∃ content, PushedWith call head content

/-- The material and the roster of a reader cover a head. -/
structure Readable (call : FetchCall D) (head : RefHead D) : Prop where
  /-- The MAC key of the head's epoch, if it is held, verifies the tag. -/
  tagged : ∀ refsMac, call.material.refsMacAt head.mlsEpoch.toNat = some refsMac →
    verifyEpochTag head refsMac = true
  /-- Without that key the head's epoch is not beyond the material's. -/
  reached : call.material.refsMacAt head.mlsEpoch.toNat = none →
    head.mlsEpoch.toNat ≤ call.material.epoch
  /-- A key of the roster verifies the signature, when there is a roster. -/
  signed : rosterKeys call.group = [] ∨
    ∃ vk ∈ rosterKeys call.group, verifyPusherSig head vk = .ok ()
  /-- The material opens the refs and the bundle key. -/
  opens : (∃ refs, openRefsMap call.material (call.draws head).refs head = .ok refs) ∧
    ∃ dek, unwrapDek call.material (call.draws head).dek head = .ok dek

/-- A reader and the writer of a head agree on the keys of its epoch, and the writer's key is on
the reader's roster. -/
structure Covers (call : FetchCall D) (head : RefHead D) (content : PushContent) : Prop where
  mac : call.material.refsMacAt head.mlsEpoch.toNat = some content.author.refsMac
  key : ∀ draws, call.material.epochKeyAt draws head.mlsEpoch.toNat = .ok content.epochKey
  signed : ∃ vk ∈ rosterKeys call.group, verifyPusherSig head vk = .ok ()

variable {call : FetchCall D} {head : RefHead D} {content : PushContent}

omit [MlDsa87] [RefsCodec] [HexCodec D] in
theorem checkEpochTag_eq_ok_iff {material : EpochMaterial Bytes Bytes} :
    checkEpochTag material head = .ok () ↔
      (∀ refsMac, material.refsMacAt head.mlsEpoch.toNat = some refsMac →
        verifyEpochTag head refsMac = true) ∧
      (material.refsMacAt head.mlsEpoch.toNat = none → head.mlsEpoch.toNat ≤ material.epoch) := by
  rw [checkEpochTag]
  cases material.refsMacAt head.mlsEpoch.toNat with
  | none => simp
  | some refsMac => simp

/-- A reader that has the writer's keys reads the head. -/
theorem PushedWith.readable (h : PushedWith call head content)
    (hcovers : Covers call head content) : Readable call head where
  tagged refsMac hrefsMac := by
    rw [← Option.some.inj (hcovers.mac.symm.trans hrefsMac)]
    exact h.planned.epochTag
  reached hnone := by
    rw [hcovers.mac] at hnone
    cases hnone
  signed := .inr hcovers.signed
  opens := ⟨⟨_, h.planned.openRefsMap (hcovers.key _)⟩, _, h.planned.unwrapDek (hcovers.key _)⟩

omit [HexCodec D] in
/-- A head that is read passes the checks of a head. -/
theorem Readable.checked [DecidableEq D] (h : Readable call head) :
    checkEpochTag call.material head = .ok () ∧ checkPusher (rosterKeys call.group) head = .ok () :=
  ⟨checkEpochTag_eq_ok_iff.mpr ⟨h.tagged, h.reached⟩, checkPusher_eq_ok_iff.mpr h.signed⟩

variable [DecidableEq D] {log : List (RefHead D)}

omit [DecidableEq D] [MlDsa87] in
/-- The bundle of an honest head is fetched when its refs and its key open. -/
theorem exists_fetchHeadBundle_iff (h : Pushed call head) :
    (∃ fetched, fetchHeadBundle call.repo call.material
        (servedBy log call.pageAt call.tipAt call.getBlob) call.draws head = .ok fetched) ↔
      (∃ refs, openRefsMap call.material (call.draws head).refs head = .ok refs) ∧
        ∃ dek, unwrapDek call.material (call.draws head).dek head = .ok dek := by
  constructor
  · rintro ⟨fetched, hfetched⟩
    obtain ⟨refs, hrefs, hrest⟩ := bind_eq_ok_iff.mp hfetched
    split_ifs at hrest
    obtain ⟨dek, hdek, -⟩ := bind_eq_ok_iff.mp hrest
    exact ⟨⟨refs, hrefs⟩, dek, hdek⟩
  · rintro ⟨⟨refs, hrefs⟩, dek, hdek⟩
    obtain ⟨content, hpushed⟩ := h
    obtain rfl := hpushed.authenticRefs refs hrefs
    obtain rfl := hpushed.authenticDek dek hdek
    exact ⟨_, fetchHeadBundle_of_opens hpushed.planned hpushed.fits hpushed.framed hrefs hdek
      hpushed.stored⟩

/-! ### The checks of an honest run -/

variable {run kept : List (RefHead D)} {afterSeq : UInt64}

omit [HashPrimitives] [MlDsa87] [RefsCodec] [HexCodec D] in
/-- What stands together in a log passes the chain check. -/
theorem Chained.verifyFetchedChain_of_isInfix (h : Chained log) (hinside : kept <:+: log) :
    verifyFetchedChain kept none = .ok () := by
  cases kept with
  | nil => rfl
  | cons first rest =>
    obtain ⟨before, after, rfl⟩ := hinside
    have hfollows : Follows (before ++ first :: rest ++ after) first.hash rest :=
      ⟨before ++ [first], after, by simp, by simp [lastHash]⟩
    exact hfollows.verifyHeadChain_eq_ok h

omit [HashPrimitives] [MlDsa87] [RefsCodec] [HexCodec D] in
/-- What is kept of the log of honest members passes the chain check when it stands together. -/
theorem Chained.verifyFetchedChain_none_iff (h : Chained log)
    (hideal : IdealHashOn {head | head ∈ log}) (hsub : kept.Sublist log) :
    verifyFetchedChain kept none = .ok () ↔ kept <:+: log := by
  constructor
  · intro hverified
    have hchain : kept.IsChain fun prev next => next.seq.toNat = prev.seq.toNat + 1 := by
      refine (isChain_of_verifyFetchedChain hverified).imp_of_mem_imp ?_
      intro prev next hprev hnext hlink
      exact h.seq_of_prev hideal (fun _ hmem => hmem) (hsub.subset hprev) (hsub.subset hnext) hlink
    refine isInfix_of_numbered (fun i head hhead => (h.getElem?_eq_some_iff.mp hhead).2.trans
      (Nat.add_comm i 1)) (fun i first head hfirst hhead => ?_) fun _ hmem => hsub.subset hmem
    induction i generalizing head with
    | zero =>
      obtain rfl := Option.some.inj (hfirst.symm.trans hhead)
      rfl
    | succ i ih =>
      have hlt := (List.getElem?_eq_some_iff.mp hhead).1
      have hprev := List.getElem?_eq_getElem (Nat.lt_of_succ_lt hlt)
      have hstep := List.isChain_iff_getElem.mp hchain i hlt
      obtain rfl : kept[i + 1] = head := (List.getElem?_eq_some_iff.mp hhead).2
      rw [hstep, ih _ hprev, Nat.add_assoc]
  · exact h.verifyFetchedChain_of_isInfix

omit [Sha512 D] [HashPrimitives] [MlDsa87] [RefsCodec] [HexCodec D] [DecidableEq D] in
/-- The tip is no later than what is kept, or no later than the cursor. -/
theorem checkTruncation_eq_ok_iff {tip : Option (RefHead D)}
    (hkept : kept.Pairwise fun a b => a.seq < b.seq) (hafter : ∀ head ∈ kept, afterSeq < head.seq) :
    checkTruncation afterSeq kept.getLast? tip = .ok () ↔
      ∀ head ∈ tip, afterSeq < head.seq → ∃ last ∈ kept, head.seq ≤ last.seq := by
  cases tip with
  | none => exact iff_of_true rfl fun _ hnone => by cases hnone
  | some tip =>
    simp only [Option.mem_def, Option.some.injEq, forall_eq']
    cases hlast : kept.getLast? with
    | none =>
      rw [List.getLast?_eq_none_iff.mp hlast]
      simp [checkTruncation]
    | some last =>
      simp only [checkTruncation]
      constructor
      · intro h _
        split_ifs at h with hbehind
        exact ⟨last, List.mem_of_getLast? hlast, UInt64.not_lt.mp hbehind⟩
      · intro h
        rw [if_neg]
        intro hbehind
        obtain ⟨front, rfl⟩ := List.getLast?_eq_some_iff.mp hlast
        obtain ⟨other, hother, hle⟩ := h (UInt64.lt_trans (hafter last (by simp)) hbehind)
        -- the last one kept has the greatest number
        have hgreatest : other.seq ≤ last.seq := by
          rcases List.mem_append.mp hother with hfront | hend
          · exact UInt64.le_of_lt ((List.pairwise_append.mp hkept).2.2 other hfront last (by simp))
          · rw [List.mem_singleton.mp hend]
            exact UInt64.le_refl _
        exact absurd hbehind (UInt64.not_lt.mpr (UInt64.le_trans hle hgreatest))

/-- What a fetch from an honest host needs: the tip it reads is on the pages it has read before
and in the window, or not after the cursor; what it keeps of the pages stands together; and the
reader covers every head of it. -/
structure QuietFetch (call : FetchCall D) (log : List (RefHead D)) (afterSeq : UInt64) : Prop where
  tip : ∀ tip ∈ (log.take call.tipAt).getLast?, afterSeq < tip.seq →
    ∃ last ∈ call.kept log afterSeq, tip.seq ≤ last.seq
  together : call.kept log afterSeq <:+: log
  readable : ∀ head ∈ call.kept log afterSeq, Readable call head

omit [Sha512 D] [HashPrimitives] [MlDsa87] [RefsCodec] [HexCodec D] [DecidableEq D] in
theorem FetchCall.kept_sublist : (call.kept log afterSeq).Sublist log :=
  List.filter_sublist.trans ((List.drop_sublist _ _).trans (List.take_sublist _ _))

omit [HashPrimitives] [MlDsa87] [RefsCodec] [HexCodec D] [DecidableEq D] in
theorem Chained.lt_seq_of_mem_kept (h : Chained log) (hhead : head ∈ call.kept log afterSeq) :
    afterSeq < head.seq := by
  have hmem := (List.mem_filter.mp hhead).1
  rw [← (h.take _).filter_eq_drop] at hmem
  exact of_decide_eq_true (List.mem_filter.mp hmem).2

omit [HashPrimitives] [MlDsa87] [RefsCodec] [HexCodec D] [DecidableEq D] in
/-- The heads a fetch has left when it has read the pages. -/
theorem Chained.exists_headsSince (h : Chained log) (call : FetchCall D)
    (hcursor : afterSeq.toNat ≤ log.length) :
    ∃ served, headsSince (servedBy log call.pageAt call.tipAt call.getBlob) afterSeq =
        .ok served ∧
      readableHeads call.material served = call.kept log afterSeq ∧
      (call.kept log afterSeq).Sublist served ∧
      Follows log (lastHash (log.take afterSeq.toNat)) served := by
  have hserved := h.headsSinceLoop_eq_ok call rfl hcursor []
  refine ⟨_, hserved, readableHeads_of_pairwise (h.pairwise_of_isPrefix_drop
    (headsSince_servedBy h hcursor hserved)), List.filter_sublist, log.take afterSeq.toNat,
    log.drop (call.readTo log.length afterSeq.toNat), ?_, rfl⟩
  have hreach : afterSeq.toNat ≤ call.readTo log.length afterSeq.toNat := FetchCall.le_readTo
  rw [List.nil_append, ← Nat.min_eq_left hreach, ← List.take_take, Nat.min_eq_left hreach,
    List.take_append_drop, List.take_append_drop]

omit [HashPrimitives] [MlDsa87] [RefsCodec] [HexCodec D] in
/-- The chain check of what a fetch keeps. -/
theorem Chained.verifyFetchedChain_kept_iff (h : Chained log)
    (hideal : IdealHashOn {head | head ∈ log}) {anchor : HeadHash D}
    (hfollows : Follows log anchor run)
    (hread : readableHeads call.material run = call.kept log afterSeq)
    (hsub : (call.kept log afterSeq).Sublist run) :
    verifyFetchedChain (call.kept log afterSeq)
        (readableAnchor call.material run (some anchor)) = .ok () ↔
      call.kept log afterSeq <:+: log := by
  rw [readableAnchor, hread]
  split_ifs with hdropped
  · exact h.verifyFetchedChain_none_iff hideal FetchCall.kept_sublist
  · -- nothing was dropped, so the run starts at the anchor
    rw [hsub.eq_of_length (not_not.mp hdropped)]
    refine iff_of_true (hfollows.verifyHeadChain_eq_ok h) ?_
    obtain ⟨before, after, hsplit, -⟩ := hfollows
    exact ⟨before, after, hsplit.symm⟩

/-- A fetch that succeeds has not been disturbed. -/
theorem quietFetch_of_batch (hlog : Chained log) (hideal : IdealHashOn {head | head ∈ log})
    (hpushed : ∀ head ∈ log, Pushed call head) (hcursor : afterSeq.toNat ≤ log.length)
    {batch : List (FetchResult D)}
    (hbatch : call.batch log afterSeq (some (lastHash (log.take afterSeq.toNat))) = .ok batch) :
    QuietFetch call log afterSeq := by
  obtain ⟨served, hserved, hread, hsub, hfollows⟩ := hlog.exists_headsSince call hcursor
  obtain ⟨served', hserved', hbatch⟩ := bind_eq_ok_iff.mp hbatch
  obtain rfl := Except.ok.inj (hserved.symm.trans hserved')
  obtain ⟨_, hverified, hbatch⟩ := bind_eq_ok_iff.mp hbatch
  obtain ⟨tip, htip, hrest⟩ := bind_eq_ok_iff.mp hbatch
  obtain rfl := Except.ok.inj htip
  obtain ⟨_, htruncation, hfetched⟩ := bind_eq_ok_iff.mp hrest
  rw [hread] at hverified htruncation hfetched
  obtain ⟨hchain, hheads⟩ := verifyFetchedHeads_eq_ok_iff.mp hverified
  have hopened := exists_mapM_eq_ok_iff.mp ⟨batch, hfetched⟩
  refine ⟨(checkTruncation_eq_ok_iff (hlog.pairwise.sublist FetchCall.kept_sublist)
    fun _ => hlog.lt_seq_of_mem_kept).mp htruncation,
    (hlog.verifyFetchedChain_kept_iff hideal hfollows hread hsub).mp hchain, ?_⟩
  intro head hhead
  obtain ⟨htag, hsigned⟩ := hheads head hhead
  obtain ⟨htagged, hreached⟩ := checkEpochTag_eq_ok_iff.mp htag
  have hmem := FetchCall.kept_sublist.subset hhead
  exact ⟨htagged, hreached, checkPusher_eq_ok_iff.mp hsigned,
    (exists_fetchHeadBundle_iff (hpushed head hmem)).mp (hopened head hhead)⟩

/-- A fetch that is not disturbed succeeds. -/
theorem QuietFetch.exists_batch (h : QuietFetch call log afterSeq) (hlog : Chained log)
    (hideal : IdealHashOn {head | head ∈ log}) (hpushed : ∀ head ∈ log, Pushed call head)
    (hcursor : afterSeq.toNat ≤ log.length) :
    ∃ batch, call.batch log afterSeq (some (lastHash (log.take afterSeq.toNat))) = .ok batch := by
  obtain ⟨served, hserved, hread, hsub, hfollows⟩ := hlog.exists_headsSince call hcursor
  have hverified : verifyFetchedHeads (call.kept log afterSeq) call.material
      (readableAnchor call.material served (some (lastHash (log.take afterSeq.toNat))))
      (rosterKeys call.group) = .ok () := by
    refine verifyFetchedHeads_eq_ok_iff.mpr ⟨(hlog.verifyFetchedChain_kept_iff hideal hfollows
      hread hsub).mpr h.together, fun head hhead => ?_⟩
    exact (h.readable head hhead).checked
  have htruncation := (checkTruncation_eq_ok_iff (hlog.pairwise.sublist FetchCall.kept_sublist)
    fun _ => hlog.lt_seq_of_mem_kept).mpr h.tip
  have hopened : ∀ head ∈ call.kept log afterSeq, ∃ fetched, fetchHeadBundle call.repo
      call.material (servedBy log call.pageAt call.tipAt call.getBlob) call.draws head =
        .ok fetched := by
    intro head hhead
    have hmem := FetchCall.kept_sublist.subset hhead
    exact (exists_fetchHeadBundle_iff (hpushed head hmem)).mpr (h.readable head hhead).opens
  obtain ⟨batch, hbatch⟩ := exists_mapM_eq_ok_iff.mpr hopened
  refine ⟨batch, bind_eq_ok_iff.mpr ⟨served, hserved, ?_⟩⟩
  rw [hread]
  exact bind_eq_ok_iff.mpr ⟨(), hverified, bind_eq_ok_iff.mpr ⟨_, rfl,
    bind_eq_ok_iff.mpr ⟨(), htruncation, hbatch⟩⟩⟩

/-- A fetch of an honest log, with the true hash of the head at its cursor, succeeds exactly when
nothing disturbs it. -/
theorem fetched_iff (hlog : Chained log) (hideal : IdealHashOn {head | head ∈ log})
    (hpushed : ∀ head ∈ log, Pushed call head) (hcursor : afterSeq.toNat ≤ log.length) :
    (∃ batch, call.batch log afterSeq (some (lastHash (log.take afterSeq.toNat))) = .ok batch) ↔
      QuietFetch call log afterSeq :=
  ⟨fun ⟨_, hbatch⟩ => quietFetch_of_batch hlog hideal hpushed hcursor hbatch,
    fun h => h.exists_batch hlog hideal hpushed hcursor⟩

end Honest

/-! ### A log of two pushes -/

section Sample

attribute [local instance] transparentSha512 transparentHash transparentMlDsa87 framedRefsCodec
  plainHexCodec

/-- A fetch of the device that reads the log's pages and its tip at the given lengths. -/
def fetchAt (pages tip : ℕ) : FetchCall Bytes where
  repo := Vector.replicate 32 1
  material := deviceMaterial
  group := deviceKeys.group
  draws := noDraws
  pageAt _ := pages
  tipAt := tip
  getBlob id := .ok id
  imports _ := true

/-- The hash of a head is its bytes, which hold its number. -/
theorem seq_eq_of_hash_eq {head other : RefHead Bytes} (h : head.hash = other.hash) :
    head.seq = other.seq := by
  have hnumber : ∀ head : RefHead Bytes, (head.hash.drop 32).take 8 = u64BE head.seq := by
    intro head
    change ((encodeRefHead head).drop 32).take 8 = u64BE head.seq
    simp only [encodeRefHead, List.append_assoc]
    rw [List.drop_left' Vector.length_toList, List.take_left' (length_u64BE _)]
  exact u64BE_injective (by rw [← hnumber, ← hnumber, h])

/-- What the device pushes with some refs. -/
def deviceContent (gitRefs : RefMap) (refs : EncryptedRefsMap) : PushContent where
  bundle := [1]
  gitRefs := gitRefs
  author := deviceMaterial
  nonFf := false
  random := flatRandom 1
  epochKey := deviceEpochKey
  refs := refs

/-- What the device pushes on a short log is accepted, and the device has its own keys. -/
theorem exists_pushedWith {log : List (RefHead Bytes)} (hchained : Chained log)
    (hshort : log.length < 2) (gitRefs : RefMap)
    (hsmall : (gitRefs.toList.map fun entry =>
      1 + ((1 + 5 * entry.1.length) + (1 + 5 * entry.2.length))).sum +
      (1 + (1 + 5 * "ref: refs/heads/main".length)) < 2 ^ 30) :
    ∃ head refs, Chained (log ++ [head]) ∧ head.mlsEpoch = 0 ∧ ∀ pages tip,
      PushedWith (fetchAt pages tip) head (deviceContent gitRefs refs) ∧
        Covers (fetchAt pages tip) head (deviceContent gitRefs refs) := by
  have hgroup : deviceKeys.group =
      .ok ⟨⟨flatSeed 7, paddedKey (flatSeed 7)⟩, [paddedKey (flatSeed 7)]⟩ := rfl
  obtain ⟨plan, head, refs, hplan, hhead, hcosig, hsig⟩ := exists_buildPushPlan
    (Vector.replicate 32 1) [1] gitRefs (some "ref: refs/heads/main") (nextHead log.getLast?).1
    (nextHead log.getLast?).2 (deviceMaterial_epochKey (flatRandom 1).epoch) hgroup
    (length_flatSeed 7)
  obtain ⟨epochKey, hplanned⟩ := planned_of_buildPushPlan hplan
  obtain rfl := Except.ok.inj
    ((deviceMaterial_epochKey (flatRandom 1).epoch).symm.trans hplanned.key)
  have hlength : head.pusherSig.length = mldsa87SigLen := by
    rw [hsig]
    exact length_clearSig_flatSeed 7 _
  -- the host takes the head: its numbers follow the log and its bytes fit
  have haccepts : Accepts log head :=
    accepts_of_devicePlanned hchained hshort hplanned hhead (by simp [hcosig]) hlength hsmall
  -- the pushing device is its own reader, with the key and the tag key of the epoch
  have hkey : ∀ draws, deviceMaterial.epochKeyAt draws head.mlsEpoch.toNat =
      .ok deviceEpochKey := by
    intro draws
    rw [hplanned.mlsEpoch]
    exact deviceMaterial_epochKeyAt draws
  have hmac : deviceMaterial.refsMacAt head.mlsEpoch.toNat = some deviceMaterial.refsMac := by
    rw [hplanned.mlsEpoch]
    rfl
  refine ⟨head, refs, hchained.concat haccepts.1 haccepts.2.1 haccepts.2.2, hplanned.mlsEpoch,
    fun pages tip => ⟨⟨?_, (by decide : 1 < (2 ^ 32 - 1) * bundleChunkSize), ?_, ?_, ?_, ?_⟩,
      ⟨hmac, hkey, _, List.mem_cons_self, verifyPusherSig_flatSeed rfl hsig⟩⟩⟩
  · rw [hplanned.seq, hplanned.prevHeadHash]
    exact hplanned
  · change refs.pushId.isEmpty = false
    rw [hplanned.pushId]
    decide
  · intro chunk hchunk
    obtain ⟨i, -, rfl⟩ := List.mem_map.mp hchunk
    rfl
  · intro opened hopened
    exact Except.ok.inj (hopened.symm.trans (hplanned.openRefsMap (hkey _)))
  · intro dek hdek
    exact Except.ok.inj (hdek.symm.trans (hplanned.unwrapDek (hkey _)))

/-- The device pushes, and reads what it pushed. -/
theorem exists_pushed {log : List (RefHead Bytes)} (hchained : Chained log)
    (hshort : log.length < 2) :
    ∃ head, Chained (log ++ [head]) ∧ ∀ pages tip, Pushed (fetchAt pages tip) head ∧
      Readable (fetchAt pages tip) head := by
  obtain ⟨head, refs, hlog, -, hhead⟩ := exists_pushedWith hchained hshort ∅ (by decide +kernel)
  refine ⟨head, hlog, fun pages tip => ?_⟩
  obtain ⟨hpushed, hcovers⟩ := hhead pages tip
  exact ⟨⟨_, hpushed⟩, hpushed.readable hcovers⟩

theorem exists_pushedTwice :
    ∃ first second : RefHead Bytes, Chained [first, second] ∧
      IdealHashOn {head | head ∈ [first, second]} ∧
      ∀ pages tip, ∀ head ∈ [first, second], Pushed (fetchAt pages tip) head ∧
        Readable (fetchAt pages tip) head := by
  obtain ⟨first, hfirst, hreadFirst⟩ := exists_pushed .nil Nat.zero_lt_two
  obtain ⟨second, hsecond, hreadSecond⟩ := exists_pushed hfirst Nat.one_lt_two
  refine ⟨first, second, hsecond, ⟨?_, ?_⟩, ?_⟩
  · intro a ha b hb heq
    exact hsecond.eq_of_seq_eq ha hb (seq_eq_of_hash_eq heq)
  · intro head _ hzero
    have hlength := congrArg List.length (show encodeRefHead head = [] from hzero)
    simp [encodeRefHead] at hlength
  · intro pages tip head hhead
    rcases List.mem_cons.mp hhead with rfl | hhead
    · exact hreadFirst pages tip
    · rw [List.mem_singleton.mp hhead]
      exact hreadSecond pages tip

/-- What the device keeps of two heads is what the pages had when they were read. -/
theorem kept_fetchAt {first second : RefHead Bytes} {pages tip : ℕ} :
    (fetchAt pages tip).kept [first, second] 0 = [first, second].take pages := by
  have hread : (fetchAt pages tip).readTo 2 0 = min pages 2 := by
    have hshort : ¬ 0 + headsPageLen ≤ min pages 2 := by
      have hpageLen : headsPageLen = 500 := rfl
      omega
    rw [FetchCall.readTo]
    exact (if_neg hshort).trans (Nat.zero_max _)
  change (([first, second].take ((fetchAt pages tip).readTo 2 0)).drop 0).filter (fun head =>
    deviceMaterial.historyFrom ≤ head.mlsEpoch.toNat) = _
  have hall : ∀ head ∈ [first, second].take (min pages 2),
      decide (deviceMaterial.historyFrom ≤ head.mlsEpoch.toNat) = true :=
    fun _ _ => decide_eq_true (Nat.zero_le _)
  have htake : [first, second].take pages =
      [first, second].take (min pages [first, second].length) :=
    List.take_eq_take_min
  rw [hread, List.drop_zero, List.filter_eq_self.mpr hall]
  exact htake.symm

/-- The device reads both heads when they are there before the fetch. -/
theorem fetched_iff_pushedTwice : ∃ first second : RefHead Bytes,
    ((∃ batch, (fetchAt 2 2).batch [first, second] 0 (some (lastHash [])) = .ok batch) ↔
      QuietFetch (fetchAt 2 2) [first, second] 0) ∧
      QuietFetch (fetchAt 2 2) [first, second] 0 := by
  obtain ⟨first, second, hlog, hideal, hhonest⟩ := exists_pushedTwice
  refine ⟨first, second,
    fetched_iff hlog hideal (fun head hhead => (hhonest 2 2 head hhead).1) (Nat.zero_le _), ?_⟩
  have hkept : (fetchAt 2 2).kept [first, second] 0 = [first, second] := kept_fetchAt
  refine ⟨fun tip htip _ => ⟨tip, ?_, UInt64.le_refl _⟩, ?_, ?_⟩
  · rw [hkept]
    exact List.mem_of_getLast? htip
  · rw [hkept]
  · rw [hkept]
    exact fun head hhead => (hhonest 2 2 head hhead).2

/-- A head that lands after the pages were read and before the tip is makes the fetch fail. -/
theorem not_fetched_pushedTwice : ∃ first second : RefHead Bytes,
    Chained [first, second] ∧ IdealHashOn {head | head ∈ [first, second]} ∧
      (∀ head ∈ [first, second], Pushed (fetchAt 1 2) head ∧ Readable (fetchAt 1 2) head) ∧
      ∀ batch, (fetchAt 1 2).batch [first, second] 0 (some (lastHash [])) ≠ .ok batch := by
  obtain ⟨first, second, hlog, hideal, hhonest⟩ := exists_pushedTwice
  refine ⟨first, second, hlog, hideal, hhonest 1 2, fun batch hbatch => ?_⟩
  have hquiet : QuietFetch (fetchAt 1 2) [first, second] 0 :=
    quietFetch_of_batch hlog hideal (fun head hhead => (hhonest 1 2 head hhead).1)
      (Nat.zero_le _) hbatch
  have hfirst : first.seq.toNat = 1 := (hlog.getElem?_eq_some_iff.mp (show _[0]? = _ from rfl)).2
  have hsecond : second.seq.toNat = 2 := (hlog.getElem?_eq_some_iff.mp (show _[1]? = _ from rfl)).2
  -- the second head is the tip, and only the first one was served
  have hafter : 0 < second.seq := by
    rw [UInt64.lt_iff_toNat_lt, hsecond]
    decide
  obtain ⟨last, hlast, hle⟩ := hquiet.tip second rfl hafter
  rw [kept_fetchAt] at hlast
  obtain rfl := List.mem_singleton.mp hlast
  rw [UInt64.le_iff_toNat_le, hfirst, hsecond] at hle
  exact absurd hle (by decide)

end Sample

end SafeHub
