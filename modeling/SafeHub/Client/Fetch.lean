import SafeHub.Client.PushPlan

/-!
# Fetching heads

A reader asks the host for the heads after the last one it holds, page by page,
sorts them, keeps those of its history window, checks the sequence, the epoch tags and
the leaf signatures, compares with the advertised tip and opens every bundle. What
the host answers is arbitrary.

## Main definitions

* `HostReplies` — what a host answers
* `verifyFetchedHeads` — the checks of a run of heads
* `fetchHeadBundle`, `fetchBundlesSince` — the bundles of one head and of a run

## Main results

* `fetchBundlesSince_eq_ok` — what a successful fetch has checked and returned
-/

namespace SafeHub

/-- The payload of a head that carries refs only, as a deletion does. -/
def refOnlyBundle : Bytes := strBytes "safehub-ref-delete"

def isRefOnlyBundle (bundle : Bytes) : Bool := bundle == refOnlyBundle

/-- Result of opening one head. -/
structure FetchResult (D : Type) where
  head : RefHead D
  refs : EncryptedRefsMap
  /-- Decrypted Git bundle. -/
  bundle : Bytes

/-- What a host answers during one fetch. A page is asked for with a cursor, and no
cursor is asked for twice. -/
structure HostReplies (D : Type) where
  headsPage : UInt64 → Except ClientError (List (RefHead D))
  headTip : Except ClientError (Option (RefHead D))
  getBlob : BlobId D → Except ClientError Bytes

/-- Page size of the client's head requests. -/
def headsPageLen : ℕ := 500

section Fetch

variable {D : Type} [Sha512 D] [HashPrimitives] [MlDsa87] [RefsCodec] [HexCodec D] [DecidableEq D]

/-- Ask for pages until a short one arrives or the cursor stops moving. -/
def headsSinceLoop (page : UInt64 → Except ClientError (List (RefHead D))) (cursor : UInt64)
    (all : List (RefHead D)) : Except ClientError (List (RefHead D)) :=
  match page cursor with
  | .error e => .error e
  | .ok heads =>
    match heads.getLast? with
    | none => .ok (all ++ heads)
    | some last =>
      if cursor < last.seq then
        if heads.length < headsPageLen then .ok (all ++ heads)
        else headsSinceLoop page last.seq (all ++ heads)
      else .ok (all ++ heads)
termination_by 2 ^ 64 - cursor.toNat
decreasing_by
  have hlast := last.seq.toNat_lt
  have hcursor : cursor.toNat < last.seq.toNat := by assumption
  omega

/-- The heads a host serves after a sequence number. -/
def headsSince (host : HostReplies D) (afterSeq : UInt64) : Except ClientError (List (RefHead D)) :=
  headsSinceLoop host.headsPage afterSeq []

/-- Try the roster's keys in order and keep the last error. -/
def verifyPusherLoop (head : RefHead D) : List Bytes → Option ClientError → Except ClientError Unit
  | [], lastErr =>
    .error (lastErr.getD (.other s!"leaf ML-DSA signature rejected at seq {head.seq}"))
  | vk :: vks, _ =>
    match verifyPusherSig head vk with
    | .ok () => .ok ()
    | .error e => verifyPusherLoop head vks (some e)

/-- Check the epoch tag of a head when its key is retained. Without the key, only an
epoch beyond the member's own is refused. -/
def checkEpochTag (material : EpochMaterial Bytes Bytes) (head : RefHead D) :
    Except ClientError Unit :=
  match material.refsMacAt head.mlsEpoch.toNat with
  | some refsMac =>
    if verifyEpochTag head refsMac then .ok ()
    else
      .error (.other (s!"epoch tag mismatch at seq {head.seq} (epoch {head.mlsEpoch}): " ++
        "head not authenticated by this group"))
  | none =>
    if material.epoch < head.mlsEpoch.toNat then
      .error (.other (s!"head at seq {head.seq} claims epoch {head.mlsEpoch}, beyond this " ++
        s!"member's current epoch {material.epoch}"))
    else .ok ()

/-- Check the leaf signature of a head when there is a roster. -/
def checkPusher (leafVks : List Bytes) (head : RefHead D) : Except ClientError Unit :=
  if leafVks.isEmpty then .ok () else verifyPusherLoop head leafVks none

/-- The checks of one head. -/
def verifyFetchedHead (material : EpochMaterial Bytes Bytes) (leafVks : List Bytes)
    (head : RefHead D) : Except ClientError Unit := do
  checkEpochTag material head
  checkPusher leafVks head

/-- The chain check. Without an anchor the first head's descent is not checked. -/
def verifyFetchedChain (heads : List (RefHead D)) (anchor : Option (HeadHash D)) :
    Except ClientError Unit :=
  match anchor, heads with
  | some anchor, heads => verifyHeadChain heads anchor
  | none, first :: rest => verifyHeadChain rest first.hash
  | none, [] => .ok ()

/-- Check the host's sequencing before trusting any of the bundles it served. -/
def verifyFetchedHeads (heads : List (RefHead D)) (material : EpochMaterial Bytes Bytes)
    (anchor : Option (HeadHash D)) (leafVks : List Bytes) : Except ClientError Unit := do
  verifyFetchedChain heads anchor
  heads.forM (verifyFetchedHead material leafVks)

/-- Decrypt one head's bundle payload. -/
def fetchHeadBundle (repo : RepoId) (material : EpochMaterial Bytes Bytes) (host : HostReplies D)
    (draws : RefHead D → OpenDraws) (head : RefHead D) : Except ClientError (FetchResult D) := do
  let refs ← openRefsMap material (draws head).refs head
  if refs.pushId.isEmpty || refs.chunkIds.isEmpty then
    .error (.other "tip enc_refs missing push framing; re-push with a current client")
  else
    let dek ← unwrapDek material (draws head).dek head
    let count := refs.chunkIds.length % 2 ^ 32
    let chunks ← refs.chunkIds.zipIdx.mapM fun (idHex, i) => do
      let id ← (HexCodec.blobIdFromHex idHex : Except String D).mapError .other
      let ct ← host.getBlob id
      openChunk D repo refs.pushId (i % 2 ^ 32) count dek ct
    return ⟨head, refs, chunks.flatten⟩

/-- The heads a member may read, in order: sorted, and from its grant on. -/
def readableHeads (material : EpochMaterial Bytes Bytes) (heads : List (RefHead D)) :
    List (RefHead D) :=
  let sorted := heads.insertionSort fun a b => a.seq ≤ b.seq
  if 0 < material.historyFrom then
    sorted.filter fun head => material.historyFrom ≤ head.mlsEpoch.toNat
  else
    sorted

/-- The anchor, unless heads below the grant were dropped. -/
def readableAnchor (material : EpochMaterial Bytes Bytes) (heads : List (RefHead D))
    (anchor : Option (HeadHash D)) : Option (HeadHash D) :=
  if (readableHeads material heads).length ≠ heads.length then none else anchor

/-- Compare the last head served with the tip the host advertises. -/
def checkTruncation (afterSeq : UInt64) (last tip : Option (RefHead D)) : Except ClientError Unit :=
  match tip, last with
  | none, _ => .ok ()
  | some tip, some last =>
    if last.seq < tip.seq then
      .error (.other (s!"host served heads up to seq {last.seq} but advertises tip seq " ++
        s!"{tip.seq}: the head log is truncated or withheld"))
    else .ok ()
  | some tip, none =>
    if afterSeq < tip.seq then
      .error (.other (s!"host served no heads after seq {afterSeq} but advertises tip seq " ++
        s!"{tip.seq}"))
    else .ok ()

/-- The leaf keys of the durable group, none when there is no group. -/
def rosterKeys (group : Except ClientError LocalGroup) : List Bytes :=
  match group with
  | .ok group => group.memberSignatureKeys
  | .error _ => []

/-- Download and decrypt every bundle after a sequence number, oldest first. -/
def fetchBundlesSince (repo : RepoId) (material : EpochMaterial Bytes Bytes)
    (group : Except ClientError LocalGroup) (host : HostReplies D) (draws : RefHead D → OpenDraws)
    (afterSeq : UInt64) (anchor : Option (HeadHash D)) :
    Except ClientError (List (FetchResult D)) := do
  let served ← headsSince host afterSeq
  let heads := readableHeads material served
  verifyFetchedHeads heads material (readableAnchor material served anchor) (rosterKeys group)
  let tip ← host.headTip
  checkTruncation afterSeq heads.getLast? tip
  heads.mapM (fetchHeadBundle repo material host draws)

end Fetch

/-! ### What a fetch checks -/

section Checks

variable {D : Type} [Sha512 D] [HashPrimitives] [MlDsa87] [DecidableEq D]
variable {material : EpochMaterial Bytes Bytes} {head : RefHead D} {heads : List (RefHead D)}
variable {leafVks : List Bytes} {anchor : Option (HeadHash D)}

omit [HashPrimitives] [DecidableEq D] in
/-- Some key of the roster verifies the head's signature. -/
theorem verifyPusherLoop_eq_ok_iff {lastErr : Option ClientError} :
    verifyPusherLoop head leafVks lastErr = .ok () ↔
      ∃ vk ∈ leafVks, verifyPusherSig head vk = .ok () := by
  induction leafVks generalizing lastErr with
  | nil => exact iff_of_false (fun h => nomatch h) fun ⟨_, hmem, _⟩ => nomatch hmem
  | cons vk vks ih =>
    rw [verifyPusherLoop]
    cases hverify : verifyPusherSig head vk with
    | ok => exact iff_of_true rfl ⟨vk, List.mem_cons_self, hverify⟩
    | error e =>
      simp only [ih, List.mem_cons, exists_eq_or_imp, hverify, reduceCtorEq, false_or]

omit [HashPrimitives] [DecidableEq D] in
/-- A verified head carries a signature that is valid under the key. -/
theorem verifyPusherSig_eq_ok {vk : Bytes} (h : verifyPusherSig head vk = .ok ()) :
    mldsaVerify vk (leafSignMessage head) head.pusherSig = .ok () := by
  rw [verifyPusherSig] at h
  split_ifs at h
  cases hverify : mldsaVerify vk (leafSignMessage head) head.pusherSig with
  | ok => rfl
  | error e =>
    rw [hverify] at h
    cases h

omit [HashPrimitives] [DecidableEq D] in
theorem checkPusher_eq_ok_iff :
    checkPusher leafVks head = .ok () ↔
      leafVks = [] ∨ ∃ vk ∈ leafVks, verifyPusherSig head vk = .ok () := by
  rw [checkPusher]
  split_ifs with hempty
  · exact iff_of_true rfl (.inl (List.isEmpty_iff.mp hempty))
  · rw [verifyPusherLoop_eq_ok_iff, or_iff_right fun h => hempty (List.isEmpty_iff.mpr h)]

/-- Which runs of heads pass. -/
theorem verifyFetchedHeads_eq_ok_iff :
    verifyFetchedHeads heads material anchor leafVks = .ok () ↔
      verifyFetchedChain heads anchor = .ok () ∧
        ∀ head ∈ heads, checkEpochTag material head = .ok () ∧
          checkPusher leafVks head = .ok () := by
  have hone : ∀ head : RefHead D, verifyFetchedHead material leafVks head = .ok () ↔
      checkEpochTag material head = .ok () ∧ checkPusher leafVks head = .ok () := by
    intro head
    rw [verifyFetchedHead, bind_eq_ok_iff]
    exact ⟨fun ⟨_, htag, hpusher⟩ => ⟨htag, hpusher⟩, fun ⟨htag, hpusher⟩ => ⟨(), htag, hpusher⟩⟩
  rw [verifyFetchedHeads, bind_eq_ok_iff]
  simp only [forM_eq_ok_iff, hone]
  exact ⟨fun ⟨_, hchain, hheads⟩ => ⟨hchain, hheads⟩, fun ⟨hchain, hheads⟩ => ⟨(), hchain, hheads⟩⟩

omit [HashPrimitives] [MlDsa87] in
/-- Consecutive heads that pass are linked by their hashes. -/
theorem isChain_of_verifyFetchedChain (h : verifyFetchedChain heads anchor = .ok ()) :
    heads.IsChain fun prev head => head.prevHeadHash = prev.hash := by
  cases heads with
  | nil => exact List.IsChain.nil
  | cons first rest =>
    cases anchor with
    | none => exact isChain_of_verifyHeadChainLoop h
    | some anchor =>
      change verifyHeadChainLoop (first :: rest) anchor none = .ok () at h
      unfold verifyHeadChainLoop at h
      split_ifs at h
      exact isChain_of_verifyHeadChainLoop h

variable [RefsCodec] [HexCodec D]

/-- What a successful fetch has checked and returned: the readable heads, in order, each
with the refs it opens to. -/
theorem fetchBundlesSince_eq_ok {repo : RepoId} {group : Except ClientError LocalGroup}
    {host : HostReplies D} {draws : RefHead D → OpenDraws} {afterSeq : UInt64}
    {results : List (FetchResult D)}
    (h : fetchBundlesSince repo material group host draws afterSeq anchor = .ok results) :
    ∃ served, headsSince host afterSeq = .ok served ∧
      results.map FetchResult.head = readableHeads material served ∧
      verifyFetchedHeads (readableHeads material served) material
        (readableAnchor material served anchor) (rosterKeys group) = .ok () ∧
      ∀ r ∈ results, openRefsMap material (draws r.head).refs r.head = .ok r.refs := by
  obtain ⟨served, hserved, h⟩ := bind_eq_ok_iff.mp h
  obtain ⟨_, hverified, h⟩ := bind_eq_ok_iff.mp h
  obtain ⟨tip, -, h⟩ := bind_eq_ok_iff.mp h
  obtain ⟨_, -, h⟩ := bind_eq_ok_iff.mp h
  -- what one head of the loop gives
  have hone : ∀ (head : RefHead D) (r : FetchResult D),
      fetchHeadBundle repo material host draws head = .ok r →
        r.head = head ∧ openRefsMap material (draws head).refs head = .ok r.refs := by
    intro head r hr
    obtain ⟨refs, hrefs, hr⟩ := bind_eq_ok_iff.mp hr
    split_ifs at hr
    obtain ⟨dek, -, hr⟩ := bind_eq_ok_iff.mp hr
    obtain ⟨chunks, -, hr⟩ := bind_eq_ok_iff.mp hr
    obtain rfl := Except.ok.inj hr
    exact ⟨rfl, hrefs⟩
  refine ⟨served, hserved, ?_, hverified, ?_⟩
  · have hheads := (mapM_eq_ok_iff.mp h).imp fun head r hr => (hone head r hr).1.symm
    rw [← List.forall₂_eq_eq_eq]
    exact List.forall₂_map_left_iff.mpr (hheads.flip.imp fun _ _ heq => heq.symm)
  · intro r hr
    obtain ⟨head, -, hhead⟩ := exists_of_forall₂_mem_right (mapM_eq_ok_iff.mp h) hr
    obtain ⟨rfl, hrefs⟩ := hone head r hhead
    exact hrefs

end Checks

/-! ### Fetching what was pushed -/

section RoundTrip

variable {D : Type} [Sha512 D] [HashPrimitives] [MlDsa87] [RefsCodec] [HexCodec D]

omit [MlDsa87]

omit [HashPrimitives] [RefsCodec] in
theorem flatMap_chunkSlice (bundle : Bytes) (n : ℕ) :
    (List.range n).flatMap (chunkSlice bundle) = bundle.take (n * bundleChunkSize) := by
  induction n with
  | zero => simp
  | succ n ih =>
    rw [List.range_succ, List.flatMap_append, ih, Nat.succ_mul, List.take_add,
      List.flatMap_singleton, chunkSlice]

omit [HashPrimitives] [RefsCodec] in
/-- A bundle that fits the count of its chunks is covered by them. -/
theorem chunkCount_covers {length : ℕ} (h : length < (2 ^ 32 - 1) * bundleChunkSize) :
    0 < chunkCount length ∧ chunkCount length < 2 ^ 32 ∧
      length ≤ chunkCount length * bundleChunkSize := by
  unfold chunkCount
  unfold bundleChunkSize at h ⊢
  split_ifs <;> omega

variable {repo : RepoId} {bundle : Bytes} {gitRefs : RefMap}
variable {material reader : EpochMaterial Bytes Bytes} {prev : HeadHash D} {nextSeq : UInt64}
variable {nonFf : Bool} {random : PushRandom} {head : RefHead D} {refs : EncryptedRefsMap}
variable {epochKey : Bytes} {host : HostReplies D} {draws : RefHead D → OpenDraws}

/-- A reader that opens the refs and the key of a planned head fetches the bundle that was
pushed with it, when the host returns its chunks. -/
theorem fetchHeadBundle_of_opens
    (h : Planned repo bundle gitRefs material prev nextSeq nonFf random epochKey head refs)
    (hlength : bundle.length < (2 ^ 32 - 1) * bundleChunkSize)
    (hframed : refs.pushId.isEmpty = false)
    (hrefs : openRefsMap reader (draws head).refs head = .ok refs)
    (hdek : unwrapDek reader (draws head).dek head = .ok random.dek.toList)
    (hblobs : ∀ chunk : EncryptedChunk D,
      chunk ∈ bundleChunks repo refs.pushId bundle random.dek.toList random.nonce →
        host.getBlob chunk.blobMeta.id = .ok chunk.ciphertext) :
    fetchHeadBundle repo reader host draws head = .ok ⟨head, refs, bundle⟩ := by
  obtain ⟨hpos, hsmall, hcovers⟩ := chunkCount_covers hlength
  set n := chunkCount bundle.length with hn
  have hids : refs.chunkIds.length = n := by
    rw [h.chunkIds, List.length_map, bundleChunks, List.length_map, List.length_range]
  have hsome : refs.chunkIds.isEmpty = false := by
    rw [List.isEmpty_eq_false_iff, ne_eq, ← List.length_eq_zero_iff, hids]
    exact hpos.ne'
  refine bind_eq_ok_iff.mpr ⟨refs, hrefs, ?_⟩
  rw [hframed, hsome, Bool.or_false, if_neg Bool.false_ne_true]
  refine bind_eq_ok_iff.mpr ⟨_, hdek,
    bind_eq_ok_iff.mpr ⟨(List.range n).map (chunkSlice bundle), ?_, ?_⟩⟩
  · -- chunk by chunk: its id parses, the host has it, and it opens at its place
    rw [mapM_eq_ok_iff, List.forall₂_iff_get]
    refine ⟨by simp [hids], fun i hi hi' => ?_⟩
    have hin : i < n := by simpa using hi'
    set ct := CommittingAead.sealWithNonce random.dek.toList (chunkAad D repo refs.pushId i n)
      (chunkSlice bundle i) (random.nonce i).toList with hct
    have hmem : (⟨⟨Sha512.digest ct, ct.length, i, n, refs.pushId⟩, ct⟩ : EncryptedChunk D) ∈
        bundleChunks repo refs.pushId bundle random.dek.toList random.nonce :=
      List.mem_map.mpr ⟨i, List.mem_range.mpr hin, rfl⟩
    have hlt : i < refs.chunkIds.length := by rwa [hids]
    -- the id on the chunk list is the hash of this ciphertext
    have hid : refs.chunkIds[i] =
        HexCodec.encode D (Sha512.toBytes (Sha512.digest ct : D)) := by
      simp [h.chunkIds, bundleChunks, hct, hn]
    have hopen : CommittingAead.openSealed random.dek.toList (chunkAad D repo refs.pushId i n) ct =
        .ok (chunkSlice bundle i) :=
      CommittingAead.openSealed_sealWithNonce _ _ _ Vector.length_toList
    simp only [List.get_eq_getElem, List.getElem_zipIdx, List.getElem_map, List.getElem_range,
      Nat.zero_add]
    refine bind_eq_ok_iff.mpr ⟨Sha512.digest ct, ?_, bind_eq_ok_iff.mpr
      ⟨ct, hblobs _ hmem, ?_⟩⟩
    · rw [hid, HexCodec.blobIdFromHex_encode]
      rfl
    · rw [hids, Nat.mod_eq_of_lt (hin.trans hsmall), Nat.mod_eq_of_lt hsmall, openChunk, hopen]
      rfl
  · rw [← List.flatMap_def, flatMap_chunkSlice, List.take_of_length_le hcovers]
    rfl

/-- A reader that derives the epoch key of a planned head fetches the bundle that was
pushed with it, when the host returns its chunks. -/
theorem Planned.fetchHeadBundle
    (h : Planned repo bundle gitRefs material prev nextSeq nonFf random epochKey head refs)
    (hlength : bundle.length < (2 ^ 32 - 1) * bundleChunkSize)
    (hframed : refs.pushId.isEmpty = false)
    (hrefsKey : reader.epochKeyAt (draws head).refs head.mlsEpoch.toNat = .ok epochKey)
    (hdekKey : reader.epochKeyAt (draws head).dek head.mlsEpoch.toNat = .ok epochKey)
    (hblobs : ∀ chunk : EncryptedChunk D,
      chunk ∈ bundleChunks repo refs.pushId bundle random.dek.toList random.nonce →
        host.getBlob chunk.blobMeta.id = .ok chunk.ciphertext) :
    fetchHeadBundle repo reader host draws head = .ok ⟨head, refs, bundle⟩ :=
  fetchHeadBundle_of_opens h hlength hframed (h.openRefsMap hrefsKey) (h.unwrapDek hdekKey)
    hblobs

end RoundTrip

end SafeHub
