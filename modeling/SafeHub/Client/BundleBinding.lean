import SafeHub.Client.Fetch

/-!
# What binds a bundle to its head

A pushed head carries the digest of the ids of its chunks, and an id is the digest of a
ciphertext. A reader opens the ciphertexts it is served under the head's data-encryption
key; it computes neither digest.

## Main definitions

* `fetchHeadBundleAsked` — a fetch whose requests may be answered each in its own way
* `ContentBound` — a fetch that succeeds returns what the digests stand for
* `Opens` — a head that the reader can open

## Main results

* `contentBound_iff` — no head that opens is bound to its content
* `bundle_eq_of_contentAddressed` — the ids would bind it
-/

namespace SafeHub

section Binding

variable {D : Type} [Sha512 D] [HashPrimitives] [MlDsa87] [RefsCodec] [HexCodec D]

omit [MlDsa87]

/-- Decrypt one head's bundle payload; the host answers the request for each chunk. -/
def fetchHeadBundleAsked (repo : RepoId) (material : EpochMaterial Bytes Bytes)
    (getBlob : ℕ → BlobId D → Except ClientError Bytes) (draws : RefHead D → OpenDraws)
    (head : RefHead D) : Except ClientError (FetchResult D) := do
  let refs ← openRefsMap material (draws head).refs head
  if refs.pushId.isEmpty || refs.chunkIds.isEmpty then
    .error (.other "tip enc_refs missing push framing; re-push with a current client")
  else
    let dek ← unwrapDek material (draws head).dek head
    let count := refs.chunkIds.length % 2 ^ 32
    let chunks ← refs.chunkIds.zipIdx.mapM fun (idHex, i) => do
      let id ← (HexCodec.blobIdFromHex idHex : Except String D).mapError .other
      let ct ← getBlob i id
      openChunk D repo refs.pushId (i % 2 ^ 32) count dek ct
    return ⟨head, refs, chunks.flatten⟩

variable {repo : RepoId} {material : EpochMaterial Bytes Bytes} {draws : RefHead D → OpenDraws}
variable {head : RefHead D} {getBlob getBlob' : ℕ → BlobId D → Except ClientError Bytes}
variable {result result' : FetchResult D}

/-- A host that answers by id alone. -/
theorem fetchHeadBundle_eq_asked (host : HostReplies D) :
    fetchHeadBundle repo material host draws head =
      fetchHeadBundleAsked repo material (fun _ => host.getBlob) draws head :=
  rfl

/-- Digest over content ids, as the writer of a head computes it. -/
def rootOfIds (ids : List (BlobId D)) : BlobId D := Sha512.digest (ids.flatMap Sha512.toBytes)

omit [HashPrimitives] [RefsCodec] [HexCodec D] in
theorem bundleRoot_eq_rootOfIds (chunks : List (EncryptedChunk D)) :
    bundleRoot chunks = rootOfIds (chunks.map fun chunk => chunk.blobMeta.id) := by
  rw [bundleRoot, rootOfIds, List.flatMap_map]

/-- The chunk ids of a head's refs, read from their texts. -/
def ReadsIds (refs : EncryptedRefsMap) (ids : List (BlobId D)) : Prop :=
  List.Forall₂ (fun idHex id => HexCodec.blobIdFromHex idHex = .ok id) refs.chunkIds ids

/-- The head's root is that of its chunk ids, and the blobs served hash to their ids. -/
structure BundleBound (head : RefHead D) (refs : EncryptedRefsMap)
    (getBlob : ℕ → BlobId D → Except ClientError Bytes) : Prop where
  root : ∃ ids, ReadsIds refs ids ∧ head.bundleRoot = rootOfIds ids
  blobs : ∀ ids, ReadsIds refs ids → ∀ i id ct, ids[i]? = some id → getBlob i id = .ok ct →
    Sha512.digest ct = id

/-- Whatever blobs a host serves, a fetch of the head that succeeds used blobs bound to
the head, and any two that succeed return one plaintext. -/
def ContentBound (repo : RepoId) (material : EpochMaterial Bytes Bytes)
    (draws : RefHead D → OpenDraws) (head : RefHead D) : Prop :=
  (∀ getBlob result, fetchHeadBundleAsked repo material getBlob draws head = .ok result →
      BundleBound head result.refs getBlob) ∧
    ∀ getBlob getBlob' result result',
      fetchHeadBundleAsked repo material getBlob draws head = .ok result →
      fetchHeadBundleAsked repo material getBlob' draws head = .ok result' →
      result.bundle = result'.bundle

/-- The reader can open the head: its refs map opens and has push framing, its
data-encryption key unwraps, and every chunk id is one. -/
def Opens (material : EpochMaterial Bytes Bytes) (draws : RefHead D → OpenDraws)
    (head : RefHead D) : Prop :=
  ∃ refs dek, openRefsMap material (draws head).refs head = .ok refs ∧
    refs.pushId.isEmpty = false ∧ refs.chunkIds.isEmpty = false ∧
    unwrapDek material (draws head).dek head = .ok dek ∧
    ∀ idHex ∈ refs.chunkIds, ∃ id : D, HexCodec.blobIdFromHex idHex = .ok id

/-- What a successful fetch of a head has done. -/
theorem fetchHeadBundleAsked_eq_ok
    (h : fetchHeadBundleAsked repo material getBlob draws head = .ok result) :
    ∃ refs dek chunks, openRefsMap material (draws head).refs head = .ok refs ∧
      refs.pushId.isEmpty = false ∧ refs.chunkIds.isEmpty = false ∧
      unwrapDek material (draws head).dek head = .ok dek ∧
      result = ⟨head, refs, chunks.flatten⟩ ∧
      List.Forall₂ (fun (entry : String × ℕ) chunk => ∃ id ct,
        HexCodec.blobIdFromHex entry.1 = .ok id ∧ getBlob entry.2 id = .ok ct ∧
          openChunk D repo refs.pushId (entry.2 % 2 ^ 32) (refs.chunkIds.length % 2 ^ 32) dek ct =
            .ok chunk) refs.chunkIds.zipIdx chunks := by
  obtain ⟨refs, hrefs, h⟩ := bind_eq_ok_iff.mp h
  split_ifs at h with hframed
  rw [Bool.or_eq_true, not_or, Bool.not_eq_true, Bool.not_eq_true] at hframed
  obtain ⟨dek, hdek, h⟩ := bind_eq_ok_iff.mp h
  obtain ⟨chunks, hchunks, h⟩ := bind_eq_ok_iff.mp h
  refine ⟨refs, dek, chunks, hrefs, hframed.1, hframed.2, hdek, (Except.ok.inj h).symm, ?_⟩
  refine (mapM_eq_ok_iff.mp hchunks).imp fun entry chunk hchunk => ?_
  obtain ⟨id, hid, hchunk⟩ := bind_eq_ok_iff.mp hchunk
  obtain ⟨ct, hct, hchunk⟩ := bind_eq_ok_iff.mp hchunk
  exact ⟨id, ct, mapError_eq_ok_iff.mp hid, hct, hchunk⟩

theorem Opens.of_fetch (h : fetchHeadBundleAsked repo material getBlob draws head = .ok result) :
    Opens material draws head := by
  obtain ⟨refs, dek, chunks, hrefs, hpush, hids, hdek, -, hchunks⟩ := fetchHeadBundleAsked_eq_ok h
  refine ⟨refs, dek, hrefs, hpush, hids, hdek, fun idHex hmem => ?_⟩
  obtain ⟨i, hi⟩ := List.mem_iff_getElem?.mp hmem
  have hentry : (idHex, i) ∈ refs.chunkIds.zipIdx := by
    rwa [List.mk_mem_zipIdx_iff_getElem?]
  obtain ⟨chunk, -, id, ct, hid, -⟩ := exists_of_forall₂_mem_right hchunks.flip hentry
  exact ⟨id, hid⟩

/-- For any content of the chunks there are blobs that a reader of the head accepts. -/
theorem Opens.exists_fetch (h : Opens material draws head) (repo : RepoId) (chunk : Bytes) :
    ∃ getBlob refs, refs.chunkIds ≠ [] ∧
      fetchHeadBundleAsked repo material getBlob draws head =
        .ok ⟨head, refs, (List.replicate refs.chunkIds.length chunk).flatten⟩ := by
  obtain ⟨refs, dek, hrefs, hpush, hids, hdek, hparse⟩ := h
  -- whoever knows the key seals another chunk for every place
  refine ⟨fun i _ => .ok (CommittingAead.sealWithNonce dek
    (chunkAad D repo refs.pushId (i % 2 ^ 32) (refs.chunkIds.length % 2 ^ 32)) chunk
    (List.replicate 12 0)), refs, by simpa using hids, ?_⟩
  refine bind_eq_ok_iff.mpr ⟨refs, hrefs, ?_⟩
  rw [hpush, hids, Bool.or_false, if_neg Bool.false_ne_true]
  refine bind_eq_ok_iff.mpr ⟨dek, hdek, bind_eq_ok_iff.mpr
    ⟨List.replicate refs.chunkIds.length chunk, mapM_eq_ok_iff.mpr ?_, rfl⟩⟩
  rw [List.forall₂_iff_get]
  refine ⟨by simp, fun i hi hi' => ?_⟩
  have hlt : i < refs.chunkIds.length := by simpa using hi'
  obtain ⟨id, hid⟩ := hparse refs.chunkIds[i] (List.getElem_mem hlt)
  simp only [List.get_eq_getElem, List.getElem_zipIdx, List.getElem_replicate, Nat.zero_add]
  refine bind_eq_ok_iff.mpr ⟨id, mapError_eq_ok_iff.mpr hid, bind_eq_ok_iff.mpr ⟨_, rfl, ?_⟩⟩
  rw [openChunk, orAead_eq_ok_iff]
  exact CommittingAead.openSealed_sealWithNonce _ _ _ (by simp)

/-- Of a head that opens, two fetches succeed with different plaintexts. -/
theorem Opens.not_contentBound (h : Opens material draws head) (repo : RepoId) :
    ¬ ContentBound repo material draws head := by
  intro hbound
  obtain ⟨getBlob, refs, hids, hfetch⟩ := h.exists_fetch repo []
  obtain ⟨getBlob', refs', hids', hfetch'⟩ := h.exists_fetch repo [0]
  have hsame := congrArg List.length (hbound.2 _ _ _ _ hfetch hfetch')
  simp at hsame
  exact hids' (List.length_eq_zero_iff.mp hsame.symm)

/-- A head is bound to its content only where it does not open at all. -/
theorem contentBound_iff :
    ContentBound repo material draws head ↔ ¬ Opens material draws head := by
  constructor
  · intro hbound hopens
    exact hopens.not_contentBound repo hbound
  · intro hshut
    refine ⟨fun getBlob result hfetch => ?_, fun getBlob _ result _ hfetch _ => ?_⟩
    · exact absurd (Opens.of_fetch hfetch) hshut
    · exact absurd (Opens.of_fetch hfetch) hshut

/-- Blobs that hash to the ids they are asked for by determine the plaintext. -/
theorem bundle_eq_of_contentAddressed (hdigest : Function.Injective (Sha512.digest : Bytes → D))
    (hblobs : ∀ i id ct, getBlob i id = .ok ct → Sha512.digest ct = id)
    (hblobs' : ∀ i id ct, getBlob' i id = .ok ct → Sha512.digest ct = id)
    (h : fetchHeadBundleAsked repo material getBlob draws head = .ok result)
    (h' : fetchHeadBundleAsked repo material getBlob' draws head = .ok result') :
    result = result' := by
  obtain ⟨refs, dek, chunks, hrefs, -, -, hdek, rfl, hchunks⟩ := fetchHeadBundleAsked_eq_ok h
  obtain ⟨refs', dek', chunks', hrefs', -, -, hdek', rfl, hchunks'⟩ :=
    fetchHeadBundleAsked_eq_ok h'
  obtain rfl := Except.ok.inj (hrefs.symm.trans hrefs')
  obtain rfl := Except.ok.inj (hdek.symm.trans hdek')
  -- chunk by chunk the ids, the blobs and what they open to are the same
  have hsame : chunks = chunks' := by
    rw [← List.forall₂_eq_eq_eq]
    refine List.forall₂_iff_get.mpr ⟨hchunks.length_eq.symm.trans hchunks'.length_eq, ?_⟩
    intro i hi hi'
    have hlt : i < refs.chunkIds.zipIdx.length := hchunks.length_eq ▸ hi
    obtain ⟨id, ct, hid, hct, hopen⟩ := hchunks.get hlt hi
    obtain ⟨id', ct', hid', hct', hopen'⟩ := hchunks'.get hlt hi'
    obtain rfl := Except.ok.inj (hid.symm.trans hid')
    have hblob : ct = ct' := hdigest ((hblobs _ _ _ hct).trans (hblobs' _ _ _ hct').symm)
    rw [← hblob] at hopen'
    exact Except.ok.inj (hopen.symm.trans hopen')
  rw [hsame]

end Binding

section Sample

attribute [local instance] transparentSha512 transparentHash transparentMlDsa87 framedRefsCodec
  plainHexCodec

/-- A head as the device pushes it opens. -/
theorem Planned.opens {repo : RepoId} {gitRefs : RefMap} {prev : HeadHash Bytes}
    {seq : UInt64} {epochKey bundle : Bytes} {head : RefHead Bytes} {refs : EncryptedRefsMap}
    (h : Planned repo bundle gitRefs deviceMaterial prev seq false (flatRandom 1) epochKey head
      refs) (draws : RefHead Bytes → OpenDraws) (hbundle : bundle.length < bundleChunkSize) :
    Opens deviceMaterial draws head := by
  have hepoch : head.mlsEpoch.toNat = 0 := by
    rw [h.mlsEpoch]
    rfl
  have hkey : ∀ draws : Draws Bytes, deviceMaterial.epochKeyAt draws head.mlsEpoch.toNat =
      .ok epochKey := by
    intro draws
    rw [hepoch, deviceMaterial_epochKeyAt, ← deviceMaterial_epochKeyAt (flatRandom 1).epoch]
    exact h.key
  have hcount : 0 < chunkCount bundle.length := by
    exact (chunkCount_covers (by unfold bundleChunkSize at hbundle ⊢; omega)).1
  refine ⟨refs, _, h.openRefsMap (hkey _), ?_, ?_, h.unwrapDek (hkey _), ?_⟩
  · rw [h.pushId]
    decide
  · rw [h.chunkIds, List.isEmpty_eq_false_iff, ne_eq, ← List.length_eq_zero_iff, List.length_map,
      bundleChunks, List.length_map, List.length_range]
    exact hcount.ne'
  · intro idHex _
    exact ⟨_, rfl⟩

/-- A device pushes a bundle, and its head opens to other plaintexts as well. -/
theorem not_contentBound_pushed :
    ∃ (plan : PushPlan Bytes) (head : RefHead Bytes) (refs : EncryptedRefsMap),
      buildPushPlan (Vector.replicate 32 1) [1] ∅ none deviceMaterial [] 1 false true deviceKeys
        (flatRandom 1) = .ok (plan, head, refs) ∧
      ¬ ContentBound (Vector.replicate 32 1) deviceMaterial (fun _ => ⟨⟨[], []⟩, ⟨[], []⟩⟩)
        head := by
  have hgroup : deviceKeys.group =
      .ok ⟨⟨flatSeed 7, paddedKey (flatSeed 7)⟩, [paddedKey (flatSeed 7)]⟩ := rfl
  obtain ⟨plan, head, refs, hplan, -⟩ := exists_buildPushPlan (D := Bytes)
    (Vector.replicate 32 1) [1] ∅ none [] 1 (deviceMaterial_epochKeyAt (flatRandom 1).epoch)
    hgroup (length_flatSeed 7)
  obtain ⟨epochKey, hplanned⟩ := planned_of_buildPushPlan hplan
  exact ⟨plan, head, refs, hplan, (hplanned.opens _ (by decide)).not_contentBound _⟩

end Sample

end SafeHub
