import SafeHub.Client.Fetch
import SafeHub.Lib.SeekReader

/-!
# Sealing a bundle from a reader

A push seals its bundle chunk by chunk from a reader that may hand out less than it is asked
for. The number of chunks is computed from the length beforehand, in 32 bits, and every chunk
is sealed for its place among so many. A reader of the bundle opens the chunks in order, each
for its place among as many as there are.

## Main definitions

* `chunksFor` — how many chunks a length needs
* `bundleChunksSeek` — the chunks of what a reader hands out
* `openChunks` — the chunks of a bundle, opened in order

## Main results

* `bundleChunksSeek_eq_ok` — the chunks are the slices of the content, sealed
* `bundleChunksSeek_cursorReader` — what is sealed from a bundle in memory
* `bundleChunksSeek_round_trip_iff` — when the chunks of a bundle open to it
-/

namespace SafeHub

section Blocks

variable {α ρ : Type}

/-- How many chunks a length needs. An empty bundle still has one. -/
def chunksFor (chunkSize length : ℕ) : ℕ := max 1 ((length + chunkSize - 1) / chunkSize)

/-- The chunk size of a push. -/
def bundleChunkLen : ℕ+ := Nat.toPNat bundleChunkSize

theorem coe_bundleChunkLen : (bundleChunkLen : ℕ) = bundleChunkSize := rfl

/-- How many chunks are sealed for a length: the count is cut to 32 bits. -/
def chunkTotal (chunkSize length : ℕ) : ℕ :=
  if length = 0 then 1 else ((length + chunkSize - 1) / chunkSize) % 2 ^ 32

/-- The slice of a content that is sealed at an index. -/
def sliceAt (content : Bytes) (chunkSize index : ℕ) : Bytes :=
  (content.drop (index * chunkSize)).take chunkSize

/-- Fill the buffer and seal it, for `todo` chunks from `index` on. -/
def sealBlocks (reader : SeekReader UInt8 ρ) (chunkSize : ℕ) (sealAt : ℕ → Bytes → α) :
    (todo index : ℕ) → ρ → Except ClientError (List α)
  | 0, _, _ => .ok []
  | todo + 1, index, r =>
    match reader.fill chunkSize r [] with
    | .error e => .error (.other s!"bundle read: {e}")
    | .ok (buf, r') => do
      let rest ← sealBlocks reader chunkSize sealAt todo (index + 1) r'
      return sealAt index buf :: rest

variable {reader : SeekReader UInt8 ρ} {chunkSize todo index length : ℕ} {r : ρ}
  {sealAt : ℕ → Bytes → α} {chunks : List α}

/-- The blocks are the slices of the content, whatever pieces they were read in. -/
theorem sealBlocks_eq_ok (hleft : reader.left r = reader.content.drop (index * chunkSize))
    (h : sealBlocks reader chunkSize sealAt todo index r = .ok chunks) :
    chunks = (List.range' index todo).map fun i =>
      sealAt i (sliceAt reader.content chunkSize i) := by
  induction todo generalizing index r chunks with
  | zero => exact (Except.ok.inj h).symm
  | succ todo ih =>
    rw [sealBlocks] at h
    cases hfill : reader.fill chunkSize r [] with
    | error e =>
      rw [hfill] at h
      cases h
    | ok filled =>
      obtain ⟨buf, r'⟩ := filled
      rw [hfill] at h
      obtain ⟨rest, hrest, h⟩ := bind_eq_ok_iff.mp h
      obtain rfl := Except.ok.inj h
      obtain ⟨hbuf, hr'⟩ := SeekReader.fill_eq_ok hfill
      rw [List.length_nil, Nat.sub_zero, hleft] at hbuf hr'
      rw [List.drop_drop, ← Nat.succ_mul] at hr'
      rw [ih hr' hrest, List.range'_succ, List.map_cons, hbuf]
      rfl

theorem sealBlocks_isOk (hreliable : reader.Reliable) :
    ∃ chunks, sealBlocks reader chunkSize sealAt todo index r = .ok chunks := by
  induction todo generalizing index r with
  | zero => exact ⟨[], rfl⟩
  | succ todo ih =>
    obtain ⟨buf, r', hfill⟩ := hreliable.fill chunkSize r []
    obtain ⟨rest, hrest⟩ :
        ∃ rest, sealBlocks reader chunkSize sealAt todo (index + 1) r' = .ok rest := ih
    refine ⟨sealAt index buf :: rest, ?_⟩
    rw [sealBlocks, hfill]
    exact bind_eq_ok_iff.mpr ⟨rest, hrest, rfl⟩

theorem chunkTotal_lt (chunkSize length : ℕ) : chunkTotal chunkSize length < 2 ^ 32 := by
  unfold chunkTotal
  split
  · exact Nat.one_lt_two_pow (by decide)
  · exact Nat.mod_lt _ (Nat.two_pow_pos 32)

/-- The count of the chunks is what the length needs if that has 32 bits. -/
theorem chunkTotal_eq_iff (hsize : 0 < chunkSize) :
    chunkTotal chunkSize length = chunksFor chunkSize length ↔
      chunksFor chunkSize length < 2 ^ 32 := by
  constructor
  · intro heq
    exact heq ▸ chunkTotal_lt chunkSize length
  · intro hsmall
    unfold chunkTotal
    unfold chunksFor at hsmall ⊢
    split_ifs with hzero
    · have hnone : (length + chunkSize - 1) / chunkSize = 0 := Nat.div_eq_of_lt (by omega)
      rw [hnone]
      rfl
    · have hsome : 1 ≤ (length + chunkSize - 1) / chunkSize :=
        (Nat.one_le_div_iff hsize).mpr (by omega)
      rw [Nat.mod_eq_of_lt (by omega), Nat.max_eq_right hsome]

/-- The chunks that a length needs cover it. -/
theorem le_chunksFor_mul (hsize : 0 < chunkSize) (length : ℕ) :
    length ≤ chunksFor chunkSize length * chunkSize := by
  have hnext := Nat.lt_mul_div_succ (length + chunkSize - 1) hsize
  rw [Nat.mul_add_one, Nat.mul_comm] at hnext
  calc
    length ≤ (length + chunkSize - 1) / chunkSize * chunkSize := by omega
    _ ≤ chunksFor chunkSize length * chunkSize := Nat.mul_le_mul_right _ (Nat.le_max_right _ _)

/-- Fewer chunks do not. -/
theorem mul_lt_of_lt_chunksFor (hsize : 0 < chunkSize) (hlength : 0 < length)
    (h : todo < chunksFor chunkSize length) : todo * chunkSize < length := by
  have hsome : 1 ≤ (length + chunkSize - 1) / chunkSize :=
    (Nat.one_le_div_iff hsize).mpr (by omega)
  rw [chunksFor, Nat.max_eq_right hsome] at h
  have hceil := Nat.div_mul_le_self (length + chunkSize - 1) chunkSize
  have hnext := Nat.mul_le_mul_right chunkSize (Nat.succ_le_of_lt h)
  rw [Nat.succ_mul] at hnext
  omega

/-- The chunks that are sealed cover the length if as many as it needs have 32 bits. -/
theorem le_chunkTotal_mul_iff (hsize : 0 < chunkSize) :
    length ≤ chunkTotal chunkSize length * chunkSize ↔ chunksFor chunkSize length < 2 ^ 32 := by
  constructor
  · intro hcovers
    by_contra hmany
    have hfew := (chunkTotal_lt chunkSize length).trans_le (Nat.not_lt.mp hmany)
    rcases Nat.eq_zero_or_pos length with rfl | hlength
    · have hone : chunksFor chunkSize 0 = 1 := by
        rw [chunksFor, Nat.div_eq_of_lt (by omega)]
        rfl
      omega
    · exact Nat.not_le.mpr (mul_lt_of_lt_chunksFor hsize hlength hfew) hcovers
  · intro hsmall
    rw [(chunkTotal_eq_iff hsize).mpr hsmall]
    exact le_chunksFor_mul hsize length

theorem flatMap_sliceAt (content : Bytes) (chunkSize n : ℕ) :
    (List.range n).flatMap (sliceAt content chunkSize) = content.take (n * chunkSize) := by
  induction n with
  | zero => simp
  | succ n ih =>
    rw [List.range_succ, List.flatMap_append, ih, Nat.succ_mul, List.take_add,
      List.flatMap_singleton, sliceAt]

/-- The slices of a content that are sealed. -/
def slicesOf (content : Bytes) (chunkSize : ℕ) : List Bytes :=
  (List.range (chunkTotal chunkSize content.length)).map (sliceAt content chunkSize)

theorem length_slicesOf (content : Bytes) (chunkSize : ℕ) :
    (slicesOf content chunkSize).length = chunkTotal chunkSize content.length := by
  rw [slicesOf, List.length_map, List.length_range]

theorem flatten_slicesOf (content : Bytes) (chunkSize : ℕ) :
    (slicesOf content chunkSize).flatten =
      content.take (chunkTotal chunkSize content.length * chunkSize) := by
  rw [slicesOf, ← List.flatMap_def, flatMap_sliceAt]

end Blocks

section ChunkStream

variable {D : Type} [Sha512 D] [HashPrimitives] [HexCodec D] {ρ : Type}

/-- Seal one chunk for its place. -/
def sealChunk (repo : RepoId) (pushId : String) (dek : Bytes) (nonce : ℕ → Vector UInt8 12)
    (total index : ℕ) (plaintext : Bytes) : EncryptedChunk D :=
  let ct := CommittingAead.sealWithNonce dek (chunkAad D repo pushId index total) plaintext
    (nonce index).toList
  ⟨⟨Sha512.digest ct, ct.length, index, total, pushId⟩, ct⟩

/-- Seal what a reader hands out, in blocks of one size. -/
def bundleChunksSeek (reader : SeekReader UInt8 ρ) (chunkSize : ℕ+) (repo : RepoId)
    (pushId : String) (dek : Bytes) (nonce : ℕ → Vector UInt8 12) (start : ρ) :
    Except ClientError (List (EncryptedChunk D)) :=
  match reader.seekEnd start with
  | .error e => .error (.other s!"bundle seek: {e}")
  | .ok (len, r) =>
    match reader.rewind r with
    | .error e => .error (.other s!"bundle rewind: {e}")
    | .ok r =>
      let n := chunkTotal chunkSize len.toNat
      sealBlocks reader chunkSize (sealChunk repo pushId dek nonce n) n 0 r

/-- Open ciphertexts in order, each for its place among as many as there are. -/
def openChunks (D : Type) [Sha512 D] [HexCodec D] (repo : RepoId) (pushId : String) (dek : Bytes)
    (ciphertexts : List Bytes) : Except ClientError (List Bytes) :=
  ciphertexts.zipIdx.mapM fun (ct, i) =>
    openChunk D repo pushId (i % 2 ^ 32) (ciphertexts.length % 2 ^ 32) dek ct

variable {reader : SeekReader UInt8 ρ} {chunkSize : ℕ+} {repo : RepoId} {pushId : String}
  {dek : Bytes} {nonce : ℕ → Vector UInt8 12} {start : ρ} {chunks : List (EncryptedChunk D)}

/-- Seal parts in order, each for its place among as many as there are. -/
def sealParts (repo : RepoId) (pushId : String) (dek : Bytes) (nonce : ℕ → Vector UInt8 12)
    (parts : List Bytes) : List (EncryptedChunk D) :=
  parts.mapIdx fun i part => sealChunk repo pushId dek nonce parts.length i part

/-- Sealed parts open to what they were. -/
theorem openChunks_sealParts {parts : List Bytes} (h : parts.length < 2 ^ 32) :
    openChunks D repo pushId dek ((sealParts (D := D) repo pushId dek nonce parts).map
      EncryptedChunk.ciphertext) = .ok parts := by
  have hlength : ((sealParts (D := D) repo pushId dek nonce parts).map
      EncryptedChunk.ciphertext).length = parts.length := by
    rw [List.length_map, sealParts, List.length_mapIdx]
  rw [openChunks, mapM_eq_ok_iff, hlength, List.forall₂_iff_get]
  refine ⟨by rw [List.length_zipIdx, hlength], fun i hi hi' => ?_⟩
  simp only [List.get_eq_getElem, List.getElem_zipIdx, List.getElem_map, sealParts,
    List.getElem_mapIdx, Nat.zero_add, Nat.mod_eq_of_lt (hi'.trans h), Nat.mod_eq_of_lt h]
  rw [openChunk, sealChunk, CommittingAead.openSealed_sealWithNonce _ _ _ Vector.length_toList]
  rfl

/-- The chunks that are sealed for a content. -/
def chunksOf (content : Bytes) (chunkSize : ℕ) (repo : RepoId) (pushId : String) (dek : Bytes)
    (nonce : ℕ → Vector UInt8 12) : List (EncryptedChunk D) :=
  sealParts repo pushId dek nonce (slicesOf content chunkSize)

theorem chunksOf_eq_map (content : Bytes) (chunkSize : ℕ) :
    chunksOf (D := D) content chunkSize repo pushId dek nonce =
      (List.range (chunkTotal chunkSize content.length)).map fun i =>
        sealChunk repo pushId dek nonce (chunkTotal chunkSize content.length) i
          (sliceAt content chunkSize i) := by
  apply List.ext_getElem
  · rw [chunksOf, sealParts, List.length_mapIdx, length_slicesOf, List.length_map,
      List.length_range]
  · intro i hi hi'
    simp only [chunksOf, sealParts, List.getElem_mapIdx, length_slicesOf, List.getElem_map,
      List.getElem_range]
    simp only [slicesOf, List.getElem_map, List.getElem_range]

/-- Sealing from a reader that finishes seals its content. -/
theorem bundleChunksSeek_eq_ok
    (h : bundleChunksSeek reader chunkSize repo pushId dek nonce start = .ok chunks) :
    chunks = chunksOf reader.content chunkSize repo pushId dek nonce := by
  rw [bundleChunksSeek] at h
  cases hseek : reader.seekEnd start with
  | error e =>
    rw [hseek] at h
    cases h
  | ok reached =>
    obtain ⟨len, r⟩ := reached
    rw [hseek] at h
    dsimp only at h
    cases hrewind : reader.rewind r with
    | error e =>
      rw [hrewind] at h
      cases h
    | ok r' =>
      rw [hrewind, reader.seekEnd_length hseek] at h
      have hleft : reader.left r' = reader.content.drop (0 * chunkSize) := by
        rw [reader.left_rewind hrewind, Nat.zero_mul, List.drop_zero]
      rw [sealBlocks_eq_ok hleft h, chunksOf_eq_map, List.range_eq_range']

theorem bundleChunksSeek_isOk (hreliable : reader.Reliable) (repo : RepoId) (pushId : String)
    (dek : Bytes) (nonce : ℕ → Vector UInt8 12) (start : ρ) :
    bundleChunksSeek reader chunkSize repo pushId dek nonce start =
      .ok (chunksOf (D := D) reader.content chunkSize repo pushId dek nonce) := by
  obtain ⟨len, r, hseek⟩ := hreliable.seekEnd start
  obtain ⟨r', hrewind⟩ := hreliable.rewind r
  set n := chunkTotal chunkSize len.toNat with hn
  obtain ⟨chunks, hchunks⟩ : ∃ chunks : List (EncryptedChunk D),
      sealBlocks reader chunkSize (sealChunk repo pushId dek nonce n) n 0 r' = .ok chunks :=
    sealBlocks_isOk hreliable
  have hok : bundleChunksSeek reader chunkSize repo pushId dek nonce start = .ok chunks := by
    rw [bundleChunksSeek, hseek]
    dsimp only
    rw [hrewind]
    exact hchunks
  rw [hok, bundleChunksSeek_eq_ok hok]

/-- The chunks of a content open in order to its slices. -/
theorem openChunks_chunksOf (content : Bytes) (chunkSize : ℕ) :
    openChunks D repo pushId dek
        ((chunksOf (D := D) content chunkSize repo pushId dek nonce).map
          EncryptedChunk.ciphertext) = .ok (slicesOf content chunkSize) :=
  openChunks_sealParts ((length_slicesOf content chunkSize).trans_lt
    (chunkTotal_lt chunkSize content.length))

/-- The bytes of a bundle as a reader that is never interrupted and hands out all it is asked
for. -/
def cursorReader (content : Bytes) (h : content.length < 2 ^ 64) : SeekReader UInt8 Bytes where
  content := content
  seekEnd _ := .ok (.ofNat content.length, [])
  rewind _ := .ok content
  read left room := (.piece (left.take room), left.drop room)
  left := id
  patience _ := 0
  seekEnd_length heq := by
    obtain ⟨rfl, -⟩ := Prod.mk.inj (Except.ok.inj heq)
    rw [UInt64.toNat_ofNat', Nat.mod_eq_of_lt h]
  left_rewind heq := (Except.ok.inj heq).symm
  read_piece heq := by
    obtain ⟨hpiece, rfl⟩ := Prod.mk.inj heq
    obtain rfl := ReadReply.piece.inj hpiece
    exact ⟨List.length_take_le _ _, (List.take_append_drop _ _).symm⟩
  read_end heq hroom := by
    have hpiece := ReadReply.piece.inj (Prod.mk.inj heq).1
    exact (List.take_eq_nil_iff.mp hpiece).resolve_left hroom.ne'
  read_interrupted heq := by cases (Prod.mk.inj heq).1

omit [HashPrimitives] in
theorem reliable_cursorReader {content : Bytes} (h : content.length < 2 ^ 64) :
    (cursorReader content h).Reliable where
  seekEnd _ := ⟨_, _, rfl⟩
  rewind _ := ⟨_, rfl⟩
  read _ _ _ heq := by cases heq

/-- A bundle in memory is sealed through a reader over its bytes. -/
theorem bundleChunksSeek_cursorReader (plaintext : Bytes) (h : plaintext.length < 2 ^ 64)
    (start : Bytes) :
    bundleChunksSeek (cursorReader plaintext h) bundleChunkLen repo pushId dek nonce
      start = .ok (bundleChunks (D := D) repo pushId plaintext dek nonce) := by
  rw [bundleChunksSeek_isOk (reliable_cursorReader h), chunksOf_eq_map]
  rfl

/-- Sealing from a reader that does not fail yields chunks. Whatever pieces the reader hands out,
chunks that it yields open in order to the content just when as many chunks as the content needs
have a 32-bit count, and just then they are as many. -/
theorem bundleChunksSeek_round_trip_iff (reader : SeekReader UInt8 ρ) (chunkSize : ℕ+)
    (repo : RepoId) (pushId : String) (dek : Bytes) (nonce : ℕ → Vector UInt8 12) (start : ρ) :
    (reader.Reliable → ∃ chunks : List (EncryptedChunk D),
      bundleChunksSeek reader chunkSize repo pushId dek nonce start = .ok chunks) ∧
    ∀ chunks : List (EncryptedChunk D),
      bundleChunksSeek reader chunkSize repo pushId dek nonce start = .ok chunks →
      ((openChunks D repo pushId dek (chunks.map EncryptedChunk.ciphertext)).map List.flatten =
          .ok reader.content ↔ chunksFor chunkSize reader.content.length < 2 ^ 32) ∧
      (chunks.length = chunksFor chunkSize reader.content.length ↔
        chunksFor chunkSize reader.content.length < 2 ^ 32) := by
  refine ⟨fun hreliable => ⟨_, bundleChunksSeek_isOk hreliable repo pushId dek nonce start⟩, ?_⟩
  intro chunks hchunks
  rw [bundleChunksSeek_eq_ok hchunks, openChunks_chunksOf]
  constructor
  · rw [← le_chunkTotal_mul_iff chunkSize.pos]
    change Except.ok _ = _ ↔ _
    rw [flatten_slicesOf, Except.ok.injEq, List.take_eq_self_iff]
  · rw [chunksOf, sealParts, List.length_mapIdx, length_slicesOf]
    exact chunkTotal_eq_iff chunkSize.pos

end ChunkStream

section Sample

attribute [local instance] transparentSha512 transparentHash plainHexCodec

/-- Bytes handed out one at a time, each after an interruption. -/
def stutteringReader (content : Bytes) (h : content.length < 2 ^ 64) :
    SeekReader UInt8 (Bytes × Bool) where
  content := content
  seekEnd _ := .ok (.ofNat content.length, [], false)
  rewind _ := .ok (content, true)
  read r room :=
    if r.2 then (.interrupted, r.1, false)
    else (.piece (r.1.take (min 1 room)), r.1.drop (min 1 room), true)
  left := Prod.fst
  patience r := r.2.toNat
  seekEnd_length heq := by
    obtain ⟨rfl, -⟩ := Prod.mk.inj (Except.ok.inj heq)
    rw [UInt64.toNat_ofNat', Nat.mod_eq_of_lt h]
  left_rewind heq := congrArg Prod.fst (Except.ok.inj heq).symm
  read_piece heq := by
    split_ifs at heq with hinterrupt
    · cases (Prod.mk.inj heq).1
    · obtain ⟨hpiece, rfl⟩ := Prod.mk.inj heq
      obtain rfl := ReadReply.piece.inj hpiece
      refine ⟨?_, (List.take_append_drop _ _).symm⟩
      exact (List.length_take_le _ _).trans (Nat.min_le_right _ _)
  read_end heq hroom := by
    split_ifs at heq with hinterrupt
    · cases (Prod.mk.inj heq).1
    · have hpiece := ReadReply.piece.inj (Prod.mk.inj heq).1
      exact (List.take_eq_nil_iff.mp hpiece).resolve_left (by omega)
  read_interrupted {r} _ _ heq := by
    split_ifs at heq with hinterrupt
    · obtain ⟨-, rfl⟩ := Prod.mk.inj heq
      rw [hinterrupt]
      exact ⟨rfl, Nat.zero_lt_one⟩
    · cases (Prod.mk.inj heq).1

theorem reliable_stutteringReader {content : Bytes} (h : content.length < 2 ^ 64) :
    (stutteringReader content h).Reliable where
  seekEnd _ := ⟨_, _, rfl⟩
  rewind _ := ⟨_, rfl⟩
  read r room message := by
    change (if r.2 then _ else _ : ReadReply UInt8 × _).1 ≠ _
    split_ifs <;> simp

/-- A bundle of 2 ^ 32 chunks is sealed as none. -/
theorem bundleChunksSeek_too_many :
    ∃ h : (List.replicate (2 ^ 32 * bundleChunkSize) (0 : UInt8)).length < 2 ^ 64,
      bundleChunksSeek (D := Bytes) (cursorReader (List.replicate (2 ^ 32 * bundleChunkSize) 0) h)
        bundleChunkLen (Vector.replicate 32 0) "p" (List.replicate 32 0)
        (fun _ => Vector.replicate 12 0) [] = .ok [] ∧
      (openChunks Bytes (Vector.replicate 32 0) "p" (List.replicate 32 0) []).map List.flatten ≠
        .ok (List.replicate (2 ^ 32 * bundleChunkSize) 0) ∧
      chunksFor bundleChunkSize (2 ^ 32 * bundleChunkSize) = 2 ^ 32 := by
  have hlength : (List.replicate (2 ^ 32 * bundleChunkSize) (0 : UInt8)).length =
      2 ^ 32 * bundleChunkSize := List.length_replicate
  have hlt : (List.replicate (2 ^ 32 * bundleChunkSize) (0 : UInt8)).length < 2 ^ 64 := by
    rw [hlength]
    decide
  refine ⟨hlt, ?_, ?_, by decide⟩
  · have hnone : chunkTotal bundleChunkSize (2 ^ 32 * bundleChunkSize) = 0 := by decide
    rw [bundleChunksSeek_isOk (reliable_cursorReader hlt), chunksOf_eq_map]
    simp only [cursorReader, coe_bundleChunkLen, hlength, hnone, List.range_zero, List.map_nil]
  · intro heq
    have hempty := congrArg List.length (Except.ok.inj heq)
    rw [hlength] at hempty
    exact absurd hempty (by decide)

/-- Five bytes, read one at a time with interruptions, are sealed as three chunks that open to
them. -/
theorem bundleChunksSeek_round_trip_stuttering :
    ∃ h : [1, 2, 3, 4, (5 : UInt8)].length < 2 ^ 64, ∃ chunks : List (EncryptedChunk Bytes),
      bundleChunksSeek (stutteringReader [1, 2, 3, 4, 5] h) 2 (Vector.replicate 32 0) "p"
        (List.replicate 32 0) (fun _ => Vector.replicate 12 0) ([], false) = .ok chunks ∧
      (openChunks Bytes (Vector.replicate 32 0) "p" (List.replicate 32 0)
        (chunks.map EncryptedChunk.ciphertext)).map List.flatten = .ok [1, 2, 3, 4, 5] ∧
      chunks.length = 3 := by
  have hlt : [1, 2, 3, 4, (5 : UInt8)].length < 2 ^ 64 := by decide
  obtain ⟨hsome, hall⟩ := bundleChunksSeek_round_trip_iff (D := Bytes)
    (stutteringReader [1, 2, 3, 4, 5] hlt) 2 (Vector.replicate 32 0) "p" (List.replicate 32 0)
    (fun _ => Vector.replicate 12 0) ([], false)
  obtain ⟨chunks, hchunks⟩ := hsome (reliable_stutteringReader hlt)
  obtain ⟨hopen, hcount⟩ := hall chunks hchunks
  have hfits : chunksFor 2 5 < 2 ^ 32 := by decide
  have hthree : chunksFor 2 5 = 3 := by decide
  exact ⟨hlt, chunks, hchunks, hopen.mpr hfits, (hcount.mpr hfits).trans hthree⟩

end Sample

end SafeHub
