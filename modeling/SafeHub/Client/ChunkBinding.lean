import SafeHub.Client.BundleBinding
import SafeHub.Client.ChunkStream
import SafeHub.Server.HostRoutes

/-!
# Chunks are bound to their place

A chunk is sealed under associated data that names the repository, the push, its index and the
number of chunks. The text can be read back: the repository stands at the front in hexadecimal,
and the two numbers at the end in decimal, whatever characters the push id has. So ciphertexts
that all open under a push, each at its place, are those of the push.

## Main definitions

* `LowerHex` — what hexadecimal texts are
* `ChunkPush`, `ChunkPush.ciphertexts` — a push and what is sealed for it
* `IdealAeadOn` — what opens was sealed

## Main results

* `chunkAad_inj` — the associated data names repository, push, index and number
* `chunks_bound_to_place` — a list that opens completely is the list that was sealed
-/

namespace SafeHub

section Names

variable {D : Type} [Sha512 D] [HexCodec D] {repo repo' : RepoId} {pushId pushId' : String}
  {index index' count count' : ℕ}

/-- Hexadecimal texts have two lower-case digits for each byte. -/
structure LowerHex (D : Type) [Sha512 D] [HexCodec D] : Prop where
  encode_eq : ∀ bytes, HexCodec.encode D bytes = hexEncode bytes

theorem hexEncode_injective : Function.Injective hexEncode := by
  intro bytes bytes' h
  have hdecode := hexDecode_hexEncode bytes
  rw [h, hexDecode_hexEncode] at hdecode
  exact (Option.some.inj hdecode).symm

theorem length_toList_hexEncode (bytes : Bytes) :
    (hexEncode bytes).toList.length = 2 * bytes.length := by
  rw [hexEncode, String.toList_ofList, List.length_flatMap]
  simp [Nat.mul_comm]

/-- What stands behind the last separator can be told from what stands in front of it. -/
theorem append_cons_inj_of_not_mem_right {α : Type} {a : α} {front front' back back' : List α}
    (hback : a ∉ back) (hback' : a ∉ back') (h : front ++ a :: back = front' ++ a :: back') :
    front = front' ∧ back = back' := by
  rcases List.append_eq_append_iff.mp h with ⟨more, rfl, hmore⟩ | ⟨more, rfl, hmore⟩
  · cases more with
    | nil =>
      rw [List.append_nil]
      exact ⟨rfl, (List.cons.inj hmore).2⟩
    | cons b more =>
      have hrest := (List.cons.inj hmore).2
      exact absurd (hrest ▸ List.mem_append_right more List.mem_cons_self) hback
  · cases more with
    | nil =>
      rw [List.append_nil]
      exact ⟨rfl, (List.cons.inj hmore).2.symm⟩
    | cons b more =>
      have hrest := (List.cons.inj hmore).2
      exact absurd (hrest ▸ List.mem_append_right more List.mem_cons_self) hback'

/-- A decimal behind a colon can be told from what stands in front of it. -/
theorem append_decimal_inj {front front' : List Char} {n n' : ℕ}
    (h : front ++ ':' :: Nat.toDigits 10 n = front' ++ ':' :: Nat.toDigits 10 n') :
    front = front' ∧ n = n' := by
  have hcolon : ∀ n, ':' ∉ Nat.toDigits 10 n := by
    intro n hmem
    cases Nat.isDigit_of_mem_toDigits (by decide) (by decide) hmem
  obtain ⟨hfront, hdigits⟩ := append_cons_inj_of_not_mem_right (hcolon n) (hcolon n') h
  have hvalue := congrArg (Nat.ofDigitChars 10 · 0) hdigits
  simp only [Nat.ofDigitChars_ten_toDigits] at hvalue
  exact ⟨hfront, hvalue⟩

/-- The name of a chunk as characters. -/
theorem toList_chunkName (hex pushId : String) (index count : ℕ) :
    (s!"{hex}:{pushId}:{index}:{count}").toList =
      hex.toList ++ ':' :: (pushId.toList ++ ':' :: Nat.toDigits 10 index ++
        ':' :: Nat.toDigits 10 count) := by
  change (hex ++ ":" ++ pushId ++ ":" ++ index.repr ++ ":" ++ count.repr).toList = _
  have hcolon : (":" : String).toList = [':'] := rfl
  simp only [String.toList_append, Nat.toList_repr, hcolon, List.append_assoc,
    List.nil_append, List.cons_append]

/-- The associated data of a chunk names its repository, its push, its index and the number of
chunks. -/
theorem chunkAad_inj (hhex : LowerHex D)
    (h : chunkAad D repo pushId index count = chunkAad D repo' pushId' index' count') :
    repo = repo' ∧ pushId = pushId' ∧ index = index' ∧ count = count' := by
  have hname := congrArg String.toList (strBytes_injective (List.append_cancel_left h))
  rw [toList_chunkName, toList_chunkName, hhex.encode_eq, hhex.encode_eq] at hname
  -- the repository stands at the front, with one length
  obtain ⟨hrepo, hrest⟩ := List.append_inj hname (by simp [length_toList_hexEncode])
  obtain ⟨hfront, rfl⟩ := append_decimal_inj (List.cons.inj hrest).2
  obtain ⟨hpush, rfl⟩ := append_decimal_inj hfront
  exact ⟨Vector.toList_inj.mp (hexEncode_injective (String.toList_inj.mp hrepo)),
    String.toList_inj.mp hpush, rfl, rfl⟩

end Names

/-! ### What a host can serve -/

section Served

/-- A push: its repository, its id, its data-encryption key, and the parts of its bundle with the
nonces drawn for them. -/
structure ChunkPush where
  repo : RepoId
  pushId : String
  dek : Bytes
  parts : List Bytes
  nonce : ℕ → Vector UInt8 12
  /-- The count of its chunks has 32 bits. -/
  length_lt : parts.length < 2 ^ 32

variable (D : Type) [Sha512 D] [HashPrimitives] [HexCodec D]

/-- What is sealed for a push, in order. -/
def ChunkPush.ciphertexts (p : ChunkPush) : List Bytes :=
  (sealParts (D := D) p.repo p.pushId p.dek p.nonce p.parts).map EncryptedChunk.ciphertext

/-- The seals of some pushes: key, associated data and ciphertext. -/
def sealedBy (pushes : Set ChunkPush) : Set (Bytes × Bytes × Bytes) :=
  {entry | ∃ p ∈ pushes, ∃ i ct, (p.ciphertexts D)[i]? = some ct ∧
    entry = (p.dek, chunkAad D p.repo p.pushId i p.parts.length, ct)}

/-- What is tried when ciphertexts are opened under a push. -/
def triedFor (repo : RepoId) (pushId : String) (dek : Bytes) (served : List Bytes) :
    Set (Bytes × Bytes × Bytes) :=
  {entry | ∃ i ct, served[i]? = some ct ∧
    entry = (dek, chunkAad D repo pushId (i % 2 ^ 32) (served.length % 2 ^ 32), ct)}

variable {D}

/-- Of what is tried, only what was sealed under the same key and associated data opens. -/
def IdealAeadOn (sealed tried : Set (Bytes × Bytes × Bytes)) : Prop :=
  ∀ key aad ct plaintext, (key, aad, ct) ∈ tried →
    CommittingAead.openSealed key aad ct = .ok plaintext → (key, aad, ct) ∈ sealed

variable {p : ChunkPush} {pushes : Set ChunkPush} {served parts : List Bytes}

theorem length_ciphertexts (p : ChunkPush) : (p.ciphertexts D).length = p.parts.length := by
  rw [ChunkPush.ciphertexts, List.length_map, sealParts, List.length_mapIdx]

/-- In a list that opens completely, every ciphertext was sealed for a place and a number of
chunks that the list gives it. -/
theorem getElem?_ciphertexts_of_opens (hhex : LowerHex D)
    (hfresh : ∀ q ∈ pushes, q.repo = p.repo → q.pushId = p.pushId → q.dek = p.dek → q = p)
    (hideal : IdealAeadOn (sealedBy D pushes) (triedFor D p.repo p.pushId p.dek served))
    (hopen : openChunks D p.repo p.pushId p.dek served = .ok parts) {i : ℕ}
    (hi : i < served.length) :
    (p.ciphertexts D)[i % 2 ^ 32]? = some served[i] ∧ p.parts.length = served.length % 2 ^ 32 := by
  have hall := List.forall₂_iff_get.mp (mapM_eq_ok_iff.mp hopen)
  have hopened := hall.2 i (by rwa [List.length_zipIdx])
    (by rwa [← hall.1, List.length_zipIdx])
  simp only [List.get_eq_getElem, List.getElem_zipIdx, Nat.zero_add] at hopened
  rw [openChunk, orAead_eq_ok_iff] at hopened
  obtain ⟨q, hq, j, ct, hct, hentry⟩ := hideal _ _ _ _
    ⟨i, served[i], List.getElem?_eq_getElem hi, rfl⟩ hopened
  obtain ⟨hdek, hrest⟩ := Prod.mk.inj hentry
  obtain ⟨haad, rfl⟩ := Prod.mk.inj hrest
  obtain ⟨hrepo, hpush, rfl, hcount⟩ := chunkAad_inj hhex haad
  obtain rfl := hfresh q hq hrepo.symm hpush.symm hdek.symm
  exact ⟨hct, hcount.symm⟩

/-- A list that opens completely under a push is the list that was sealed for it. -/
theorem eq_ciphertexts_of_opens (hhex : LowerHex D)
    (hfresh : ∀ q ∈ pushes, q.repo = p.repo → q.pushId = p.pushId → q.dek = p.dek → q = p)
    (hideal : IdealAeadOn (sealedBy D pushes) (triedFor D p.repo p.pushId p.dek served))
    (hne : served ≠ []) (hopen : openChunks D p.repo p.pushId p.dek served = .ok parts) :
    served = p.ciphertexts D ∧ parts = p.parts := by
  have hplace {i : ℕ} (hi : i < served.length) :=
    getElem?_ciphertexts_of_opens hhex hfresh hideal hopen hi
  have hcount := (hplace (List.length_pos_iff.mpr hne)).2
  -- a longer list would have a place whose index no push has
  have hshort : served.length < 2 ^ 32 := by
    by_contra hlong
    obtain ⟨hlast, -⟩ := hplace (i := 2 ^ 32 - 1) (by omega)
    have hlt := (List.getElem?_eq_some_iff.mp hlast).1
    rw [length_ciphertexts, hcount] at hlt
    omega
  rw [Nat.mod_eq_of_lt hshort] at hcount
  have hserved : served = p.ciphertexts D := by
    apply List.ext_getElem
    · rw [length_ciphertexts, hcount]
    · intro i hi hi'
      have hat := (hplace hi).1
      rw [Nat.mod_eq_of_lt (hi.trans hshort), List.getElem?_eq_getElem hi'] at hat
      exact (Option.some.inj hat).symm
  refine ⟨hserved, ?_⟩
  rw [hserved, ChunkPush.ciphertexts, openChunks_sealParts p.length_lt] at hopen
  exact (Except.ok.inj hopen).symm

/-- The ciphertexts a host serves in one fetch, in the order of the requests. -/
def ServedBy (getBlob : ℕ → BlobId D → Except ClientError Bytes) (served : List Bytes) : Prop :=
  ∀ i ct, served[i]? = some ct → ∃ id, getBlob i id = .ok ct

variable [MlDsa87] [RefsCodec] {material : EpochMaterial Bytes Bytes}
  {getBlob : ℕ → BlobId D → Except ClientError Bytes} {draws : RefHead D → OpenDraws}
  {head : RefHead D} {result : FetchResult D} {repo : RepoId} {dek : Bytes}

omit [MlDsa87] in
/-- A fetch of a head that succeeds has opened a list that the host served, under the push id and
the key of the head. -/
theorem exists_served_of_fetch
    (hfetch : fetchHeadBundleAsked repo material getBlob draws head = .ok result)
    (hdek : unwrapDek material (draws head).dek head = .ok dek) :
    ∃ served parts, served ≠ [] ∧ ServedBy getBlob served ∧
      openChunks D repo result.refs.pushId dek served = .ok parts ∧
      result.bundle = parts.flatten := by
  obtain ⟨refs, dek', chunks, -, -, hids, hdek', rfl, hchunks⟩ := fetchHeadBundleAsked_eq_ok hfetch
  obtain rfl := Except.ok.inj (hdek.symm.trans hdek')
  obtain ⟨hlength, hat⟩ := List.forall₂_iff_get.mp hchunks
  rw [List.length_zipIdx] at hlength
  -- the ciphertext that answered each request
  have hanswer : ∀ i : Fin refs.chunkIds.length, ∃ ct,
      (∃ id, getBlob i id = .ok ct) ∧ ∃ hi : i < chunks.length,
        openChunk D repo refs.pushId (i % 2 ^ 32) (refs.chunkIds.length % 2 ^ 32) dek ct =
          .ok chunks[i] := by
    intro i
    obtain ⟨id, ct, -, hct, hopen⟩ := hat i (by rw [List.length_zipIdx]; exact i.isLt)
      (hlength ▸ i.isLt)
    simp only [List.get_eq_getElem, List.getElem_zipIdx, Nat.zero_add] at hct hopen
    exact ⟨ct, ⟨id, hct⟩, hlength ▸ i.isLt, hopen⟩
  choose answer hserved hopens using hanswer
  refine ⟨List.ofFn answer, chunks, ?_, ?_, ?_, rfl⟩
  · rw [ne_eq, List.ofFn_eq_nil_iff, ← ne_eq]
    rw [List.isEmpty_eq_false_iff, ← List.length_pos_iff] at hids
    exact hids.ne'
  · intro i ct hct
    obtain ⟨hi, rfl⟩ := List.getElem?_eq_some_iff.mp hct
    rw [List.length_ofFn] at hi
    rw [List.getElem_ofFn]
    exact hserved ⟨i, hi⟩
  · rw [openChunks, mapM_eq_ok_iff, List.forall₂_iff_get]
    refine ⟨by rw [List.length_zipIdx, List.length_ofFn, hlength], fun i hi hi' => ?_⟩
    rw [List.length_zipIdx, List.length_ofFn] at hi
    simp only [List.get_eq_getElem, List.getElem_zipIdx, List.getElem_ofFn, List.length_ofFn,
      Nat.zero_add]
    exact (hopens ⟨i, hi⟩).2

omit [MlDsa87] in
/-- The associated data of a chunk names its place. A list of ciphertexts that opens completely
under a push, where the AEAD is ideal on what is tried, is the list that was sealed for the push,
and a fetch under the push that succeeds returns what was sealed. -/
theorem chunks_bound_to_place (hhex : LowerHex D) :
    (∀ (repo repo' : RepoId) (pushId pushId' : String) (index index' count count' : ℕ),
      chunkAad D repo pushId index count = chunkAad D repo' pushId' index' count' →
        repo = repo' ∧ pushId = pushId' ∧ index = index' ∧ count = count') ∧
    ∀ (pushes : Set ChunkPush) (p : ChunkPush),
      (∀ q ∈ pushes, q.repo = p.repo → q.pushId = p.pushId → q.dek = p.dek → q = p) →
      (∀ served parts, served ≠ [] →
        IdealAeadOn (sealedBy D pushes) (triedFor D p.repo p.pushId p.dek served) →
        openChunks D p.repo p.pushId p.dek served = .ok parts →
        served = p.ciphertexts D ∧ parts = p.parts) ∧
      ∀ (material : EpochMaterial Bytes Bytes) (getBlob : ℕ → BlobId D → Except ClientError Bytes)
        (draws : RefHead D → OpenDraws) (head : RefHead D) (result : FetchResult D),
        fetchHeadBundleAsked p.repo material getBlob draws head = .ok result →
        result.refs.pushId = p.pushId → unwrapDek material (draws head).dek head = .ok p.dek →
        (∀ served, ServedBy getBlob served →
          IdealAeadOn (sealedBy D pushes) (triedFor D p.repo p.pushId p.dek served)) →
        result.bundle = p.parts.flatten := by
  refine ⟨fun _ _ _ _ _ _ _ _ h => chunkAad_inj hhex h, fun pushes p hfresh => ⟨?_, ?_⟩⟩
  · intro served parts hne hideal hopen
    exact eq_ciphertexts_of_opens hhex hfresh hideal hne hopen
  · intro material getBlob draws head result hfetch hpush hdek hideal
    obtain ⟨served, parts, hne, hserved, hopen, hbundle⟩ := exists_served_of_fetch hfetch hdek
    rw [hpush] at hopen
    rw [hbundle, (eq_ciphertexts_of_opens hhex hfresh (hideal served hserved) hne hopen).2]

end Served

section Sample

attribute [local instance] leadingSha512 leadingDigestBytes transparentHash transparentMlDsa87
  framedRefsCodec

/-- Hexadecimal texts with two lower-case digits for each byte. -/
abbrev lowerHexCodec : HexCodec Digest where
  encode := hexEncode
  blobIdFromHex text :=
    match BlobId.fromHex Digest text with
    | some id => .ok id
    | none => .error "invalid blob id"
  blobIdFromHex_encode id := by rw [BlobId.fromHex_hexEncode]

attribute [local instance] lowerHexCodec

/-- A push of two parts whose id has colons and digits. -/
def samplePush : ChunkPush where
  repo := Vector.replicate 32 2
  pushId := "7:0:2"
  dek := List.replicate 32 9
  parts := [[1, 2], [3]]
  nonce i := Vector.replicate 12 (.ofNat i)
  length_lt := by decide

/-- The sample's own list opens completely, and is then the list that was sealed. -/
theorem chunks_bound_to_place_samplePush :
    ∃ served, served.length = 2 ∧
      openChunks Digest samplePush.repo samplePush.pushId samplePush.dek served =
        .ok [[1, 2], [3]] ∧ served = samplePush.ciphertexts Digest := by
  have hlength : (samplePush.ciphertexts Digest).length = 2 := length_ciphertexts samplePush
  have hopen : openChunks Digest samplePush.repo samplePush.pushId samplePush.dek
      (samplePush.ciphertexts Digest) = .ok [[1, 2], [3]] :=
    openChunks_sealParts samplePush.length_lt
  have hideal : IdealAeadOn (sealedBy Digest {samplePush}) (triedFor Digest samplePush.repo
      samplePush.pushId samplePush.dek (samplePush.ciphertexts Digest)) := by
    rintro key aad ct plaintext ⟨i, ct, hct, hentry⟩ -
    have hi := (List.getElem?_eq_some_iff.mp hct).1
    rw [hlength] at hi hentry
    rw [Nat.mod_eq_of_lt (hi.trans (by decide))] at hentry
    exact ⟨samplePush, rfl, i, ct, hct, hentry⟩
  have hbound := (chunks_bound_to_place (D := Digest) ⟨fun _ => rfl⟩).2 {samplePush} samplePush
    (fun q hq _ _ _ => hq)
  exact ⟨_, hlength, hopen, (hbound.1 _ _ (by rw [← List.length_pos_iff, hlength]; decide) hideal
    hopen).1⟩

end Sample

end SafeHub
