import SafeHub.Client.Error
import SafeHub.Lib.SignerCount

/-!
# m-of-n admin co-signatures

An admin co-signature is either one signature or a bundle carrying a threshold
`m` and a list of signatures. The encoder refuses thresholds that are zero or
out of reach; the decoder reads whatever the bytes say, so both numbers of a
verified bundle come from whoever made it.

## Main definitions

* `encodeAdminQuorum`, `decodeAdminQuorum` — the bundle format
* `adminCosigSign`, `adminQuorumSign` — signing
* `adminQuorumVerify` — verification against a list of admin keys

## Main results

* `decodeAdminQuorum_eq_some_iff` — which bytes decode, and to what
* `decodeAdminQuorum_inverts_iff` — when decoding inverts encoding
* `adminQuorumVerify_exact_iff` — when verification counts distinct signers
-/

namespace SafeHub

open FixedWidth SignerCount

/-! ### The bundle format -/

/-- Magic prefix of a bundle, `SHQ1`. -/
def adminQuorumMagic : Bytes := [0x53, 0x48, 0x51, 0x31]

/-- The bytes of a bundle with threshold `m` and the given signatures. -/
def quorumBytes (m : UInt8) (sigs : List Bytes) : Bytes :=
  adminQuorumMagic ++ m :: UInt8.ofNat sigs.length :: sigs.flatMap putOpaque

/-- Encode a bundle into the bytes of `RefHead.adminCosig`. -/
def encodeAdminQuorum (m : UInt8) (sigs : List Bytes) : Except ClientError Bytes :=
  if m = 0 ∨ sigs = [] ∨ m.toNat > sigs.length ∨ sigs.length > 255 then
    .error (.other "invalid admin quorum")
  else if sigs.all (fun sig => sig.length < 2 ^ 32) then
    .ok (quorumBytes m sigs)
  else
    .error (.other "sig too long")

/-- Read `n` length-prefixed signatures and return what is left. -/
def takeSigs : ℕ → Bytes → Option (List Bytes × Bytes)
  | 0, rest => some ([], rest)
  | n + 1, rest =>
    if rest.length < 4 then none
    else
      let len := readBE (rest.take 4)
      let rest := rest.drop 4
      if rest.length < len then none
      else (takeSigs n (rest.drop len)).map fun (sigs, left) => (rest.take len :: sigs, left)

/-- Decode a bundle; `none` means the bytes are a single signature. -/
def decodeAdminQuorum (bytes : Bytes) : Option (UInt8 × List Bytes) :=
  match bytes with
  | b₀ :: b₁ :: b₂ :: b₃ :: m :: n :: rest =>
    if [b₀, b₁, b₂, b₃] ≠ adminQuorumMagic then none
    else
      match takeSigs n.toNat rest with
      | some (sigs, []) => some (m, sigs)
      | _ => none
  | _ => none

theorem takeSigs_flatMap {sigs : List Bytes} (hlen : ∀ sig ∈ sigs, sig.length < 2 ^ 32)
    (left : Bytes) : takeSigs sigs.length (sigs.flatMap putOpaque ++ left) = some (sigs, left) := by
  induction sigs with
  | nil => rfl
  | cons sig sigs ih =>
    have hread : readBE (beBytes 4 sig.length) = sig.length :=
      readBE_beBytes (hlen sig List.mem_cons_self)
    have htail := ih fun s hs => hlen s (List.mem_cons_of_mem _ hs)
    have hsplit : (sig :: sigs).flatMap putOpaque ++ left =
        beBytes 4 sig.length ++ (sig ++ (sigs.flatMap putOpaque ++ left)) := by
      simp [putOpaque]
    have htake : (beBytes 4 sig.length ++ (sig ++ (sigs.flatMap putOpaque ++ left))).take 4 =
        beBytes 4 sig.length := List.take_left' (length_beBytes 4 _)
    have hdrop : (beBytes 4 sig.length ++ (sig ++ (sigs.flatMap putOpaque ++ left))).drop 4 =
        sig ++ (sigs.flatMap putOpaque ++ left) := List.drop_left' (length_beBytes 4 _)
    rw [hsplit, List.length_cons, takeSigs, htake, hdrop, hread]
    have hlong :
        ¬ (beBytes 4 sig.length ++ (sig ++ (sigs.flatMap putOpaque ++ left))).length < 4 := by
      simp
    have henough : ¬ (sig ++ (sigs.flatMap putOpaque ++ left)).length < sig.length := by simp
    simp only [if_neg hlong, if_neg henough, List.take_left, List.drop_left, htail,
      Option.map_some]

/-- Decoding undoes the format, for any threshold. -/
theorem decodeAdminQuorum_quorumBytes (m : UInt8) {sigs : List Bytes} (hcount : sigs.length ≤ 255)
    (hlen : ∀ sig ∈ sigs, sig.length < 2 ^ 32) :
    decodeAdminQuorum (quorumBytes m sigs) = some (m, sigs) := by
  have hn : (UInt8.ofNat sigs.length).toNat = sigs.length := UInt8.toNat_ofNat_of_lt' (by
    rw [UInt8.size]
    omega)
  have htake := takeSigs_flatMap hlen []
  rw [List.append_nil] at htake
  simp only [decodeAdminQuorum, quorumBytes, adminQuorumMagic, List.cons_append, List.nil_append,
    hn, htake, ne_eq, not_true_eq_false, if_false]

theorem encodeAdminQuorum_eq_ok_iff {m : UInt8} {sigs : List Bytes} {bundle : Bytes} :
    encodeAdminQuorum m sigs = .ok bundle ↔
      (m ≠ 0 ∧ m.toNat ≤ sigs.length ∧ sigs.length ≤ 255) ∧
        (∀ sig ∈ sigs, sig.length < 2 ^ 32) ∧ quorumBytes m sigs = bundle := by
  have hpos : m ≠ 0 ↔ 0 < m.toNat := by
    rw [Nat.pos_iff_ne_zero, ne_eq, ne_eq, ← UInt8.toNat_inj, UInt8.toNat_zero]
  have hlengths : (sigs.all fun sig => sig.length < 2 ^ 32) = true ↔
      ∀ sig ∈ sigs, sig.length < 2 ^ 32 := by
    simp only [List.all_eq_true, decide_eq_true_eq]
  rw [encodeAdminQuorum]
  split_ifs with hbad hfits
  · refine iff_of_false nofun ?_
    rintro ⟨⟨hm, hle, hcount⟩, -⟩
    rw [hpos] at hm
    rcases hbad with hzero | hnone | hmany | hlong
    · exact hpos.mpr hm hzero
    · rw [hnone, List.length_nil] at hle
      omega
    · omega
    · omega
  · simp only [not_or] at hbad
    rw [Except.ok.injEq, and_iff_right (hlengths.mp hfits), and_iff_right]
    exact ⟨hbad.1, by omega, by omega⟩
  · exact iff_of_false nofun fun h => hfits (hlengths.mpr h.2.1)

/-- What the reader takes is the number of signatures it is asked for, each short enough for its
length prefix, and the bytes it has read are those that the format writes for them. -/
theorem takeSigs_eq_some_iff {n : ℕ} {rest left : Bytes} {sigs : List Bytes} :
    takeSigs n rest = some (sigs, left) ↔
      sigs.length = n ∧ (∀ sig ∈ sigs, sig.length < 2 ^ 32) ∧
        sigs.flatMap putOpaque ++ left = rest := by
  constructor
  · intro h
    induction n generalizing rest sigs with
    | zero =>
      obtain ⟨rfl, rfl⟩ := Prod.mk.inj (Option.some.inj h)
      exact ⟨rfl, List.forall_mem_nil _, rfl⟩
    | succ n ih =>
      simp only [takeSigs] at h
      split_ifs at h with hprefix henough
      obtain ⟨⟨tail, left'⟩, htail, heq⟩ := Option.map_eq_some_iff.mp h
      obtain ⟨rfl, rfl⟩ := Prod.mk.inj heq
      obtain ⟨hlength, hfits, hrest⟩ := ih htail
      -- the prefix is the encoding of the length that was read from it
      have htake : (rest.take 4).length = 4 := List.length_take_of_le (not_lt.mp hprefix)
      have hbound := readBE_lt (rest.take 4)
      have hprefixed := beBytes_readBE (rest.take 4)
      rw [htake] at hbound hprefixed
      have hlen : ((rest.drop 4).take (readBE (rest.take 4))).length = readBE (rest.take 4) :=
        List.length_take_of_le (not_lt.mp henough)
      refine ⟨?_, List.forall_mem_cons.mpr ⟨?_, hfits⟩, ?_⟩
      · rw [List.length_cons, hlength]
      · rw [hlen]
        exact hbound
      · rw [List.flatMap_cons, putOpaque, hlen, hprefixed, List.append_assoc, List.append_assoc,
          hrest, List.take_append_drop, List.take_append_drop]
  · rintro ⟨rfl, hfits, rfl⟩
    exact takeSigs_flatMap hfits left

/-- The byte strings of the format: the number of signatures fits its byte and each length its
prefix. -/
def QuorumFramed (m : UInt8) (sigs : List Bytes) (bytes : Bytes) : Prop :=
  sigs.length ≤ 255 ∧ (∀ sig ∈ sigs, sig.length < 2 ^ 32) ∧ quorumBytes m sigs = bytes

/-- The decoder accepts every byte string of the format, whatever its threshold. -/
theorem decodeAdminQuorum_eq_some_iff {bytes : Bytes} {m : UInt8} {sigs : List Bytes} :
    decodeAdminQuorum bytes = some (m, sigs) ↔ QuorumFramed m sigs bytes := by
  constructor
  · intro h
    unfold decodeAdminQuorum at h
    split at h
    · next b₀ b₁ b₂ b₃ m' n rest =>
      split_ifs at h with hmagic
      split at h
      · next htake =>
        obtain ⟨rfl, rfl⟩ := Prod.mk.inj (Option.some.inj h)
        obtain ⟨hcount, hfits, hrest⟩ := takeSigs_eq_some_iff.mp htake
        have hn := n.toNat_lt
        refine ⟨by omega, hfits, ?_⟩
        rw [List.append_nil] at hrest
        rw [quorumBytes, hcount, UInt8.ofNat_toNat, hrest, ← not_not.mp hmagic]
        rfl
      · cases h
    · cases h
  · rintro ⟨hcount, hfits, rfl⟩
    exact decodeAdminQuorum_quorumBytes m hcount hfits

/-- A bundle of signatures of one length. -/
theorem length_quorumBytes_of_forall {m : UInt8} {sigs : List Bytes} {len : ℕ}
    (h : ∀ sig ∈ sigs, sig.length = len) :
    (quorumBytes m sigs).length = 6 + sigs.length * (4 + len) := by
  have hbody : (sigs.flatMap putOpaque).length = sigs.length * (4 + len) :=
    length_flatMap_of_forall sigs fun sig hsig => by
      rw [putOpaque, List.length_append, length_beBytes, h sig hsig]
  simp only [quorumBytes, adminQuorumMagic, List.length_append, List.length_cons, List.length_nil,
    hbody]
  omega

/-- A bundle names at most 255 signatures. -/
theorem length_le_of_decodeAdminQuorum {bytes : Bytes} {m : UInt8} {sigs : List Bytes}
    (h : decodeAdminQuorum bytes = some (m, sigs)) : sigs.length ≤ 255 :=
  (decodeAdminQuorum_eq_some_iff.mp h).1

/-- The encoder makes the byte strings of the format whose threshold is in reach. -/
theorem encodeAdminQuorum_eq_ok_iff_framed {m : UInt8} {sigs : List Bytes} {bytes : Bytes} :
    encodeAdminQuorum m sigs = .ok bytes ↔
      (m ≠ 0 ∧ m.toNat ≤ sigs.length) ∧ QuorumFramed m sigs bytes := by
  rw [encodeAdminQuorum_eq_ok_iff, QuorumFramed, and_assoc, and_assoc, and_assoc]

/-- The decoder inverts the encoder on a byte string exactly when the string is not of the format
or the threshold it carries is in reach. -/
theorem decodeAdminQuorum_inverts_iff (bytes : Bytes) (m : UInt8) (sigs : List Bytes) :
    (decodeAdminQuorum bytes = some (m, sigs) ↔ encodeAdminQuorum m sigs = .ok bytes) ↔
      (QuorumFramed m sigs bytes → m ≠ 0 ∧ m.toNat ≤ sigs.length) := by
  rw [decodeAdminQuorum_eq_some_iff, encodeAdminQuorum_eq_ok_iff_framed]
  constructor
  · intro h hframed
    exact (h.mp hframed).1
  · intro h
    exact ⟨fun hframed => ⟨h hframed, hframed⟩, fun hencoded => hencoded.2⟩

/-- A bundle with threshold zero and no signature decodes, and so does one whose threshold is
above the number of its signatures; the encoder makes neither. -/
theorem decodeAdminQuorum_not_inverse :
    ¬ (∀ (bytes : Bytes) (m : UInt8) (sigs : List Bytes),
      decodeAdminQuorum bytes = some (m, sigs) ↔ encodeAdminQuorum m sigs = .ok bytes) ∧
    decodeAdminQuorum [0x53, 0x48, 0x51, 0x31, 0, 0] = some (0, []) ∧
    decodeAdminQuorum [0x53, 0x48, 0x51, 0x31, 2, 1, 0, 0, 0, 1, 7] = some (2, [[7]]) ∧
    (∀ bytes, encodeAdminQuorum 0 [] ≠ .ok bytes) ∧
    ∀ bytes, encodeAdminQuorum 2 [[7]] ≠ .ok bytes := by
  have hempty : decodeAdminQuorum [0x53, 0x48, 0x51, 0x31, 0, 0] = some (0, []) := by
    decide +kernel
  have hexcess : decodeAdminQuorum [0x53, 0x48, 0x51, 0x31, 2, 1, 0, 0, 0, 1, 7] =
      some (2, [[7]]) := by
    decide +kernel
  have hrefused : ∀ bytes, encodeAdminQuorum 0 [] ≠ .ok bytes := fun bytes h =>
    (encodeAdminQuorum_eq_ok_iff.mp h).1.1 rfl
  refine ⟨fun hinverse => ?_, hempty, hexcess, hrefused, fun bytes h => ?_⟩
  · exact hrefused _ ((hinverse _ _ _).mp hempty)
  · exact absurd (encodeAdminQuorum_eq_ok_iff.mp h).1.2.1 (by decide)

/-! ### Signing and verifying -/

section Verify

variable {D : Type*} [Sha512 D] [MlDsa87]

/-- Domain-separated admin co-signature over a non-fast-forward update. -/
def adminCosigSign (admin : MlDsa87KeyPair) (repo : RepoId) (epoch : UInt64) (op : String)
    (seq : UInt64) (prevHead newRefsDigest rosterDigest : D) : Except ClientError Bytes :=
  orOther (admin.sign (adminCosigMessage repo epoch op seq prevHead newRefsDigest rosterDigest
    adminCosigPolicyVersion))

/-- Verify one admin co-signature. -/
def adminCosigVerify (adminVk : Bytes) (repo : RepoId) (epoch : UInt64) (op : String)
    (seq : UInt64) (prevHead newRefsDigest rosterDigest : D) (cosig : Bytes) :
    Except ClientError Unit :=
  orOther (mldsaVerify adminVk (adminCosigMessage repo epoch op seq prevHead newRefsDigest
    rosterDigest adminCosigPolicyVersion) cosig)

/-- Sign with several admin keys and pack the signatures into a bundle. -/
def adminQuorumSign (admins : List MlDsa87KeyPair) (m : UInt8) (repo : RepoId) (epoch : UInt64)
    (op : String) (seq : UInt64) (prevHead newRefsDigest rosterDigest : D) :
    Except ClientError Bytes := do
  let sigs ← admins.mapM fun admin =>
    adminCosigSign admin repo epoch op seq prevHead newRefsDigest rosterDigest
  encodeAdminQuorum m sigs

/-- Verify m-of-n admin co-signatures, or a single one against the first key.
The `i`-th signature of a bundle is checked under the `i`-th key only. -/
def adminQuorumVerify (vks : List Bytes) (repo : RepoId) (epoch : UInt64) (op : String)
    (seq : UInt64) (prevHead newRefsDigest rosterDigest : D) (cosigBytes : Bytes) :
    Except ClientError Unit :=
  let msg := adminCosigMessage repo epoch op seq prevHead newRefsDigest rosterDigest
    adminCosigPolicyVersion
  match decodeAdminQuorum cosigBytes with
  | some (m, sigs) =>
    if vks.length < sigs.length then
      .error (.other "fewer admin verifying keys than quorum signatures")
    else
      let ok := satCount (fun pair => mldsaValid pair.1 msg pair.2) (vks.zip sigs)
      if ok < m then
        .error (.other s!"admin quorum failed: {ok}/{m} valid")
      else
        .ok ()
  | none =>
    match vks.head? with
    | some vk => orOther (mldsaVerify vk msg cosigBytes)
    | none => .error (.other "admin verifying key required")

/-! ### What verification counts -/

/-- A bundle whose signatures each stand at the position of the one key that made them. -/
structure SignedInPlace (vks : List Bytes) (msg : Bytes) (m : UInt8) (sigs : List Bytes) :
    Prop where
  positive : m ≠ 0
  nodup : vks.Nodup
  short : sigs.length ≤ vks.length
  placed : ∀ vk ∈ vks, ∀ sig ∈ sigs, mldsaValid vk msg sig → (vk, sig) ∈ vks.zip sigs

/-- The bundles on which counting position by position does no harm. -/
structure QuorumAligned (vks : List Bytes) (msg : Bytes) (m : UInt8) (sigs : List Bytes) :
    Prop where
  /-- A bundle with more signatures than there are keys is one that too few have signed. -/
  overlong : vks.length < sigs.length →
    (distinctSigners (mldsaValid · msg) vks sigs).card < max m.toNat 1
  /-- A bundle with threshold zero is signed by someone. -/
  signed : sigs.length ≤ vks.length → m = 0 →
    0 < (distinctSigners (mldsaValid · msg) vks sigs).card
  /-- No more signers have their signature at the position of another key than are to spare. -/
  displaced : sigs.length ≤ vks.length →
    m.toNat ≤ (distinctSigners (mldsaValid · msg) vks sigs).card →
    displacedCount (mldsaValid · msg) vks sigs ≤
      (distinctSigners (mldsaValid · msg) vks sigs).card - m.toNat +
        doubledCount (mldsaValid · msg) vks sigs
  /-- Keys listed several times do not make up for the signers that are missing. -/
  doubled : sigs.length ≤ vks.length →
    (distinctSigners (mldsaValid · msg) vks sigs).card < m.toNat →
    doubledCount (mldsaValid · msg) vks sigs <
      m.toNat - (distinctSigners (mldsaValid · msg) vks sigs).card +
        displacedCount (mldsaValid · msg) vks sigs

theorem SignedInPlace.quorumAligned {vks : List Bytes} {msg : Bytes} {m : UInt8}
    {sigs : List Bytes} (h : SignedInPlace vks msg m sigs) : QuorumAligned vks msg m sigs where
  overlong hlong := absurd h.short (Nat.not_le.mpr hlong)
  signed _ hm := absurd hm h.positive
  displaced _ _ := by
    rw [displacedCount_eq_zero h.placed]
    exact Nat.zero_le _
  doubled _ hfew := by
    rw [doubledCount_eq_zero h.nodup]
    omega

/-- On a bundle, verification accepts exactly when no signature is in excess and
`m` of them are valid at their own position. -/
theorem adminQuorumVerify_eq_ok_iff {vks : List Bytes} {repo : RepoId} {epoch : UInt64}
    {op : String} {seq : UInt64} {prevHead newRefsDigest rosterDigest : D} {bundle : Bytes}
    {m : UInt8} {sigs : List Bytes} (hdecode : decodeAdminQuorum bundle = some (m, sigs)) :
    adminQuorumVerify vks repo epoch op seq prevHead newRefsDigest rosterDigest bundle = .ok () ↔
      sigs.length ≤ vks.length ∧
        m.toNat ≤ alignedCount (mldsaValid · (adminCosigMessage repo epoch op seq prevHead
          newRefsDigest rosterDigest adminCosigPolicyVersion)) vks sigs := by
  set msg := adminCosigMessage repo epoch op seq prevHead newRefsDigest rosterDigest
    adminCosigPolicyVersion with hmsg
  have hlength : (vks.zip sigs).length ≤ 255 := by
    have hsigs := length_le_of_decodeAdminQuorum hdecode
    rw [List.length_zip]
    omega
  -- the counter is a byte, and no bundle is long enough to wrap it
  have hcount := toNat_satCount_of_length_le
    (fun pair : Bytes × Bytes => mldsaValid pair.1 msg pair.2) hlength
  simp only [adminQuorumVerify, hdecode, ← hmsg]
  by_cases hfew : vks.length < sigs.length
  · rw [if_pos hfew]
    refine iff_of_false nofun fun ⟨hshort, _⟩ => ?_
    omega
  · rw [if_neg hfew]
    split_ifs with hok
    · rw [UInt8.lt_iff_toNat_lt, hcount] at hok
      refine iff_of_false nofun fun ⟨_, hmany⟩ => ?_
      rw [alignedCount] at hmany
      omega
    · rw [UInt8.lt_iff_toNat_lt, hcount] at hok
      simp only [alignedCount, true_iff]
      omega

/-- The check counts exactly the signers where displaced signatures and doubled keys do not
matter. -/
theorem aligned_exact_iff {vks : List Bytes} {msg : Bytes} {m : UInt8} {sigs : List Bytes} :
    ((sigs.length ≤ vks.length ∧ m.toNat ≤ alignedCount (mldsaValid · msg) vks sigs) ↔
        max m.toNat 1 ≤ (distinctSigners (mldsaValid · msg) vks sigs).card) ↔
      QuorumAligned vks msg m sigs := by
  have hzero : m = 0 ↔ m.toNat = 0 := by rw [← UInt8.toNat_inj, UInt8.toNat_zero]
  -- valid positions are signers, less the displaced ones and more with keys listed again
  have hbalance : alignedCount (mldsaValid · msg) vks sigs +
      displacedCount (mldsaValid · msg) vks sigs =
      (distinctSigners (mldsaValid · msg) vks sigs).card +
        doubledCount (mldsaValid · msg) vks sigs :=
    alignedCount_add_displacedCount vks sigs
  constructor
  · intro hexact
    refine ⟨fun hlong => ?_, fun hshort hm => ?_, fun hshort hmany => ?_, fun hshort hfew => ?_⟩
    · by_contra hmany
      exact absurd (hexact.mpr (not_lt.mp hmany)).1 (Nat.not_le.mpr hlong)
    · have hsigned := hexact.mp ⟨hshort, by rw [hzero.mp hm]; exact Nat.zero_le _⟩
      omega
    · by_cases hm : m.toNat = 0
      · omega
      · have haligned := (hexact.mpr (by omega)).2
        omega
    · by_contra hdoubled
      have hsigned := hexact.mp ⟨hshort, by omega⟩
      omega
  · rintro ⟨hoverlong, hsigned, hdisplaced, hdoubled⟩
    constructor
    · rintro ⟨hshort, hmany⟩
      by_contra hfew
      -- a threshold of zero needs a signer; above it enough valid positions are enough signers
      by_cases hm : m.toNat = 0
      · have hpos := hsigned hshort (hzero.mpr hm)
        omega
      · have hless := hdoubled hshort (by omega)
        omega
    · intro hmany
      have hshort : sigs.length ≤ vks.length := by
        by_contra hlong
        have hfew := hoverlong (not_le.mp hlong)
        omega
      have hspare := hdisplaced hshort (by omega)
      exact ⟨hshort, by omega⟩

/-- Verification counts distinct signers against the threshold on every bundle whose signatures
stand in place, and in general exactly on the aligned ones. -/
theorem adminQuorumVerify_exact_iff (vks : List Bytes) (repo : RepoId) (epoch : UInt64)
    (op : String) (seq : UInt64) (prevHead newRefsDigest rosterDigest : D) (bundle : Bytes)
    (m : UInt8) (sigs : List Bytes) (hdecode : decodeAdminQuorum bundle = some (m, sigs)) :
    (SignedInPlace vks (adminCosigMessage repo epoch op seq prevHead newRefsDigest rosterDigest
        adminCosigPolicyVersion) m sigs →
      (adminQuorumVerify vks repo epoch op seq prevHead newRefsDigest rosterDigest bundle = .ok () ↔
        max m.toNat 1 ≤ (distinctSigners (mldsaValid · (adminCosigMessage repo epoch op seq prevHead
          newRefsDigest rosterDigest adminCosigPolicyVersion)) vks sigs).card)) ∧
    ((adminQuorumVerify vks repo epoch op seq prevHead newRefsDigest rosterDigest bundle = .ok () ↔
      max m.toNat 1 ≤ (distinctSigners (mldsaValid · (adminCosigMessage repo epoch op seq prevHead
        newRefsDigest rosterDigest adminCosigPolicyVersion)) vks sigs).card) ↔
    QuorumAligned vks (adminCosigMessage repo epoch op seq prevHead newRefsDigest rosterDigest
      adminCosigPolicyVersion) m sigs) := by
  rw [adminQuorumVerify_eq_ok_iff hdecode]
  exact ⟨fun hplaced => aligned_exact_iff.mpr hplaced.quorumAligned, aligned_exact_iff⟩

end Verify

section Transparent

attribute [local instance] transparentSha512 transparentMlDsa87

/-- The message co-signed in the concrete bundles below. -/
def sampleCosigMessage : Bytes :=
  adminCosigMessage (D := Bytes) (Vector.replicate 32 0) 1 "push" 1 [] [] []
    adminCosigPolicyVersion

/-- The verifying keys of the admins with the given flat seeds. -/
def flatKeys (seeds : List UInt8) : List Bytes := seeds.map fun b => paddedKey (flatSeed b)

/-- Signatures on `msg` by the admins with the given flat seeds. -/
def flatSigs (msg : Bytes) (seeds : List UInt8) : List Bytes :=
  seeds.map fun b => clearSig (flatSeed b) msg

theorem decodeAdminQuorum_flatSigs (m : UInt8) (msg : Bytes) {seeds : List UInt8}
    (h : seeds.length ≤ 255) :
    decodeAdminQuorum (quorumBytes m (flatSigs msg seeds)) = some (m, flatSigs msg seeds) := by
  refine decodeAdminQuorum_quorumBytes m (by simpa [flatSigs] using h) fun sig hsig => ?_
  obtain ⟨b, -, rfl⟩ := List.mem_map.mp hsig
  rw [length_clearSig_flatSeed]
  decide

theorem two_le_card_distinctSigners_flatSigs (msg : Bytes) {seeds : List UInt8} {b c : UInt8}
    (hb : b ∈ seeds) (hc : c ∈ seeds) (hne : b ≠ c) :
    2 ≤ (distinctSigners (mldsaValid · msg) (flatKeys seeds) (flatSigs msg [b, c])).card := by
  have hmem : ∀ x ∈ seeds, x ∈ [b, c] → paddedKey (flatSeed x) ∈
      distinctSigners (mldsaValid · msg) (flatKeys seeds) (flatSigs msg [b, c]) := by
    intro x hseed hsigned
    exact mem_distinctSigners.mpr ⟨List.mem_map.mpr ⟨x, hseed, rfl⟩,
      _, List.mem_map.mpr ⟨x, hsigned, rfl⟩, by simp⟩
  exact Finset.one_lt_card.mpr ⟨_, hmem b hb (by simp), _, hmem c hc (by simp),
    paddedKey_flatSeed_inj.not.mpr hne⟩

/-- The second and third of three admins sign a bundle with threshold two. It is
rejected, because each signature stands at the position of another key. -/
theorem adminQuorumVerify_second_and_third :
    let sigs := flatSigs sampleCosigMessage [2, 3]
    decodeAdminQuorum (quorumBytes 2 sigs) = some (2, sigs) ∧
    ¬ (adminQuorumVerify (D := Bytes) (flatKeys [1, 2, 3]) (Vector.replicate 32 0) 1 "push" 1
          [] [] [] (quorumBytes 2 sigs) = .ok () ↔
        max (2 : UInt8).toNat 1 ≤ (distinctSigners (mldsaValid · sampleCosigMessage)
          (flatKeys [1, 2, 3]) sigs).card) := by
  intro sigs
  have hdecode : decodeAdminQuorum (quorumBytes 2 sigs) = some (2, sigs) :=
    decodeAdminQuorum_flatSigs 2 _ (by decide)
  refine ⟨hdecode, fun hexact => ?_⟩
  have htwo := two_le_card_distinctSigners_flatSigs sampleCosigMessage
    (show 2 ∈ [1, 2, 3] by simp) (show 3 ∈ [1, 2, 3] by simp) (by decide)
  have hplaced := ((adminQuorumVerify_eq_ok_iff hdecode).mp (hexact.mpr htwo)).2
  have hnone : alignedCount (mldsaValid · sampleCosigMessage) (flatKeys [1, 2, 3]) sigs = 0 := by
    simp [alignedCount, flatKeys, flatSigs, sigs]
  rw [sampleCosigMessage] at hnone
  rw [hnone] at hplaced
  exact absurd hplaced (by decide)

theorem signedInPlace_first_and_second :
    SignedInPlace (flatKeys [1, 2, 3]) sampleCosigMessage 2
      (flatSigs sampleCosigMessage [1, 2]) where
  positive := by decide
  nodup := by simp [flatKeys, paddedKey_flatSeed_inj]
  short := by simp [flatKeys, flatSigs]
  placed := by simp [flatKeys, flatSigs]

/-- Two of three admins in key order: verification counts them both. -/
theorem adminQuorumVerify_first_and_second :
    let sigs := flatSigs sampleCosigMessage [1, 2]
    decodeAdminQuorum (quorumBytes 2 sigs) = some (2, sigs) ∧
    SignedInPlace (flatKeys [1, 2, 3]) sampleCosigMessage 2 sigs ∧
    (adminQuorumVerify (D := Bytes) (flatKeys [1, 2, 3]) (Vector.replicate 32 0) 1 "push" 1
          [] [] [] (quorumBytes 2 sigs) = .ok () ↔
        max (2 : UInt8).toNat 1 ≤ (distinctSigners (mldsaValid · sampleCosigMessage)
          (flatKeys [1, 2, 3]) sigs).card) := by
  intro sigs
  have hdecode : decodeAdminQuorum (quorumBytes 2 sigs) = some (2, sigs) :=
    decodeAdminQuorum_flatSigs 2 _ (by decide)
  exact ⟨hdecode, signedInPlace_first_and_second,
    (adminQuorumVerify_exact_iff (flatKeys [1, 2, 3]) (Vector.replicate 32 0) 1 "push" 1
      ([] : Bytes) [] [] _ 2 _ hdecode).1 signedInPlace_first_and_second⟩

end Transparent

end SafeHub
