import SafeHub.Client.Policy
import Mathlib.Data.Set.Function

/-!
# What an admin's co-signature covers

The transcript of an admin co-signature has one field of variable length, the operation's
name, behind its length. Two statements with one transcript are therefore the same
statement, and where signatures are ideal a co-signature verifies for the statement it was
issued for and for no other.

## Main definitions

* `CosigStatement` — what an admin co-signs
* `IdealSignaturesOn` — a signature on one of these messages is none on another
* `rosterBytes` — the transcript under the roster's digest

## Main results

* `CosigStatement.message_inj` — the transcript determines the statement
* `adminCosig_binds` — a co-signature binds the transition, the repository and the roster
-/

namespace SafeHub

open FixedWidth

/-- What an admin co-signs: a step of one repository's heads under a roster. The name of
the operation has a 32-bit length. -/
structure CosigStatement (D : Type) where
  repoId : RepoId
  epoch : UInt64
  op : String
  seq : UInt64
  prevHead : D
  newRefsDigest : D
  rosterDigest : D
  length_op : (strBytes op).length < 2 ^ 32

/-- Signatures on these messages are ideal: no key accepts the signature that a key pair made
for one of them as a signature on another. -/
def IdealSignaturesOn [MlDsa87] (messages : Set Bytes) : Prop :=
  ∀ message ∈ messages, ∀ message' ∈ messages, ∀ (pair : MlDsa87KeyPair) (vk sig : Bytes),
    pair.sign message = .ok sig → mldsaValid vk message' sig = true → message' = message

theorem IdealSignaturesOn.mono [MlDsa87] {messages messages' : Set Bytes}
    (h : IdealSignaturesOn messages) (hsub : messages' ⊆ messages) : IdealSignaturesOn messages' :=
  fun message hmessage message' hmessage' => h message (hsub hmessage) message' (hsub hmessage')

variable {D : Type} [Sha512 D]

namespace CosigStatement

/-- The transcript of a statement under a policy version. -/
def message (s : CosigStatement D) (policyVersion : UInt32) : Bytes :=
  adminCosigMessage s.repoId s.epoch s.op s.seq s.prevHead s.newRefsDigest s.rosterDigest
    policyVersion.toNat

section Scheme

variable [MlDsa87]

/-- Co-sign a statement. -/
def sign (admin : MlDsa87KeyPair) (s : CosigStatement D) : Except ClientError Bytes :=
  adminCosigSign admin s.repoId s.epoch s.op s.seq s.prevHead s.newRefsDigest s.rosterDigest

/-- Verify a co-signature on a statement. -/
def verify (vk : Bytes) (s : CosigStatement D) (cosig : Bytes) : Except ClientError Unit :=
  adminCosigVerify vk s.repoId s.epoch s.op s.seq s.prevHead s.newRefsDigest s.rosterDigest cosig

theorem sign_eq_ok_iff {admin : MlDsa87KeyPair} {s : CosigStatement D} {cosig : Bytes} :
    s.sign admin = .ok cosig ↔ admin.sign (s.message 1) = .ok cosig :=
  orOther_eq_ok_iff

theorem verify_eq_ok_iff {vk : Bytes} {s : CosigStatement D} {cosig : Bytes} :
    s.verify vk cosig = .ok () ↔ mldsaVerify vk (s.message 1) cosig = .ok () :=
  orOther_eq_ok_iff

end Scheme

variable [DigestBytes D] {s s' : CosigStatement D} {version version' : UInt32}

/-- The transcript determines the statement and the policy version. -/
theorem message_inj : s.message version = s'.message version' ↔ s = s' ∧ version = version' := by
  constructor
  · intro h
    simp only [message, adminCosigMessage, List.append_assoc] at h
    -- the fields in front of the operation's name stand at fixed places
    have hafter := List.append_cancel_left h
    obtain ⟨hrepo, hafter⟩ := List.append_inj hafter (by simp)
    obtain ⟨hepoch, hafter⟩ := List.append_inj hafter (by simp)
    obtain ⟨hlen, hafter⟩ := List.append_inj hafter (by simp)
    have hlength := leBytes_injective s.length_op s'.length_op hlen
    obtain ⟨hop, hafter⟩ := List.append_inj hafter hlength
    -- and so do the others once the name is cut off
    obtain ⟨hseq, hafter⟩ := List.append_inj hafter (by simp)
    obtain ⟨hprev, hafter⟩ := List.append_inj hafter (by simp)
    obtain ⟨hrefs, hafter⟩ := List.append_inj hafter (by simp)
    obtain ⟨hroster, hversion⟩ := List.append_inj hafter (by simp)
    have hsame := leBytes_injective version.toNat_lt version'.toNat_lt hversion
    cases s
    cases s'
    simp only [CosigStatement.mk.injEq]
    exact ⟨⟨Vector.toList_inj.mp hrepo, u64LE_injective hepoch, strBytes_injective hop,
      u64LE_injective hseq, toBytes_injective hprev, toBytes_injective hrefs,
      toBytes_injective hroster⟩, UInt32.toNat_inj.mp hsame⟩
  · rintro ⟨rfl, rfl⟩
    rfl

end CosigStatement

/-! ### Rosters -/

/-- A key behind its length. -/
def rosterEntry (vk : Bytes) : Bytes := leBytes 4 (vk.length % 2 ^ 32) ++ vk

/-- The transcript under the digest of a roster. -/
def rosterBytes (roster : List Bytes) : Bytes :=
  labelBytes "roster-digest" ++ leBytes 4 (roster.length % 2 ^ 32) ++
    (roster.insertionSort (· ≤ ·)).flatMap rosterEntry

theorem rosterDigest_eq (roster : List Bytes) :
    (rosterDigest roster : D) = Sha512.digest (rosterBytes roster) := by
  rw [rosterDigest, rosterBytes, List.length_insertionSort]
  rfl

/-- The roster's length and its keys' lengths have 32 bits. -/
structure RosterFits (roster : List Bytes) : Prop where
  length_lt : roster.length < 2 ^ 32
  key_lt : ∀ vk ∈ roster, vk.length < 2 ^ 32

/-- Keys behind their lengths, written one after the other, can be read back. -/
theorem flatMap_rosterEntry_inj {vks vks' : List Bytes} (hlength : vks.length = vks'.length)
    (hvks : ∀ vk ∈ vks, vk.length < 2 ^ 32) (hvks' : ∀ vk ∈ vks', vk.length < 2 ^ 32)
    (h : vks.flatMap rosterEntry = vks'.flatMap rosterEntry) : vks = vks' := by
  induction vks generalizing vks' with
  | nil => exact (List.length_eq_zero_iff.mp hlength.symm).symm
  | cons vk vks ih =>
    cases vks' with
    | nil => cases hlength
    | cons vk' vks' =>
      rw [List.forall_mem_cons] at hvks hvks'
      simp only [List.flatMap_cons, rosterEntry, List.append_assoc, Nat.mod_eq_of_lt hvks.1,
        Nat.mod_eq_of_lt hvks'.1] at h
      obtain ⟨hlen, hafter⟩ := List.append_inj h (by simp)
      obtain ⟨hvk, hrest⟩ := List.append_inj hafter (leBytes_injective hvks.1 hvks'.1 hlen)
      rw [hvk, ih (Nat.succ.inj hlength) hvks.2 hvks'.2 hrest]

/-- The transcript of a roster determines it up to the order of its keys. -/
theorem perm_of_rosterBytes_eq {roster roster' : List Bytes} (hfits : RosterFits roster)
    (hfits' : RosterFits roster') (h : rosterBytes roster = rosterBytes roster') :
    roster.Perm roster' := by
  rw [rosterBytes, rosterBytes, List.append_assoc, List.append_assoc] at h
  obtain ⟨hcount, hkeys⟩ := List.append_inj (List.append_cancel_left h) (by simp)
  rw [Nat.mod_eq_of_lt hfits.length_lt, Nat.mod_eq_of_lt hfits'.length_lt] at hcount
  have hlength := leBytes_injective hfits.length_lt hfits'.length_lt hcount
  have hperm := List.perm_insertionSort (· ≤ ·) roster
  have hperm' := List.perm_insertionSort (· ≤ ·) roster'
  have hsorted := flatMap_rosterEntry_inj (by rwa [hperm.length_eq, hperm'.length_eq])
    (fun vk hvk => hfits.key_lt vk (hperm.mem_iff.mp hvk))
    (fun vk hvk => hfits'.key_lt vk (hperm'.mem_iff.mp hvk)) hkeys
  exact hperm.symm.trans (hsorted ▸ hperm')

/-- The transcript of a roster does not depend on the order of its keys. -/
theorem rosterBytes_perm {roster roster' : List Bytes} (h : roster.Perm roster') :
    rosterBytes roster = rosterBytes roster' := by
  have hperm : (roster.insertionSort (· ≤ ·)).Perm (roster'.insertionSort (· ≤ ·)) :=
    ((List.perm_insertionSort _ roster).trans h).trans (List.perm_insertionSort _ roster').symm
  have hsorted := hperm.eq_of_pairwise' (List.pairwise_insertionSort _ roster)
    (List.pairwise_insertionSort _ roster')
  rw [rosterBytes, rosterBytes, h.length_eq, hsorted]

/-- Where the hash keeps their transcripts apart, two rosters have one digest just when one is a
permutation of the other. -/
theorem rosterDigest_eq_iff_perm {roster roster' : List Bytes} (hfits : RosterFits roster)
    (hfits' : RosterFits roster')
    (hdigest : Set.InjOn (Sha512.digest : Bytes → D) {rosterBytes roster, rosterBytes roster'}) :
    (rosterDigest roster : D) = rosterDigest roster' ↔ roster.Perm roster' := by
  rw [rosterDigest_eq, rosterDigest_eq]
  constructor
  · intro heq
    exact perm_of_rosterBytes_eq hfits hfits' (hdigest (.inl rfl) (.inr rfl) heq)
  · intro hperm
    rw [rosterBytes_perm hperm]

/-- Two keys in either order have one digest, and the same bytes split otherwise have another. -/
theorem rosterDigest_eq_iff_perm_split :
    letI : Sha512 Bytes := transparentSha512
    ((rosterDigest [[1, 2], [3]] : Bytes) = rosterDigest [[3], [1, 2]]) ∧
      (rosterDigest [[1, 2], [3]] : Bytes) ≠ rosterDigest [[1], [2, 3]] := by
  let : Sha512 Bytes := transparentSha512
  have hfits : ∀ a b : Bytes, a.length < 3 → b.length < 3 → RosterFits [a, b] := by
    intro a b ha hb
    refine ⟨by simp, fun vk hvk => ?_⟩
    rcases List.mem_pair.mp hvk with rfl | rfl <;> omega
  have hinj : ∀ roster roster', Set.InjOn (Sha512.digest : Bytes → Bytes)
      {rosterBytes roster, rosterBytes roster'} := fun _ _ => Function.injective_id.injOn
  refine ⟨(rosterDigest_eq_iff_perm (hfits _ _ (by decide) (by decide))
    (hfits _ _ (by decide) (by decide)) (hinj _ _)).mpr (List.Perm.swap _ _ _), fun heq => ?_⟩
  have hperm := (rosterDigest_eq_iff_perm (hfits _ _ (by decide) (by decide))
    (hfits _ _ (by decide) (by decide)) (hinj _ _)).mp heq
  exact absurd (hperm.mem_iff.mp List.mem_cons_self) (by decide)

/-! ### What a co-signature binds -/

section Binds

variable [DigestBytes D] [MlDsa87]

/-- Equal transcripts have equal fields. Where signatures on the transcripts of some statements
are ideal, a co-signature issued for one of them verifies for that one only; and where the hash
keeps two rosters' transcripts apart, a statement's digest names one of them. -/
theorem adminCosig_binds :
    (∀ (s s' : CosigStatement D) (version version' : UInt32),
      s.message version = s'.message version' → s = s' ∧ version = version') ∧
    (∀ statements : Set (CosigStatement D),
      IdealSignaturesOn ((·.message 1) '' statements) →
      ∀ s ∈ statements, ∀ s' ∈ statements, ∀ (admin : MlDsa87KeyPair) (vk cosig : Bytes),
        s.sign admin = .ok cosig → s'.verify vk cosig = .ok () → s' = s) ∧
    ∀ roster roster' : List Bytes, RosterFits roster → RosterFits roster' →
      Set.InjOn (Sha512.digest : Bytes → D) {rosterBytes roster, rosterBytes roster'} →
      (rosterDigest roster : D) = rosterDigest roster' → roster.Perm roster' := by
  refine ⟨fun s s' version version' h => CosigStatement.message_inj.mp h, ?_, ?_⟩
  · intro statements hideal s hs s' hs' admin vk cosig hsign hverify
    have hvalid : mldsaValid vk (s'.message 1) cosig = true := by
      rw [mldsaValid, CosigStatement.verify_eq_ok_iff.mp hverify]
      rfl
    have hmessage := hideal _ (Set.mem_image_of_mem _ hs) _ (Set.mem_image_of_mem _ hs') admin vk
      cosig (CosigStatement.sign_eq_ok_iff.mp hsign) hvalid
    exact (CosigStatement.message_inj.mp hmessage).1
  · intro roster roster' hfits hfits' hdigest heq
    rw [rosterDigest_eq, rosterDigest_eq] at heq
    exact perm_of_rosterBytes_eq hfits hfits' (hdigest (.inl rfl) (.inr rfl) heq)

end Binds

section Sample

attribute [local instance] leadingSha512 leadingDigestBytes transparentMlDsa87

/-- On short messages of one length, signatures that show the message are ideal. -/
theorem idealSignaturesOn_of_length {k : ℕ} (hk : k ≤ 4595) :
    IdealSignaturesOn {message : Bytes | message.length = k} := by
  intro message hmessage message' hmessage' pair vk sig hsign hvalid
  rw [MlDsa87KeyPair.sign, signWithSeed] at hsign
  split_ifs at hsign with hseed
  obtain ⟨hvk, haccepts⟩ := accepts_of_mldsaVerify (mldsaVerify_of_valid hvalid)
  have hsame : clearSig (vk.take 32) message' = clearSig pair.seed message :=
    (beq_iff_eq.mp haccepts).symm.trans (Except.ok.inj hsign).symm
  have htake : (vk.take 32).length = pair.seed.length := by
    rw [List.length_take, hvk, hseed]
    rfl
  have hbody := (List.append_inj hsame htake).2
  rw [List.take_append, List.take_append, List.take_of_length_le (hmessage.trans_le hk),
    List.take_of_length_le (hmessage'.trans_le hk)] at hbody
  exact (List.append_inj hbody (hmessage'.trans hmessage.symm)).1

/-- A forced push at a sequence number. -/
def sampleStatement (seq : UInt64) : CosigStatement Digest where
  repoId := Vector.replicate 32 2
  epoch := 3
  op := "push"
  seq := seq
  prevHead := Sha512.zero
  newRefsDigest := Sha512.zero
  rosterDigest := Sha512.zero
  length_op := by
    rw [strBytes_eq]
    decide

theorem length_message_sampleStatement (seq : UInt64) :
    ((sampleStatement seq).message 1).length = 274 := by
  simp only [CosigStatement.message, adminCosigMessage, List.length_append, length_u64LE,
    length_leBytes, Vector.length_toList, DigestBytes.length_toBytes, sampleStatement, labelBytes,
    strBytes_eq]
  decide

/-- A co-signature for sequence 2 verifies for it, and for sequence 3 it does not. -/
theorem adminCosig_binds_sampleStatement :
    ∃ cosig, (sampleStatement 2).sign ⟨flatSeed 7, paddedKey (flatSeed 7)⟩ = .ok cosig ∧
      (sampleStatement 2).verify (paddedKey (flatSeed 7)) cosig = .ok () ∧
      (sampleStatement 3).verify (paddedKey (flatSeed 7)) cosig ≠ .ok () := by
  have hideal : IdealSignaturesOn ((·.message 1) '' {sampleStatement 2, sampleStatement 3}) := by
    apply (idealSignaturesOn_of_length (k := 274) (by decide)).mono
    rintro message ⟨s, rfl | rfl, rfl⟩
    · exact length_message_sampleStatement 2
    · exact length_message_sampleStatement 3
  have hsign : (sampleStatement 2).sign ⟨flatSeed 7, paddedKey (flatSeed 7)⟩ =
      .ok (clearSig (flatSeed 7) ((sampleStatement 2).message 1)) := by
    rw [CosigStatement.sign_eq_ok_iff, MlDsa87KeyPair.sign, signWithSeed,
      if_pos (length_flatSeed 7)]
    rfl
  refine ⟨_, hsign, CosigStatement.verify_eq_ok_iff.mpr (mldsaVerify_of_valid ?_),
    fun hverify => ?_⟩
  · rw [mldsaValid_flatSeed]
    rfl
  · have hsame := adminCosig_binds.2.1 _ hideal (sampleStatement 2) (.inl rfl) (sampleStatement 3)
      (.inr rfl) _ _ _ hsign hverify
    exact absurd (congrArg CosigStatement.seq hsame) (by decide)

end Sample

end SafeHub
