import SafeHub.Client.HonestConsolidation
import SafeHub.Client.Push
import Mathlib.Data.List.Chain

/-!
# The commands that audit and consolidate a repository

`repo consolidate` plans a compaction of all heads and signs the receipt. It hands the planner
the sealed refs of the last head where their plaintext is expected, so the digest in the
receipt is not the one that a reader computes. `repo verify` checks the links and numbers of
the heads against each other, but not the first head's, so it takes any run of linked heads
for a chain.

## Main definitions

* `repoConsolidate` — the receipt the command builds
* `repoVerify` — the lines the audit prints and its result
* `LogFromGenesis` — heads numbered from one and linked from the zero digest
* `LinkedInOrder` — heads linked to and numbered after each other

## Main results

* `repoConsolidate_rejected` — no receipt of the command is accepted
* `repoVerify_ok_iff` — what the audit accepts
* `repoVerify_agrees_iff` — on which heads the audit agrees with the reader's rule
-/

namespace SafeHub

open FixedWidth Consolidate

/-! ### Consolidation -/

section Consolidate

variable {D : Type} [Sha512 D]

/-- `repo consolidate`: plan a compaction of the heads under the current epoch and sign it with
the admin credential. Without heads there is nothing to do. -/
def repoConsolidate [MlDsa87] (repo : RepoId) (material : EpochMaterial Bytes Bytes)
    (admin : MlDsa87KeyPair) (heads : List (RefHead D)) :
    Except ClientError (Option (ConsolidationReceipt D)) :=
  match heads.getLast? with
  | none => .ok none
  | some anchor => do
    let plan ← planCompaction repo (UInt64.ofNat material.epoch) heads anchor.encRefs
      anchor.bundleRoot
    let receipt ← signConsolidation plan.receipt admin
    return some receipt

/-- The transcript under the digest of a checkpoint's refs. -/
def refsBytes (repo : RepoId) (atSeq : UInt64) (refsPlaintext : Bytes) : Bytes :=
  labelBytes "consol-refs" ++ repo.toList ++ u64LE atSeq ++ leBytes 8 refsPlaintext.length ++
    refsPlaintext

theorem length_eq_of_refsBytes_eq {repo : RepoId} {atSeq : UInt64} {refs refs' : Bytes}
    (h : refsBytes repo atSeq refs = refsBytes repo atSeq refs') : refs.length = refs'.length := by
  have hlength := congrArg List.length h
  simpa [refsBytes] using hlength

theorem repoId_of_planConsolidation {repo : RepoId} {epoch : UInt64} {heads : List (RefHead D)}
    {plan : ConsolidationPlan D} (h : planConsolidation repo epoch heads = .ok plan) :
    plan.receipt.repoId = repo := by
  rw [planConsolidation] at h
  split at h
  · split at h
    · cases h
    · rw [← Except.ok.inj h]
  · cases h

section Rejected

variable [MlDsa87] {repo : RepoId} {material : EpochMaterial Bytes Bytes} {admin : MlDsa87KeyPair}
  {heads : List (RefHead D)} {anchor : RefHead D} {receipt : ConsolidationReceipt D}

/-- A receipt of the command names the repository, and its checkpoint is over the sealed refs
of the last head. -/
theorem checkpoint_of_repoConsolidate (hlast : heads.getLast? = some anchor)
    (h : repoConsolidate repo material admin heads = .ok (some receipt)) :
    receipt.repoId = repo ∧ receipt.checkpoint = some {
      atSeq := anchor.seq
      anchorHead := anchor.hash
      refsDigest := Consolidate.refsDigest repo anchor.seq anchor.encRefs
      bundleRoot := anchor.bundleRoot } := by
  rw [repoConsolidate, hlast] at h
  obtain ⟨plan, hplan, h⟩ := bind_eq_ok_iff.mp h
  obtain ⟨signed, hsigned, h⟩ := bind_eq_ok_iff.mp h
  obtain rfl := Option.some.inj (Except.ok.inj h)
  rw [planCompaction] at hplan
  obtain ⟨attested, hattested, hplan⟩ := bind_eq_ok_iff.mp hplan
  rw [hlast] at hplan
  obtain rfl := Except.ok.inj hplan
  rw [signConsolidation] at hsigned
  obtain ⟨sig, -, hsigned⟩ := bind_eq_ok_iff.mp hsigned
  obtain rfl := Except.ok.inj hsigned
  exact ⟨repoId_of_planConsolidation hattested, rfl⟩

/-- The command builds a receipt for every contiguous list of heads. -/
theorem exists_repoConsolidate (repo : RepoId) (material : EpochMaterial Bytes Bytes)
    (hcont : Contiguous heads) (hlast : heads.getLast? = some anchor)
    (hadmin : SignsValidly admin) :
    ∃ receipt, repoConsolidate repo material admin heads = .ok (some receipt) := by
  obtain ⟨first, -, hfirst, -⟩ := exists_ends (List.ne_nil_of_mem (List.mem_of_getLast? hlast))
  obtain ⟨plan, hplan⟩ : ∃ plan, planCompaction repo (UInt64.ofNat material.epoch) heads
      anchor.encRefs anchor.bundleRoot = .ok plan :=
    ⟨_, planCompaction_of_contiguous repo _ hcont hfirst hlast _ _⟩
  obtain ⟨sig, hsign, -⟩ := hadmin (consolidationMessage plan.receipt)
  refine ⟨{ plan.receipt with adminSig := sig }, ?_⟩
  rw [repoConsolidate, hlast]
  refine bind_eq_ok_iff.mpr ⟨_, hplan, bind_eq_ok_iff.mpr ⟨_, ?_, rfl⟩⟩
  rw [signConsolidation, hsign]
  rfl

variable [DecidableEq D] [HashPrimitives]

/-- Whoever can open the last head rejects the command's receipt, unless the hash function
collides on the plaintext of its refs and on their ciphertext. -/
theorem repoConsolidate_rejected (repo : RepoId) (admin : MlDsa87KeyPair)
    (hlast : heads.getLast? = some anchor) {draws : Draws Bytes} {plaintext : Bytes}
    (hopen : openRefs material draws anchor = .ok plaintext)
    (hdigest : Set.InjOn (Sha512.digest : Bytes → D)
      {refsBytes repo anchor.seq plaintext, refsBytes repo anchor.seq anchor.encRefs}) :
    (Contiguous heads → SignsValidly admin →
      ∃ receipt, repoConsolidate repo material admin heads = .ok (some receipt)) ∧
    ∀ receipt adminVks, repoConsolidate repo material admin heads = .ok (some receipt) →
      verifyCheckpointAnchor receipt adminVks anchor plaintext ≠ .ok () := by
  refine ⟨fun hcont hadmin => exists_repoConsolidate repo material hcont hlast hadmin,
    fun receipt adminVks hreceipt haccept => ?_⟩
  obtain ⟨rfl, hcheckpoint⟩ := checkpoint_of_repoConsolidate hlast hreceipt
  -- sealing adds bytes, so the digest is over a longer text
  have hlength : plaintext.length < anchor.encRefs.length := by
    obtain ⟨key, -, hopened⟩ := bind_eq_ok_iff.mp hopen
    have hsealed := CommittingAead.length_of_openSealed (orAead_eq_ok_iff.mp hopened)
    omega
  rw [verifyCheckpointAnchor] at haccept
  split_ifs at haccept
  rw [hcheckpoint] at haccept
  obtain ⟨_, -, hanchor⟩ := bind_eq_ok_iff.mp haccept
  rw [checkAnchor] at hanchor
  split_ifs at hanchor with _ _ _ hrefs _
  have hsame := length_eq_of_refsBytes_eq (hdigest (.inl rfl) (.inr rfl) (not_not.mp hrefs))
  omega

end Rejected

section Sample

attribute [local instance] transparentSha512 transparentHash transparentMlDsa87

/-- A head that seals one byte of refs for the device. -/
def sealedHead : RefHead Bytes :=
  { Consolidate.sampleAnchor with
    encRefs := CommittingAead.sealWithNonce (headSealKey deviceEpochKey 1) (labelBytes "refs") [7]
      (CommittingAead.deterministicNonce 0) }

theorem openRefs_sealedHead : openRefs deviceMaterial ⟨[], []⟩ sealedHead = .ok [7] :=
  bind_eq_ok_iff.mpr ⟨headSealKey deviceEpochKey 1,
    congrArg (Except.map fun epochKey => headSealKey epochKey 1) (deviceMaterial_epochKey ⟨[], []⟩),
    orAead_eq_ok_iff.mpr (CommittingAead.openSealed_sealWithNonce _ _ _
      (CommittingAead.length_deterministicNonce 0))⟩

/-- The device consolidates the sealed head, and rejects the receipt. -/
theorem repoConsolidate_rejected_sealedHead :
    ∃ receipt, repoConsolidate (Vector.replicate 32 0) deviceMaterial flatAdmin [sealedHead] =
        .ok (some receipt) ∧
      verifyCheckpointAnchor receipt (flatKeys [1]) sealedHead [7] ≠ .ok () := by
  obtain ⟨hbuilds, hrejects⟩ := repoConsolidate_rejected (Vector.replicate 32 0) flatAdmin
    (rfl : [sealedHead].getLast? = some sealedHead) openRefs_sealedHead (fun _ _ _ _ heq => heq)
  obtain ⟨receipt, hreceipt⟩ := hbuilds (List.isChain_singleton _) signsValidly_flatAdmin
  exact ⟨receipt, hreceipt, hrejects receipt _ hreceipt⟩

/-- So the command's receipts are not usable. -/
theorem repoConsolidate_not_usable :
    ¬ ∀ (repo : RepoId) (material : EpochMaterial Bytes Bytes) (admin : MlDsa87KeyPair)
      (heads : List (RefHead Bytes)) (anchor : RefHead Bytes) (draws : Draws Bytes)
      (plaintext : Bytes) (receipt : ConsolidationReceipt Bytes),
      Contiguous heads → SignsValidly admin → heads.getLast? = some anchor →
      openRefs material draws anchor = .ok plaintext →
      repoConsolidate repo material admin heads = .ok (some receipt) →
      verifyCheckpointAnchor receipt [admin.publicKey] anchor plaintext = .ok () := by
  intro h
  have hcont : Contiguous [sealedHead] := List.isChain_singleton _
  obtain ⟨receipt, hreceipt⟩ := exists_repoConsolidate (Vector.replicate 32 0) deviceMaterial
    hcont rfl signsValidly_flatAdmin
  have haccept := h _ _ flatAdmin _ sealedHead _ _ receipt hcont signsValidly_flatAdmin rfl
    openRefs_sealedHead hreceipt
  exact (repoConsolidate_rejected _ _ rfl openRefs_sealedHead fun _ _ _ _ heq => heq).2 receipt _
    hreceipt haccept

end Sample

end Consolidate

/-! ### The audit -/

section Verify

variable {D : Type} [Sha512 D] [DecidableEq D]

/-- What a command has printed, and whether it still goes through. -/
structure Report where
  lines : List String
  ok : Bool
  deriving DecidableEq, Repr

/-- Print a line and give up on success. -/
def Report.fail (report : Report) (line : String) : Report := ⟨report.lines ++ [line], false⟩

/-- The loop over the heads, with the hash and the sequence number of the head before. A broken
link ends it; a number out of order does not. -/
def chainScan : List (RefHead D) → (prev : HeadHash D) → (before : Option UInt64) → Report → Report
  | [], _, _, report => report
  | head :: rest, prev, before, report =>
    if head.prevHeadHash ≠ prev ∧ before.isSome then
      report.fail s!"FORK DETECTED at seq={head.seq}: prev_head_hash mismatch"
    else
      chainScan rest head.hash (some head.seq)
        (if before.any fun prevSeq => head.seq ≠ prevSeq + 1 then
          report.fail s!"Non-monotonic seq at {head.seq}"
        else report)

/-- The loop over all pairs of heads. -/
def duplicateScan : List (RefHead D) → Report → Report
  | [], report => report
  | head :: rest, report =>
    duplicateScan rest (rest.foldl
      (fun report other =>
        if head.seq = other.seq ∧ head.hash ≠ other.hash then
          report.fail s!"FORK DETECTED: duplicate seq={head.seq} with divergent hashes"
        else report)
      report)

/-- The note on the last head's signature, where this device has its own leaf key. It does not
decide the audit. -/
def tipNote [MlDsa87] (tip : RefHead D) (leafVk : Option Bytes) : List String :=
  match leafVk with
  | none => []
  | some vk =>
    match verifyPusherSig tip vk with
    | .ok () => [s!"Tip leaf ML-DSA-87 signature OK (seq={tip.seq})"]
    | .error (.other message) => [s!"Tip leaf ML-DSA verify note: {message}"]
    | .error _ => []

/-- `repo verify`: the lines it prints for the heads a host serves, and its result. -/
def repoVerify [MlDsa87] (name : String) (leafVk : Option Bytes) (heads : List (RefHead D)) :
    List String × Except String Unit :=
  match heads.getLast? with
  | none => (["No heads yet — chain empty (ok)."], .ok ())
  | some tip =>
    let report := duplicateScan heads (chainScan heads Sha512.zero none ⟨[], true⟩)
    if report.ok then
      (report.lines ++ tipNote tip leafVk ++
        [s!"Verified {heads.length} heads for {name} — chain OK"], .ok ())
    else
      (report.lines, .error "verification failed")

/-- A head is linked to the one before and has the next number. Numbers are 64-bit words. -/
def LinkedTo (prev head : RefHead D) : Prop :=
  head.prevHeadHash = prev.hash ∧ head.seq = prev.seq + 1

/-- Heads each linked to the one before and numbered after it. -/
def LinkedInOrder (heads : List (RefHead D)) : Prop := heads.IsChain LinkedTo

/-- Heads that begin at number one with the zero digest, and that the reader takes for a
chain. -/
structure LogFromGenesis (heads : List (RefHead D)) : Prop where
  first : ∀ first ∈ heads.head?, first.seq = 1 ∧ first.prevHeadHash = Sha512.zero
  chain : verifyHeadChain heads Sha512.zero = .ok ()

variable {heads rest : List (RefHead D)} {prev : RefHead D} {report : Report}

theorem verifyHeadChainLoop_eq_ok_iff :
    verifyHeadChainLoop rest prev.hash (some prev.seq) = .ok () ↔ LinkedInOrder (prev :: rest) := by
  induction rest generalizing prev with
  | nil => exact iff_of_true rfl (List.IsChain.singleton prev)
  | cons head rest ih =>
    rw [LinkedInOrder, List.isChain_cons_cons, LinkedTo, ← LinkedInOrder, ← ih,
      verifyHeadChainLoop]
    split_ifs with hbroken hgap
    · refine iff_of_false (fun h => ?_) fun h => hbroken h.1.1
      cases h
    · refine iff_of_false (fun h => ?_) fun h => hgap h.1.2
      cases h
    · rw [and_iff_right ⟨not_not.mp hbroken, not_not.mp hgap⟩]

/-- The reader's rule: the first head follows the anchor, the others each other. -/
theorem verifyHeadChain_eq_ok_iff {anchor : HeadHash D} :
    verifyHeadChain heads anchor = .ok () ↔
      (∀ first ∈ heads.head?, first.prevHeadHash = anchor) ∧ LinkedInOrder heads := by
  rw [verifyHeadChain]
  cases heads with
  | nil => exact iff_of_true rfl ⟨nofun, List.IsChain.nil⟩
  | cons first rest =>
    simp only [List.head?_cons, Option.mem_def, Option.some.injEq, forall_eq']
    rw [← verifyHeadChainLoop_eq_ok_iff, verifyHeadChainLoop]
    split_ifs with hbroken
    · exact iff_of_false nofun fun h => hbroken h.1
    · rw [and_iff_right (not_not.mp hbroken)]

/-- The scan keeps its success exactly over heads that follow each other. -/
theorem ok_chainScan_cons :
    (chainScan rest prev.hash (some prev.seq) report).ok = true ↔
      report.ok = true ∧ LinkedInOrder (prev :: rest) := by
  induction rest generalizing prev report with
  | nil => exact (and_iff_left (List.IsChain.singleton prev)).symm
  | cons head rest ih =>
    rw [LinkedInOrder, List.isChain_cons_cons, LinkedTo, ← LinkedInOrder, chainScan]
    split_ifs with hbroken hgap
    · refine iff_of_false Bool.false_ne_true fun h => hbroken.1 h.2.1.1
    · -- the scan goes on after a gap, but its success is lost
      rw [ih]
      refine iff_of_false (fun h => Bool.false_ne_true h.1) fun h => ?_
      simp [h.2.1.2] at hgap
    · have hlink : head.prevHeadHash = prev.hash := by simpa using hbroken
      have hseq : head.seq = prev.seq + 1 := by simpa using hgap
      rw [ih]
      exact ⟨fun h => ⟨h.1, ⟨hlink, hseq⟩, h.2⟩, fun h => ⟨h.1, h.2.2⟩⟩

theorem ok_chainScan :
    (chainScan heads Sha512.zero none report).ok = true ↔
      report.ok = true ∧ LinkedInOrder heads := by
  cases heads with
  | nil => exact (and_iff_left List.IsChain.nil).symm
  | cons first rest =>
    rw [chainScan, if_neg (by simp), ok_chainScan_cons]
    simp

theorem ok_duplicateScan :
    (duplicateScan heads report).ok = true ↔
      report.ok = true ∧ heads.Pairwise fun a b => a.seq = b.seq → a.hash = b.hash := by
  induction heads generalizing report with
  | nil => exact (and_iff_left List.Pairwise.nil).symm
  | cons head rest ih =>
    -- one head against those after it
    have hrow : ∀ (others : List (RefHead D)) (report : Report),
        (others.foldl (fun report other =>
          if head.seq = other.seq ∧ head.hash ≠ other.hash then
            report.fail s!"FORK DETECTED: duplicate seq={head.seq} with divergent hashes"
          else report) report).ok = true ↔
        report.ok = true ∧ ∀ other ∈ others, head.seq = other.seq → head.hash = other.hash := by
      intro others
      induction others with
      | nil => simp
      | cons other others ihRow =>
        intro report
        rw [List.foldl_cons, ihRow, List.forall_mem_cons]
        split_ifs with hfork
        · exact iff_of_false (fun h => Bool.false_ne_true h.1) fun h =>
            hfork.2 (h.2.1 hfork.1)
        · rw [not_and, not_not] at hfork
          rw [and_iff_right (a := head.seq = other.seq → head.hash = other.hash) hfork]
    rw [duplicateScan, ih, hrow, List.pairwise_cons, and_assoc]

/-- The number of a head from its place and the first number, up to the word size. -/
theorem LinkedInOrder.seq_eq {D : Type} [Sha512 D] {heads : List (RefHead D)}
    {first head : RefHead D} (h : LinkedInOrder heads)
    (hfirst : heads.head? = some first) {i : ℕ} (hi : heads[i]? = some head) :
    head.seq = first.seq + UInt64.ofNat i := by
  induction heads generalizing first i with
  | nil => cases hi
  | cons next rest ih =>
    obtain rfl := Option.some.inj hfirst
    cases i with
    | zero =>
      obtain rfl := Option.some.inj hi
      simp
    | succ i =>
      cases rest with
      | nil => cases hi
      | cons second rest =>
        obtain ⟨hnext, hrest⟩ := List.isChain_cons_cons.mp h
        rw [ih hrest rfl hi, hnext.2, UInt64.ofNat_add, UInt64.add_assoc,
          UInt64.add_comm 1]
        rfl

/-- Numbers that follow each other do not repeat in a list that memory can hold. -/
theorem LinkedInOrder.pairwise_seq_ne {D : Type} [Sha512 D] {heads : List (RefHead D)}
    (h : LinkedInOrder heads) (hlength : heads.length ≤ 2 ^ 64) :
    heads.Pairwise fun a b => a.seq ≠ b.seq := by
  cases heads with
  | nil => exact List.Pairwise.nil
  | cons first rest =>
    rw [List.pairwise_iff_getElem]
    intro i j hi hj hij heq
    rw [h.seq_eq rfl (List.getElem?_eq_getElem hi), h.seq_eq rfl (List.getElem?_eq_getElem hj),
      UInt64.add_right_inj, ← UInt64.toNat_inj, UInt64.toNat_ofNat_of_lt' (hi.trans_le hlength),
      UInt64.toNat_ofNat_of_lt' (hj.trans_le hlength)] at heq
    omega

/-- The audit accepts the heads that follow each other, from wherever they start. -/
theorem repoVerify_ok_iff [MlDsa87] {name : String} {leafVk : Option Bytes}
    (hlength : heads.length ≤ 2 ^ 64) :
    (repoVerify name leafVk heads).2 = .ok () ↔ LinkedInOrder heads := by
  have hscan : (duplicateScan heads (chainScan heads Sha512.zero none ⟨[], true⟩)).ok = true ↔
      LinkedInOrder heads := by
    rw [ok_duplicateScan, ok_chainScan, and_iff_right rfl]
    -- heads in order have no number twice, so the second scan finds nothing
    refine and_iff_left_of_imp fun h => ?_
    exact (h.pairwise_seq_ne hlength).imp fun hne heq => absurd heq hne
  rw [repoVerify]
  cases htip : heads.getLast? with
  | none =>
    rw [List.getLast?_eq_none_iff.mp htip]
    exact iff_of_true rfl List.IsChain.nil
  | some tip =>
    dsimp only
    split_ifs with hok
    · exact iff_of_true rfl (hscan.mp hok)
    · exact iff_of_false nofun (mt hscan.mpr hok)

/-- The audit agrees with the reader's rule exactly on the heads that begin at number one with
the zero digest, and on those that do not follow each other. -/
theorem repoVerify_agrees_iff [MlDsa87] {name : String} {leafVk : Option Bytes}
    (hlength : heads.length ≤ 2 ^ 64) :
    ((repoVerify name leafVk heads).2 = .ok () ↔ LogFromGenesis heads) ↔
      (∀ first ∈ heads.head?, first.seq = 1 ∧ first.prevHeadHash = Sha512.zero) ∨
        ¬ LinkedInOrder heads := by
  have hlog : LogFromGenesis heads ↔
      (∀ first ∈ heads.head?, first.seq = 1 ∧ first.prevHeadHash = Sha512.zero) ∧
        LinkedInOrder heads := by
    constructor
    · exact fun h => ⟨h.first, (verifyHeadChain_eq_ok_iff.mp h.chain).2⟩
    · intro h
      refine ⟨h.1, verifyHeadChain_eq_ok_iff.mpr ⟨fun first hfirst => ?_, h.2⟩⟩
      exact (h.1 first hfirst).2
  rw [repoVerify_ok_iff hlength, hlog]
  tauto

/-- Whatever is cut off the front of linked heads, the audit accepts the rest. -/
theorem repoVerify_drop [MlDsa87] {name : String} {leafVk : Option Bytes}
    (h : LinkedInOrder heads) (hlength : heads.length ≤ 2 ^ 64) (n : ℕ) :
    (repoVerify name leafVk (heads.drop n)).2 = .ok () := by
  refine (repoVerify_ok_iff ?_).mpr (List.IsChain.drop h n)
  rw [List.length_drop]
  omega

section Sample

attribute [local instance] transparentSha512 transparentMlDsa87

/-- A log of three heads passes both, and in the wrong order it passes neither. -/
theorem repoVerify_agrees_iff_threeAnchors :
    ((repoVerify "owner/name" none Consolidate.threeAnchors).2 = .ok () ↔
        LogFromGenesis Consolidate.threeAnchors) ∧
      ((repoVerify "owner/name" none Consolidate.threeAnchors.reverse).2 = .ok () ↔
        LogFromGenesis Consolidate.threeAnchors.reverse) := by
  constructor
  · refine (repoVerify_agrees_iff (by decide)).mpr (.inl fun first hfirst => ?_)
    obtain rfl := Option.some.inj hfirst
    exact ⟨rfl, rfl⟩
  · refine (repoVerify_agrees_iff (by decide)).mpr (.inr fun hlinked => ?_)
    have hnext := (List.isChain_cons_cons.mp hlinked).1.2
    exact absurd hnext (by decide)

/-- The audit passes a single head at number five that names a predecessor. -/
theorem repoVerify_accepts_truncated :
    ¬ ∀ heads : List (RefHead Bytes),
      (repoVerify "owner/name" none heads).2 = .ok () ↔ LogFromGenesis heads := by
  intro h
  have hok : (repoVerify "owner/name" none
      [{ Consolidate.sampleAnchor with seq := 5, prevHeadHash := [1] }]).2 = .ok () :=
    (repoVerify_ok_iff (by simp)).mpr (List.IsChain.singleton _)
  have hone := ((h _).mp hok).first _ rfl
  exact absurd hone.1 (by decide)

end Sample

end Verify

end SafeHub
