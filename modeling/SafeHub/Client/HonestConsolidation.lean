import SafeHub.Client.EpochCommitments

/-!
# Honest consolidations verify

A receipt planned from a contiguous list of heads and signed by the admin, or by enough
admins, is accepted by every member whose window is a contiguous part of the list or the
heads from some epoch on. The inclusion path of every head leads to the root, in trees of
every size, and a window of either kind has the heads of an epoch between any two that it
has.

## Main definitions

* `Contiguous` — heads with consecutive sequence numbers
* `HonestWindow` — the two kinds of window
* `Describes` — a receipt that says what a list of heads is
* `proofsFor` — the inclusion proofs handed to a window

## Main results

* `merkleRootFromPath_merkleSteps` — an inclusion path leads to the root
* `Planned.accepted` — a planned receipt passes from either window
* `verifyConsolidationWindow_of_honest` — planned and signed receipts are accepted
-/

namespace SafeHub.Consolidate

open FixedWidth SignerCount
open Std (ExtTreeMap)

/-! ### Inclusion paths -/

section Merkle

variable {D : Type} [Sha512 D] {level : List D} {index : ℕ} {leaf : D}

/-- A node of the level above joins two neighbours, or an odd last one with itself. -/
theorem getElem?_nextLevel (level : List D) (index : ℕ) :
    (nextLevel level)[index]? =
      level[2 * index]?.map fun left => node left (level[2 * index + 1]?.getD left) := by
  induction level using nextLevel.induct generalizing index with
  | case1 => simp [nextLevel]
  | case2 last => cases index <;> simp [nextLevel]
  | case3 left right rest ih =>
    cases index with
    | zero => rfl
    | succ index =>
      rw [nextLevel, List.getElem?_cons_succ, ih]
      rfl

/-- A leaf joined with its sibling stands at half its index in the level above. -/
theorem getElem?_nextLevel_half (h : level[index]? = some leaf) :
    (nextLevel level)[index / 2]? =
      some (if index % 2 = 0 then node leaf (level.getD (index + 1) leaf)
        else node (level.getD (index - 1) leaf) leaf) := by
  rw [getElem?_nextLevel]
  split_ifs with heven
  · have hdouble : 2 * (index / 2) = index := by omega
    rw [hdouble, h, Option.map_some, List.getD_eq_getElem?_getD]
  · have hdouble : 2 * (index / 2) = index - 1 := by omega
    have hnext : 2 * (index / 2) + 1 = index := by omega
    have hlt : index - 1 < level.length := by
      have hindex := (List.getElem?_eq_some_iff.mp h).1
      omega
    rw [hnext, h, hdouble, List.getD_eq_getElem?_getD, List.getElem?_eq_getElem hlt,
      Option.map_some, Option.getD_some, Option.getD_some]

theorem merkleRoot_nextLevel (h : 1 < level.length) :
    merkleRoot (nextLevel level) = merkleRoot level := by
  match level, h with
  | first :: second :: rest, _ => exact (merkleRoot.eq_3 first second rest).symm

/-- The path of a leaf leads to the root, in a tree of any size. -/
theorem merkleRootFromPath_merkleSteps (i : ℕ) (h : level[index]? = some leaf) :
    merkleRootFromPath leaf ⟨i, merkleSteps level index⟩ = merkleRoot level := by
  induction level, index using merkleSteps.induct generalizing leaf with
  | case1 level index hmany ih =>
    have hleaf : level.getD index Sha512.zero = leaf := by
      rw [List.getD_eq_getElem?_getD, h, Option.getD_some]
    rw [← merkleRoot_nextLevel hmany, ← ih (getElem?_nextLevel_half h), merkleSteps, if_pos hmany,
      merkleRootFromPath, List.foldl_cons, hleaf, merkleRootFromPath]
    by_cases heven : index % 2 = 0 <;> simp [heven]
  | case2 level index hfew =>
    cases level with
    | nil => cases h
    | cons root rest =>
      cases rest with
      | nil =>
        have hindex := (List.getElem?_eq_some_iff.mp h).1
        obtain rfl : index = 0 := by simpa using hindex
        obtain rfl := Option.some.inj h
        rw [merkleSteps, if_neg (by simp), merkleRoot.eq_2]
        rfl
      | cons => exact absurd (by simp) hfew

end Merkle

/-! ### Contiguous lists and their windows -/

section Contiguous

variable {D : Type} {heads window group : List (RefHead D)} {head first last : RefHead D}

/-- Some heads have a first and a last one. -/
theorem exists_ends (h : heads ≠ []) :
    ∃ first last, heads.head? = some first ∧ heads.getLast? = some last := by
  obtain ⟨first, hfirst⟩ := Option.ne_none_iff_exists'.mp (mt List.head?_eq_none_iff.mp h)
  obtain ⟨last, hlast⟩ := Option.ne_none_iff_exists'.mp (mt List.getLast?_eq_none_iff.mp h)
  exact ⟨first, last, hfirst, hlast⟩

/-- Heads with consecutive sequence numbers. -/
def Contiguous (heads : List (RefHead D)) : Prop :=
  heads.IsChain fun head next => next.seq.toNat = head.seq.toNat + 1

/-- Heads in ascending order. -/
def Ascending (heads : List (RefHead D)) : Prop :=
  heads.Pairwise fun head next => head.seq < next.seq

/-- The windows of honest readers: a contiguous part of the list, or the heads from some
epoch on. -/
inductive HonestWindow (heads : List (RefHead D)) : List (RefHead D) → Prop
  | part {window : List (RefHead D)} (hsub : window.Sublist heads) (hcont : Contiguous window) :
    HonestWindow heads window
  | fromEpoch (epoch : UInt64) : HonestWindow heads (heads.filter fun head => epoch ≤ head.mlsEpoch)

theorem Contiguous.seq_eq (h : Contiguous heads) (hfirst : heads.head? = some first) {i : ℕ}
    (hi : heads[i]? = some head) : head.seq.toNat = first.seq.toNat + i := by
  induction heads generalizing first i with
  | nil => cases hi
  | cons next rest ih =>
    obtain rfl := Option.some.inj hfirst
    cases i with
    | zero =>
      obtain rfl := Option.some.inj hi
      rfl
    | succ i =>
      cases rest with
      | nil => cases hi
      | cons second rest =>
        obtain ⟨hnext, hrest⟩ := List.isChain_cons_cons.mp h
        rw [ih hrest rfl hi, hnext]
        omega

theorem Contiguous.ascending (h : Contiguous heads) : Ascending heads := by
  cases heads with
  | nil => exact List.Pairwise.nil
  | cons first rest =>
    rw [Ascending, List.pairwise_iff_getElem]
    intro i j hi hj hij
    have hseq := h.seq_eq rfl (List.getElem?_eq_getElem hi)
    have hseq' := h.seq_eq rfl (List.getElem?_eq_getElem hj)
    rw [UInt64.lt_iff_toNat_lt]
    omega

theorem Contiguous.firstGap_eq_none (h : Contiguous heads) : firstGap heads = none := by
  induction heads with
  | nil => rfl
  | cons head rest ih =>
    cases rest with
    | nil => rfl
    | cons next rest =>
      obtain ⟨hnext, hrest⟩ := List.isChain_cons_cons.mp h
      have hbound := next.seq.toNat_lt
      have hseq : next.seq = head.seq + 1 := by
        rw [← UInt64.toNat_inj, UInt64.toNat_add, UInt64.toNat_one, hnext, Nat.mod_eq_of_lt]
        omega
      rw [firstGap, if_neg (not_not.mpr hseq), ih hrest]

theorem Ascending.sublist (h : Ascending heads) (hsub : window.Sublist heads) : Ascending window :=
  List.Pairwise.sublist hsub h

theorem Ascending.nodup (h : Ascending heads) : heads.Nodup :=
  h.imp fun hlt heq => by
    rw [heq] at hlt
    exact UInt64.lt_irrefl _ hlt

/-- In ascending order a sequence number names one head. -/
theorem Ascending.eq_of_seq (h : Ascending heads) {a b : RefHead D} (ha : a ∈ heads)
    (hb : b ∈ heads) (hseq : a.seq = b.seq) : a = b := by
  obtain ⟨i, hi, rfl⟩ := List.mem_iff_getElem.mp ha
  obtain ⟨j, hj, rfl⟩ := List.mem_iff_getElem.mp hb
  have hpair := List.pairwise_iff_getElem.mp h
  rcases Nat.lt_trichotomy i j with hij | rfl | hij
  · have hlt := hpair i j hi hj hij
    rw [hseq] at hlt
    exact absurd hlt (UInt64.lt_irrefl _)
  · rfl
  · have hlt := hpair j i hj hi hij
    rw [hseq] at hlt
    exact absurd hlt (UInt64.lt_irrefl _)

/-- The first head has the least sequence number. -/
theorem Ascending.first_le (h : Ascending heads) (hfirst : heads.head? = some first)
    (hmem : head ∈ heads) : first.seq ≤ head.seq := by
  cases heads with
  | nil => cases hmem
  | cons next rest =>
    obtain rfl := Option.some.inj hfirst
    rcases List.mem_cons.mp hmem with rfl | hrest
    · exact UInt64.le_refl _
    · exact UInt64.le_of_lt ((List.pairwise_cons.mp h).1 head hrest)

/-- The last head has the greatest sequence number. -/
theorem Ascending.le_last (h : Ascending heads) (hlast : heads.getLast? = some last)
    (hmem : head ∈ heads) : head.seq ≤ last.seq := by
  obtain ⟨front, rfl⟩ := List.getLast?_eq_some_iff.mp hlast
  rcases List.mem_append.mp hmem with hfront | hend
  · exact UInt64.le_of_lt ((List.pairwise_append.mp h).2.2 head hfront last (by simp))
  · rw [List.mem_singleton.mp hend]
    exact UInt64.le_refl _

theorem HonestWindow.sublist (h : HonestWindow heads window) : window.Sublist heads := by
  cases h with
  | part hsub => exact hsub
  | fromEpoch epoch => exact List.filter_sublist

/-- A window has every head of an epoch between two of that epoch that it has. -/
theorem HonestWindow.mem_of_between (h : HonestWindow heads window) (hasc : Ascending heads)
    {a b : RefHead D} (ha : a ∈ window) (hb : b ∈ window) (hmem : head ∈ heads)
    (hepoch : a.mlsEpoch = head.mlsEpoch) (hlo : a.seq ≤ head.seq) (hhi : head.seq ≤ b.seq) :
    head ∈ window := by
  cases h with
  | part hsub hcont =>
    obtain ⟨i, hi⟩ := List.getElem?_of_mem ha
    obtain ⟨j, hj⟩ := List.getElem?_of_mem hb
    cases hwindow : window with
    | nil => simp [hwindow] at ha
    | cons first rest =>
      have hfirst : window.head? = some first := by rw [hwindow, List.head?_cons]
      have hseqA := hcont.seq_eq hfirst hi
      have hseqB := hcont.seq_eq hfirst hj
      rw [UInt64.le_iff_toNat_le] at hlo hhi
      -- the window's head at the distance of the sought one from the first
      have hlt : head.seq.toNat - first.seq.toNat < window.length := by
        have hlength := (List.getElem?_eq_some_iff.mp hj).1
        omega
      have hget := List.getElem?_eq_getElem hlt
      have hseq := hcont.seq_eq hfirst hget
      have hsame := hasc.eq_of_seq (hsub.mem (List.getElem_mem hlt)) hmem
        (UInt64.toNat_inj.mp (by omega))
      rw [← hwindow, ← hsame]
      exact List.getElem_mem hlt
  | fromEpoch epoch =>
    have hfrom := (List.mem_filter.mp ha).2
    rw [hepoch] at hfrom
    exact List.mem_filter.mpr ⟨hmem, hfrom⟩

end Contiguous

/-! ### Receipts that describe a list of heads -/

section Describes

variable {D : Type} [Sha512 D] {receipt : ConsolidationReceipt D} {plan : ConsolidationPlan D}
  {heads window : List (RefHead D)} {head first last : RefHead D}

/-- A receipt that says what the heads are. -/
structure Describes (receipt : ConsolidationReceipt D)
    (heads : List (RefHead D)) : Prop where
  fromSeq : ∀ first ∈ heads.head?, receipt.fromSeq = first.seq
  toSeq : ∀ last ∈ heads.getLast?, receipt.toSeq = last.seq
  logicalRoot : receipt.logicalRoot = merkleRoot (heads.map logicalLeaf)
  commitments : receipt.epochCommitments = epochCommitments heads
  checkpoint : ∀ cp ∈ receipt.checkpoint,
    ∃ anchor ∈ heads.getLast?, cp.atSeq = anchor.seq ∧ cp.anchorHead = anchor.hash

/-- A plan for the heads: a consolidation, or a compaction to some checkpoint. -/
def Planned (repo : RepoId) (epoch : UInt64) (heads : List (RefHead D))
    (plan : ConsolidationPlan D) : Prop :=
  planConsolidation repo epoch heads = .ok plan ∨
    ∃ checkpointRefs bundleRoot,
      planCompaction repo epoch heads checkpointRefs bundleRoot = .ok plan

/-- The plan for a contiguous list of heads. -/
def planOf (repo : RepoId) (epoch : UInt64) (first last : RefHead D) (heads : List (RefHead D)) :
    ConsolidationPlan D where
  receipt := {
    repoId := repo
    epoch := epoch
    fromSeq := first.seq
    toSeq := last.seq
    logicalRoot := merkleRoot (heads.map logicalLeaf)
    epochCommitments := epochCommitments heads
    checkpoint := none
    adminSig := [] }
  leaves := heads.map logicalLeaf

theorem planConsolidation_of_contiguous (repo : RepoId) (epoch : UInt64) (h : Contiguous heads)
    (hfirst : heads.head? = some first) (hlast : heads.getLast? = some last) :
    planConsolidation repo epoch heads = .ok (planOf repo epoch first last heads) := by
  rw [planConsolidation, hfirst, hlast]
  simp only [h.firstGap_eq_none]
  rfl

theorem planCompaction_of_contiguous (repo : RepoId) (epoch : UInt64) (h : Contiguous heads)
    (hfirst : heads.head? = some first) (hlast : heads.getLast? = some last)
    (checkpointRefs : Bytes) (bundleRoot : BlobId D) :
    planCompaction repo epoch heads checkpointRefs bundleRoot =
      .ok { planOf repo epoch first last heads with
        receipt := { (planOf repo epoch first last heads).receipt with
          checkpoint := some {
            atSeq := last.seq
            anchorHead := last.hash
            refsDigest := refsDigest repo last.seq checkpointRefs
            bundleRoot := bundleRoot } } } := by
  rw [planCompaction, planConsolidation_of_contiguous repo epoch h hfirst hlast, hlast]
  rfl

/-- A planned receipt describes its heads, and the plan keeps their leaves. -/
theorem Planned.describes {repo : RepoId} {epoch : UInt64} (hplan : Planned repo epoch heads plan)
    (h : Contiguous heads) (hfirst : heads.head? = some first)
    (hlast : heads.getLast? = some last) :
    Describes plan.receipt heads ∧ plan.leaves = heads.map logicalLeaf := by
  have hends : (∀ x ∈ heads.head?, first.seq = x.seq) ∧ ∀ x ∈ heads.getLast?, last.seq = x.seq :=
    ⟨fun x hx => by rw [Option.some.inj (hfirst.symm.trans hx)],
      fun x hx => by rw [Option.some.inj (hlast.symm.trans hx)]⟩
  rcases hplan with hplan | ⟨checkpointRefs, bundleRoot, hplan⟩
  · rw [planConsolidation_of_contiguous repo epoch h hfirst hlast] at hplan
    obtain rfl := Except.ok.inj hplan
    exact ⟨⟨hends.1, hends.2, rfl, rfl, nofun⟩, rfl⟩
  · rw [planCompaction_of_contiguous repo epoch h hfirst hlast] at hplan
    obtain rfl := Except.ok.inj hplan
    refine ⟨⟨hends.1, hends.2, rfl, rfl, fun cp hcp => ⟨last, hlast, ?_⟩⟩, rfl⟩
    obtain rfl := Option.some.inj hcp
    exact ⟨rfl, rfl⟩

/-- The inclusion proofs handed to the holder of some heads. -/
def proofsFor (plan : ConsolidationPlan D) (heads : List (RefHead D)) :
    ExtTreeMap UInt64 (MerklePath D) compare :=
  ExtTreeMap.ofList (heads.filterMap fun head =>
    (plan.proofFor head.seq).map fun path => (head.seq, path)) compare

theorem getElem?_proofsFor {path : MerklePath D} (hasc : Ascending window)
    (hmem : head ∈ window) (hpath : plan.proofFor head.seq = some path) :
    (proofsFor plan window)[head.seq]? = some path := by
  refine ExtTreeMap.getElem?_ofList_of_mem Std.ReflCmp.compare_self ?_ ?_
  · rw [List.pairwise_filterMap]
    refine hasc.imp fun {a b} hlt entry hentry entry' hentry' hsame => ?_
    obtain ⟨_, -, rfl⟩ := Option.map_eq_some_iff.mp hentry
    obtain ⟨_, -, rfl⟩ := Option.map_eq_some_iff.mp hentry'
    have hkey : a.seq = b.seq := Std.LawfulEqCmp.compare_eq_iff_eq.mp hsame
    rw [hkey] at hlt
    exact UInt64.lt_irrefl _ hlt
  · exact List.mem_filterMap.mpr ⟨head, hmem, by rw [hpath, Option.map_some]⟩

/-! ### What such a receipt passes -/

/-- Every head lies in the span of a receipt that describes the list. -/
theorem Describes.inSpan_eq (h : Describes receipt heads)
    (hasc : Ascending heads) (hsub : window.Sublist heads) : receipt.inSpan window = window := by
  rw [ConsolidationReceipt.inSpan, List.filter_eq_self]
  intro head hmem
  have hhead := hsub.mem hmem
  obtain ⟨first, hfirst⟩ := Option.ne_none_iff_exists'.mp
    (mt List.head?_eq_none_iff.mp (List.ne_nil_of_mem hhead))
  obtain ⟨last, hlast⟩ := Option.ne_none_iff_exists'.mp
    (mt List.getLast?_eq_none_iff.mp (List.ne_nil_of_mem hhead))
  rw [decide_eq_true_eq, h.fromSeq first hfirst, h.toSeq last hlast]
  exact ⟨hasc.first_le hfirst hhead, hasc.le_last hlast hhead⟩

/-- The proof of a listed head is the path of its leaf. -/
theorem proofFor_eq_some (hdescribes : Describes plan.receipt heads)
    (hleaves : plan.leaves = heads.map logicalLeaf) (hcont : Contiguous heads)
    (hfirst : heads.head? = some first) (hmem : head ∈ heads) :
    plan.proofFor head.seq = some ⟨(head.seq - first.seq).toNat,
      merkleSteps (heads.map logicalLeaf) (head.seq - first.seq).toNat⟩ ∧
    (heads.map logicalLeaf)[(head.seq - first.seq).toNat]? = some (logicalLeaf head) := by
  obtain ⟨i, hi⟩ := List.getElem?_of_mem hmem
  have hlt := (List.getElem?_eq_some_iff.mp hi).1
  have hseq := hcont.seq_eq hfirst hi
  have hle : first.seq ≤ head.seq := hcont.ascending.first_le hfirst hmem
  have hindex : (head.seq - first.seq).toNat = i := by
    rw [UInt64.toNat_sub_of_le _ _ hle, hseq]
    omega
  have hspan := (List.filter_eq_self.mp
    (hdescribes.inSpan_eq hcont.ascending (List.Sublist.refl heads))) head hmem
  obtain ⟨hfrom, hto⟩ := of_decide_eq_true hspan
  have hbounds : ¬ (head.seq < plan.receipt.fromSeq ∨ plan.receipt.toSeq < head.seq) :=
    not_or.mpr ⟨UInt64.not_lt.mpr hfrom, UInt64.not_lt.mpr hto⟩
  rw [ConsolidationPlan.proofFor, if_neg hbounds, hdescribes.fromSeq first hfirst, hindex,
    merklePath, hleaves, if_neg (by rw [List.length_map]; omega)]
  exact ⟨rfl, by rw [List.getElem?_map, hi, Option.map_some]⟩

variable [DecidableEq D]

theorem checkInclusion_of_describes (hdescribes : Describes receipt heads)
    (hfirst : heads.head? = some first) {proofs : ExtTreeMap UInt64 (MerklePath D) compare}
    (hproof : proofs[head.seq]? = some ⟨(head.seq - first.seq).toNat,
      merkleSteps (heads.map logicalLeaf) (head.seq - first.seq).toNat⟩)
    (hleaf : (heads.map logicalLeaf)[(head.seq - first.seq).toNat]? = some (logicalLeaf head)) :
    checkInclusion receipt proofs head = .ok () := by
  apply checkInclusion_eq_ok hproof
  · rw [hdescribes.fromSeq first hfirst]
  · rw [merkleRootFromPath_merkleSteps _ hleaf, hdescribes.logicalRoot]

/-- The digest over a window's heads of an epoch is the receipt's when both have the same
first and last sequence. -/
theorem checkEpoch_of_describes (hdescribes : Describes receipt heads) (hasc : Ascending heads)
    (hwindow : HonestWindow heads window) {epoch : UInt64} {stated : UInt64 × UInt64 × HeadHash D}
    (hstated : (epochCommitments window)[epoch]? = some stated) :
    checkEpoch receipt (epoch, stated) = .ok () := by
  rw [getElem?_epochCommitments] at hstated
  split_ifs at hstated with hnone
  obtain rfl := Option.some.inj hstated
  set part := epochHeads epoch window with hpart
  set whole := epochHeads epoch heads with hwhole
  have hsub : part.Sublist whole := hwindow.sublist.filter _
  have hsome : whole ≠ [] := fun hempty => hnone (List.sublist_nil.mp (hempty ▸ hsub))
  have hascWhole : Ascending whole := hasc.sublist List.filter_sublist
  obtain ⟨first, last, hfirst, hlast⟩ := exists_ends hsome
  obtain ⟨lo, hi, hlo, hhi⟩ := exists_ends hnone
  have hloMem := List.mem_of_head? hlo
  have hhiMem := List.mem_of_getLast? hhi
  have hcommitted : receipt.epochCommitments[epoch]? = some (epochCommitment epoch whole) := by
    rw [hdescribes.commitments, getElem?_epochCommitments, if_neg hsome]
  refine checkEpoch_eq_ok_iff.mpr ⟨_, _, _, hcommitted, ?_, ?_, fun hends => ?_⟩
  · simp only [hfirst, hlo, Option.map_some, Option.getD_some]
    exact hascWhole.first_le hfirst (hsub.mem hloMem)
  · simp only [hlast, hhi, Option.map_some, Option.getD_some]
    exact hascWhole.le_last hlast (hsub.mem hhiMem)
  · simp only [hfirst, hlast, hlo, hhi, Option.map_some, Option.getD_some, Prod.mk.injEq] at hends
    -- between equal ends the window misses none of the epoch's heads
    have hall : whole.Subset part := by
      intro head hhead
      obtain ⟨hmem, hepoch⟩ := List.mem_filter.mp hhead
      have hepochOf {x : RefHead D} (hx : x ∈ part) : x.mlsEpoch = head.mlsEpoch := by
        rw [of_decide_eq_true hepoch]
        exact of_decide_eq_true (List.mem_filter.mp hx).2
      refine List.mem_filter.mpr ⟨?_, hepoch⟩
      refine hwindow.mem_of_between hasc (List.mem_filter.mp hloMem).1 (List.mem_filter.mp hhiMem).1
        hmem (hepochOf hloMem) ?_ ?_
      · rw [hends.1]
        exact hascWhole.first_le hfirst hhead
      · rw [hends.2]
        exact hascWhole.le_last hlast hhead
    rw [hsub.eq_of_length_le (hascWhole.nodup.subperm hall).length_le]

theorem checkWindowAnchor_of_describes (hdescribes : Describes receipt heads)
    (hasc : Ascending heads) (hsub : window.Sublist heads) :
    checkWindowAnchor receipt window = .ok () := by
  rw [checkWindowAnchor]
  cases hcp : receipt.checkpoint with
  | none => rfl
  | some cp =>
    obtain ⟨anchor, hanchor, hseq, hhash⟩ := hdescribes.checkpoint cp hcp
    have hmem := List.mem_of_getLast? hanchor
    have hspan := List.filter_eq_self.mp
      (hdescribes.inSpan_eq hasc (List.Sublist.refl heads)) anchor hmem
    obtain ⟨hfrom, hto⟩ := of_decide_eq_true hspan
    have hsame : (window.find? fun head => head.seq = cp.atSeq).any
        (fun anchor => anchor.hash ≠ cp.anchorHead) = false := by
      cases hfind : window.find? fun head => head.seq = cp.atSeq with
      | none => rfl
      | some found =>
        have hfound := List.find?_some hfind
        rw [decide_eq_true_eq] at hfound
        have heq := hasc.eq_of_seq (hsub.mem (List.mem_of_find?_eq_some hfind)) hmem
          (hfound.trans hseq)
        simp [heq, hhash]
    simp only [hsame, Bool.false_eq_true, if_false]
    rw [hseq, if_neg (not_or.mpr ⟨UInt64.not_lt.mpr hfrom, UInt64.not_lt.mpr hto⟩)]

variable [MlDsa87] {repo : RepoId} {epoch : UInt64} {adminVks : List Bytes} {sig : Bytes}

/-- A planned receipt is accepted from either window under any signature that authorizes it. -/
theorem Planned.accepted (hplan : Planned repo epoch heads plan) (hcont : Contiguous heads)
    (hwindow : HonestWindow heads window) (hne : window ≠ []) (hkeys : adminVks ≠ [])
    (hsig : sig ≠ [])
    (hauth : verifyAdminAuthorization (consolidationMessage plan.receipt) adminVks sig = .ok ()) :
    verifyConsolidationWindow { plan.receipt with adminSig := sig } adminVks window
      (proofsFor plan window) = .ok () := by
  have hsub := hwindow.sublist
  have hasc := hcont.ascending
  have hsome : heads ≠ [] := fun hempty => hne (List.sublist_nil.mp (hempty ▸ hsub))
  obtain ⟨first, last, hfirst, hlast⟩ := exists_ends hsome
  obtain ⟨hplanned, hleaves⟩ := hplan.describes hcont hfirst hlast
  -- the signature is not among the described fields
  have hdescribes : Describes { plan.receipt with adminSig := sig } heads :=
    ⟨hplanned.fromSeq, hplanned.toSeq, hplanned.logicalRoot, hplanned.commitments,
      hplanned.checkpoint⟩
  have hspan := hdescribes.inSpan_eq hasc hsub
  refine verifyConsolidationWindow_eq_ok_iff.mpr ⟨hkeys, hsig, hauth, ?_, ?_, ?_, ?_⟩
  · rwa [hspan]
  · rw [hspan]
    intro head hmem
    obtain ⟨hproof, hleaf⟩ := proofFor_eq_some hplanned hleaves hcont hfirst (hsub.mem hmem)
    exact checkInclusion_of_describes hdescribes hfirst
      (getElem?_proofsFor (hasc.sublist hsub) hmem hproof) hleaf
  · rw [hspan]
    intro epoch stated hstated
    exact checkEpoch_of_describes hdescribes hasc hwindow hstated
  · rw [hspan]
    exact checkWindowAnchor_of_describes hdescribes hasc hsub

/-- A key pair whose signatures are valid under its verifying key. -/
def SignsValidly (pair : MlDsa87KeyPair) : Prop :=
  ∀ message, ∃ sig, pair.sign message = .ok sig ∧ mldsaValid pair.publicKey message sig = true

/-- What valid signers sign is valid under a known key. -/
theorem exists_valid_of_signers {msg s : Bytes} {admins : List MlDsa87KeyPair} {sigs : List Bytes}
    (hadmins : ∀ admin ∈ admins, SignsValidly admin ∧ admin.publicKey ∈ adminVks)
    (hsigs : List.Forall₂ (fun admin sig => admin.sign msg = .ok sig) admins sigs)
    (hs : s ∈ sigs) : ∃ vk ∈ adminVks, mldsaValid vk msg s = true := by
  obtain ⟨admin, hadmin, hsign⟩ := exists_of_forall₂_mem_right hsigs hs
  obtain ⟨hworks, hkey⟩ := hadmins admin hadmin
  obtain ⟨s', hsign', hvalid⟩ := hworks msg
  obtain rfl := Except.ok.inj (hsign.symm.trans hsign')
  exact ⟨_, hkey, hvalid⟩

/-- The bundle that valid signers make is accepted. -/
theorem verifyAdminAuthorization_of_signers {msg : Bytes} {admins : List MlDsa87KeyPair}
    {m : UInt8} {sigs : List Bytes}
    (hadmins : ∀ admin ∈ admins, SignsValidly admin ∧ admin.publicKey ∈ adminVks)
    (hsigs : List.Forall₂ (fun admin sig => admin.sign msg = .ok sig) admins sigs)
    (hm : m.toNat ≤ admins.length) (hdecode : decodeAdminQuorum sig = some (m, sigs)) :
    verifyAdminAuthorization msg adminVks sig = .ok () := by
  have hall : backedCount (mldsaValid · msg) adminVks sigs = sigs.length := by
    rw [backedCount, List.countP_eq_length]
    exact fun s hs => List.any_eq_true.mpr (exists_valid_of_signers hadmins hsigs hs)
  rw [verifyAdminAuthorization_eq_ok_iff_of_bundle hdecode, hall, ← hsigs.length_eq]
  exact hm

/-- One admin can sign a plan, and every honest window accepts what it signs. -/
theorem Planned.exists_accepted (hplan : Planned repo epoch heads plan) (hcont : Contiguous heads)
    (hwindow : HonestWindow heads window) (hne : window ≠ []) {admin : MlDsa87KeyPair}
    (hworks : SignsValidly admin) (hkey : admin.publicKey ∈ adminVks) :
    ∃ receipt, signConsolidation plan.receipt admin = .ok receipt ∧
      (decodeAdminQuorum receipt.adminSig = none →
        verifyConsolidationWindow receipt adminVks window (proofsFor plan window) = .ok ()) := by
  obtain ⟨sig, hsign, hvalid⟩ := hworks (consolidationMessage plan.receipt)
  refine ⟨{ plan.receipt with adminSig := sig }, ?_, fun hdecode => ?_⟩
  · rw [signConsolidation, hsign]
    rfl
  · have hlength := length_of_mldsaValid hvalid
    exact hplan.accepted hcont hwindow hne (List.ne_nil_of_mem hkey)
      (List.ne_nil_of_length_pos (hlength ▸ by decide))
      ((verifyAdminAuthorization_eq_ok_iff_of_single hdecode).mpr ⟨_, hkey, hvalid⟩)

omit [DecidableEq D] in
/-- What valid signers make of a receipt carries the bundle of their signatures, if there can be
one. -/
theorem exists_signConsolidationQuorum_iff (receipt : ConsolidationReceipt D) (m : UInt8)
    {admins : List MlDsa87KeyPair}
    (hadmins : ∀ admin ∈ admins, SignsValidly admin ∧ admin.publicKey ∈ adminVks) :
    ∃ sigs, List.Forall₂ (fun admin sig => admin.sign (consolidationMessage receipt) = .ok sig)
        admins sigs ∧ (∀ s ∈ sigs, s.length < 2 ^ 32) ∧
      ∀ signed, signConsolidationQuorum receipt admins m = .ok signed ↔
        (m ≠ 0 ∧ m.toNat ≤ admins.length ∧ admins.length ≤ 255) ∧
          { receipt with adminSig := quorumBytes m sigs } = signed := by
  have hsign : ∀ admin ∈ admins, ∃ sig,
      orOther (admin.sign (consolidationMessage receipt)) = .ok sig := by
    intro admin hadmin
    obtain ⟨sig, hsig, -⟩ := (hadmins admin hadmin).1 (consolidationMessage receipt)
    exact ⟨sig, orOther_eq_ok_iff.mpr hsig⟩
  obtain ⟨sigs, hsigs⟩ := exists_mapM_eq_ok_iff.mpr hsign
  have hpairs := mapM_eq_ok_iff.mp hsigs
  simp only [orOther_eq_ok_iff] at hpairs
  have hlengths : ∀ s ∈ sigs, s.length < 2 ^ 32 := by
    intro s hs
    obtain ⟨vk, -, hvalid⟩ := exists_valid_of_signers hadmins hpairs hs
    rw [length_of_mldsaValid hvalid]
    decide
  refine ⟨sigs, hpairs, hlengths, fun signed => ?_⟩
  -- what is left to fail is the framing of the bundle
  rw [signConsolidationQuorum, hsigs, hpairs.length_eq]
  change (encodeAdminQuorum m sigs >>= _) = _ ↔ _
  rw [bind_eq_ok_iff]
  simp only [encodeAdminQuorum_eq_ok_iff]
  constructor
  · rintro ⟨bundle, ⟨hcount, -, rfl⟩, hreturn⟩
    exact ⟨hcount, Except.ok.inj hreturn⟩
  · rintro ⟨hcount, rfl⟩
    exact ⟨_, ⟨hcount, hlengths, rfl⟩, rfl⟩

/-- An honest consolidation or compaction of a contiguous list can be planned, one admin or up
to 255 of them can sign it, and every honest window then accepts it. -/
theorem verifyConsolidationWindow_of_honest (repo : RepoId) (epoch : UInt64)
    (adminVks : List Bytes) (hcont : Contiguous heads) (hwindow : HonestWindow heads window)
    (hne : window ≠ []) :
    (∃ plan, planConsolidation repo epoch heads = .ok plan) ∧
    (∀ checkpointRefs bundleRoot,
      ∃ plan, planCompaction repo epoch heads checkpointRefs bundleRoot = .ok plan) ∧
    ∀ plan, Planned repo epoch heads plan →
      (∀ admin, SignsValidly admin → admin.publicKey ∈ adminVks →
        ∃ receipt, signConsolidation plan.receipt admin = .ok receipt ∧
          (decodeAdminQuorum receipt.adminSig = none →
            verifyConsolidationWindow receipt adminVks window (proofsFor plan window) = .ok ())) ∧
      ∀ (admins : List MlDsa87KeyPair) (m : UInt8),
        (∀ admin ∈ admins, SignsValidly admin ∧ admin.publicKey ∈ adminVks) →
        1 ≤ m.toNat → m.toNat ≤ admins.length →
        (admins.length ≤ 255 →
          ∃ receipt, signConsolidationQuorum plan.receipt admins m = .ok receipt) ∧
        ∀ receipt, signConsolidationQuorum plan.receipt admins m = .ok receipt →
          verifyConsolidationWindow receipt adminVks window (proofsFor plan window) = .ok () := by
  have hsome : heads ≠ [] := fun hempty =>
    hne (List.sublist_nil.mp (hempty ▸ hwindow.sublist))
  obtain ⟨first, last, hfirst, hlast⟩ := exists_ends hsome
  refine ⟨⟨_, planConsolidation_of_contiguous repo epoch hcont hfirst hlast⟩,
    fun checkpointRefs bundleRoot =>
      ⟨_, planCompaction_of_contiguous repo epoch hcont hfirst hlast checkpointRefs bundleRoot⟩,
    fun plan hplan => ⟨fun admin hworks hkey =>
      hplan.exists_accepted hcont hwindow hne hworks hkey, fun admins m hadmins hpos hm => ?_⟩⟩
  -- a quorum signs one receipt for all windows
  obtain ⟨sigs, hsigs, hlengths, hsigned⟩ :=
    exists_signConsolidationQuorum_iff plan.receipt m hadmins
  refine ⟨fun hfew => ?_, fun receipt hreceipt => ?_⟩
  · have hm0 : m ≠ 0 := by
      rintro rfl
      exact absurd hpos (by decide)
    exact ⟨_, (hsigned _).mpr ⟨⟨hm0, hm, hfew⟩, rfl⟩⟩
  · obtain ⟨⟨-, -, hfew⟩, rfl⟩ := (hsigned receipt).mp hreceipt
    -- the keys are not empty, since a signer is among them
    have hkeys : adminVks ≠ [] := by
      obtain ⟨admin, hadmin⟩ := List.exists_mem_of_length_pos (hpos.trans hm)
      exact List.ne_nil_of_mem (hadmins admin hadmin).2
    rw [hsigs.length_eq] at hfew
    exact hplan.accepted hcont hwindow hne hkeys (by simp [quorumBytes])
      (verifyAdminAuthorization_of_signers hadmins hsigs hm
        (decodeAdminQuorum_quorumBytes m hfew hlengths))

end Describes

section Sample

attribute [local instance] transparentSha512 transparentMlDsa87

/-- Three heads of which the second is in a later epoch than the third. -/
def sampleLog : List (RefHead Bytes) :=
  [sampleAnchor, { sampleAnchor with seq := 2, mlsEpoch := 2 },
    { sampleAnchor with seq := 3, mlsEpoch := 1 }]

/-- The admin with a flat seed. -/
def flatAdmin : MlDsa87KeyPair := ⟨flatSeed 1, paddedKey (flatSeed 1)⟩

theorem sign_flatAdmin (message : Bytes) :
    flatAdmin.sign message = .ok (clearSig (flatSeed 1) message) := by
  rw [MlDsa87KeyPair.sign, signWithSeed, flatAdmin, if_pos (length_flatSeed 1)]
  rfl

theorem signsValidly_flatAdmin : SignsValidly flatAdmin :=
  fun message => ⟨_, sign_flatAdmin message, by rw [flatAdmin, mldsaValid_flatSeed]; rfl⟩

theorem decodeAdminQuorum_clearSig (message : Bytes) :
    decodeAdminQuorum (clearSig (flatSeed 1) message) = none := rfl

/-- The sample log is consolidated by one admin and by a quorum of one, and a member who joined
in epoch 1 accepts both. -/
theorem verifyConsolidationWindow_of_honest_sampleLog :
    ∃ plan single bundle,
      planConsolidation (Vector.replicate 32 0) 2 sampleLog = .ok plan ∧
      signConsolidation plan.receipt flatAdmin = .ok single ∧
      signConsolidationQuorum plan.receipt [flatAdmin] 1 = .ok bundle ∧
      ∀ receipt ∈ [single, bundle], verifyConsolidationWindow receipt (flatKeys [1])
        (sampleLog.filter fun head => 1 ≤ head.mlsEpoch)
        (proofsFor plan (sampleLog.filter fun head => 1 ≤ head.mlsEpoch)) = .ok () := by
  have hcont : Contiguous sampleLog := by
    rw [Contiguous, sampleLog]
    decide
  have hkey : flatAdmin.publicKey ∈ flatKeys [1] := List.mem_singleton.mpr rfl
  obtain ⟨⟨plan, hplan⟩, -, hall⟩ := verifyConsolidationWindow_of_honest (Vector.replicate 32 0) 2
    (flatKeys [1]) hcont (.fromEpoch 1) (by decide)
  obtain ⟨hone, hquorum⟩ := hall plan (.inl hplan)
  obtain ⟨single, hsign, hsingle⟩ := hone flatAdmin signsValidly_flatAdmin hkey
  obtain ⟨hmake, hbundle⟩ := hquorum [flatAdmin] 1
    (by simpa using ⟨signsValidly_flatAdmin, hkey⟩) (by decide) (by decide)
  obtain ⟨bundle, hsigned⟩ := hmake (by decide)
  refine ⟨plan, single, bundle, hplan, hsign, hsigned, fun receipt hreceipt => ?_⟩
  rcases List.mem_pair.mp hreceipt with rfl | rfl
  · refine hsingle ?_
    rw [signConsolidation, sign_flatAdmin] at hsign
    obtain rfl := Except.ok.inj hsign
    exact decodeAdminQuorum_clearSig _
  · exact hbundle _ hsigned

end Sample

end SafeHub.Consolidate
