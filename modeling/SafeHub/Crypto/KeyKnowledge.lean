import SafeHub.Client.Error
import SafeHub.Crypto.MlsGroup

/-!
# Who knows the keys of a tree

Parties keep every key pair that they have had, and see all that is sent. If all keys are drawn
anew, a party still knows the key of a node only if it has a leaf below the node.

## Main definitions

* `KeyHistory` — a tree, the parties at its leaves and what each party knows
* `KeyStep`, `KeyRun` — what changes the tree, and what parties learn with it
* `Guarded` — a party knows only keys of nodes above its leaves

## Main results

* `mem_learnPath_of_receive` — what a member gets from a commit is among what it learns
* `KeyRun.knows_below` — in every run the tree is guarded, and parties without a leaf learn nothing
-/

namespace SafeHub

open CompleteTree TreeSync

variable {K P S : Type}

/-- A tree, the parties at its leaves, and all key pairs that each party has had. -/
structure KeyHistory (K P : Type) where
  tree : TreeSync K
  member : LeafNodeIndex → P
  known : P → Set K

namespace KeyHistory

variable (history : KeyHistory K P)

/-- A key that was not drawn before. -/
structure Fresh (key : K) : Prop where
  known : ∀ p, key ∉ history.known p
  leaf : ∀ i node, history.tree.leaf i = some node → node.encryptionKey ≠ key
  parent : ∀ n node, history.tree.parent n = some node → node.encryptionKey ≠ key

/-- A party knows only keys of its leaves, and of nodes above one that is not unmerged. -/
structure Guarded : Prop where
  leaf : ∀ i node p, history.tree.leaf ⟨i⟩ = some node → node.encryptionKey ∈ history.known p →
    history.member ⟨i⟩ = p
  parent : ∀ k m node p, history.tree.parent (parentAt k m) = some node →
    node.encryptionKey ∈ history.known p → ∃ j, (history.tree.leaf ⟨j⟩).isSome ∧
      history.member ⟨j⟩ = p ∧ j / 2 ^ (k + 1) = m ∧ ⟨j⟩ ∉ node.unmergedLeaves

/-- A party learns keys. -/
def learn (p : P) (keys : Set K) (q : P) : Set K :=
  {key | key ∈ history.known q ∨ q = p ∧ key ∈ keys}

/-- The key pairs that follow from the secret of one node of a path. -/
def keypairsFrom [PathKdf K S] (i : LeafNodeIndex) (own : OwnUpdatePath K S) (n : ℕ) : List K :=
  (own.updatePathNodes[n]?.map fun node =>
    (derivePath node.pathSecret ((own.tree.filteredDirectPath i).drop n)).keypairs).getD []

/-- What a party learns from a path that it sees: the key pairs from a node on, where a key that
the node's secret is sent to is known, or where a newcomer's path meets that of the committer. -/
def learnPath [PathKdf K S] (i : LeafNodeIndex) (excluded : List LeafNodeIndex)
    (own : OwnUpdatePath K S) (p : P) : Set K :=
  {key | key ∈ history.known p ∨ p = history.member i ∧ key ∈ own.keypairs ∨
    (∃ n resolution, (own.tree.filteredCopathResolutions excluded i)[n]? = some resolution ∧
      (∃ entry ∈ resolution, entry.2.encryptionKey ∈ history.known p) ∧
      key ∈ keypairsFrom i own n) ∨
    ∃ j ∈ excluded, j ≠ i ∧ history.member j = p ∧ (history.tree.leaf j).isSome ∧
      ∃ n, own.tree.subtreeRootPosition i j = some n ∧ key ∈ keypairsFrom i own n}

end KeyHistory

open KeyHistory

/-- What changes a tree. All keys are drawn anew. -/
inductive KeyStep (S : Type) [TreeHashes K] [PathKdf K S] : KeyHistory K P → KeyHistory K P → Prop
  | update {history : KeyHistory K P} {i : LeafNodeIndex} {node : LeafNode K}
    (hi : (history.tree.leaf i).isSome) (hfresh : history.Fresh node.encryptionKey) :
    KeyStep S history ⟨history.tree.updateLeaf node i, history.member,
      history.learn (history.member i) {node.encryptionKey}⟩
  | remove {history : KeyHistory K P} {i : LeafNodeIndex} (hi : (history.tree.leaf i).isSome) :
    KeyStep S history ⟨history.tree.blankLeaf i, history.member, history.known⟩
  | add {history : KeyHistory K P} {i : LeafNodeIndex} {node : LeafNode K} {tree : TreeSync K}
    (hadd : history.tree.addLeaf node = some (i, tree))
    (hfresh : history.Fresh node.encryptionKey) (p : P) :
    KeyStep S history ⟨tree, Function.update history.member i p,
      history.learn p {node.encryptionKey}⟩
  | trim {history : KeyHistory K P} :
    KeyStep S history ⟨history.tree.trimTree, history.member, history.known⟩
  | path {history : KeyHistory K P} {i : LeafNodeIndex} {pathSecret : S}
    {newLeaf : Bytes → LeafNode K} {own : OwnUpdatePath K S}
    (hi : (history.tree.leaf i).isSome)
    (hnew : ∀ hash, (newLeaf hash).parentHash = some hash)
    (hown : history.tree.applyOwnUpdatePath i pathSecret newLeaf = some own)
    (hfresh : ∀ key ∈ own.keypairs, history.Fresh key) (hnodup : own.keypairs.Nodup)
    (excluded : List LeafNodeIndex) :
    KeyStep S history ⟨own.tree, history.member, history.learnPath i excluded own⟩

/-- The histories of groups that one party starts with one leaf. -/
inductive KeyRun (S : Type) [TreeHashes K] [PathKdf K S] : KeyHistory K P → Prop
  | start (node : LeafNode K) (p : P) : KeyRun S
    ⟨(MlsGroup.new node).tree, fun _ => p, fun q => {key | q = p ∧ key = node.encryptionKey}⟩
  | step {history history' : KeyHistory K P} (hrun : KeyRun S history)
    (hstep : KeyStep S history history') : KeyRun S history'

namespace KeyHistory

variable {history history' : KeyHistory K P} {i j k m : ℕ} {p : P}

/-- Rewriting a path keeps a tree guarded, if new keys are known only below. -/
theorem Guarded.rewritten {new : Option (LeafNode K)} {nodes : ℕ → Option (ParentNode K)}
    (hguarded : history.Guarded) (history' : KeyHistory K P)
    (h : Rewritten i new nodes history.tree history'.tree)
    (hmember : ∀ j ≠ i, history'.member ⟨j⟩ = history.member ⟨j⟩)
    (hknown : ∀ p key, key ∈ history'.known p → key ∈ history.known p ∨ history.Fresh key)
    (hleaf : ∀ node p, new = some node → node.encryptionKey ∈ history'.known p →
      history'.member ⟨i⟩ = p)
    (hnodes : ∀ k node p, nodes k = some node → node.encryptionKey ∈ history'.known p →
      ∃ j, (history'.tree.leaf ⟨j⟩).isSome ∧ history'.member ⟨j⟩ = p ∧
        j / 2 ^ (k + 1) = i / 2 ^ (k + 1) ∧ ⟨j⟩ ∉ node.unmergedLeaves) :
    history'.Guarded where
  leaf j node p hnode hkey := by
    by_cases hne : j = i
    · subst hne
      exact hleaf node p (h.leaf_self.symm.trans hnode) hkey
    · rw [h.leaf j hne] at hnode
      rw [hmember j hne]
      refine hguarded.leaf j node p hnode ((hknown p _ hkey).resolve_right fun hfresh => ?_)
      exact hfresh.leaf _ node hnode rfl
  parent k m node p hnode hkey := by
    rw [h.parent_eq] at hnode
    split_ifs at hnode with hon
    · rw [← hon]
      exact hnodes k node p hnode hkey
    · have hold := (hknown p _ hkey).resolve_right fun hfresh => hfresh.parent _ node hnode rfl
      obtain ⟨j, hj, hp, hbelow, hunmerged⟩ := hguarded.parent k m node p hnode hold
      have hne : j ≠ i := fun heq => hon (heq ▸ hbelow)
      refine ⟨j, ?_, (hmember j hne).trans hp, hbelow, hunmerged⟩
      rwa [h.leaf j hne]

/-- A party that knows a key of a resolution has a leaf that the entry covers. -/
theorem Guarded.exists_covers (hguarded : history.Guarded)
    {entry : TreeNodeIndex × NodeReference K}
    (hmem : entry ∈ history.tree.resolution [] (.new (node k m)))
    (hkey : entry.2.encryptionKey ∈ history.known p) :
    ∃ j, (history.tree.leaf ⟨j⟩).isSome ∧ history.member ⟨j⟩ = p ∧ Covers entry ⟨j⟩ := by
  rcases exists_of_mem_resolution hmem with ⟨⟨j⟩, leaf, hleaf, rfl⟩ | ⟨k, m, full, hfull, rfl⟩
  · exact ⟨j, by rw [hleaf]; rfl, hguarded.leaf j leaf p hleaf hkey, rfl⟩
  · obtain ⟨j, hj, hp, hbelow, hunmerged⟩ := hguarded.parent k m full p hfull hkey
    exact ⟨j, hj, hp, isBelow_parentAt_iff.mpr hbelow, hunmerged⟩

theorem Guarded.updateLeaf (hguarded : history.Guarded) (hwf : history.tree.WellFormed)
    {node : LeafNode K} (hi : i < history.tree.leafCount)
    (hfresh : history.Fresh node.encryptionKey) :
    Guarded ⟨history.tree.updateLeaf node ⟨i⟩, history.member,
      history.learn (history.member ⟨i⟩) {node.encryptionKey}⟩ := by
  refine hguarded.rewritten _ (rewritten_setDirectPathToBlank hwf hi (some node))
    (fun _ _ => rfl) ?_ ?_ ?_
  · rintro p key (hkey | ⟨-, rfl⟩)
    · exact .inl hkey
    · exact .inr hfresh
  · rintro node' p heq hkey
    obtain rfl := Option.some.inj heq
    exact hkey.elim (fun hold => absurd hold (hfresh.known p)) fun hnew => hnew.1.symm
  · rintro k new p hnew
    cases hnew

theorem Guarded.blankLeaf (hguarded : history.Guarded) (hwf : history.tree.WellFormed)
    (hi : i < history.tree.leafCount) :
    Guarded ⟨history.tree.blankLeaf ⟨i⟩, history.member, history.known⟩ :=
  hguarded.rewritten _ (rewritten_setDirectPathToBlank hwf hi none) (fun _ _ => rfl)
    (fun _ _ => .inl) (fun node p hnew => by cases hnew) fun k node p hnew => by cases hnew

theorem Guarded.addLeaf (hguarded : history.Guarded) (hwf : history.tree.WellFormed)
    {index : LeafNodeIndex} {node : LeafNode K} {tree : TreeSync K}
    (hadd : history.tree.addLeaf node = some (index, tree))
    (hfresh : history.Fresh node.encryptionKey) (p : P) :
    Guarded ⟨tree, Function.update history.member index p,
      history.learn p {node.encryptionKey}⟩ := by
  obtain ⟨hblank, size, -, -, hrewritten⟩ := rewritten_addLeaf hwf hadd
  have hgrown : Guarded (⟨{ history.tree with size := size }, history.member, history.known⟩ :
      KeyHistory K P) := ⟨hguarded.leaf, hguarded.parent⟩
  have hother : ∀ j ≠ index.u32, Function.update history.member index p ⟨j⟩ =
      history.member ⟨j⟩ :=
    fun j hne => Function.update_of_ne (fun heq => hne (congrArg LeafNodeIndex.u32 heq)) _ _
  refine hgrown.rewritten ⟨tree, _, _⟩ hrewritten hother ?_ ?_ ?_
  · rintro q key (hkey | ⟨-, rfl⟩)
    · exact .inl hkey
    · exact .inr ⟨hfresh.known, hfresh.leaf, hfresh.parent⟩
  · rintro node' q heq hkey
    obtain rfl := Option.some.inj heq
    refine (Function.update_self _ _ _).trans ?_
    exact hkey.elim (fun hold => absurd hold (hfresh.known q)) fun hnew => hnew.1.symm
  · -- a parent keeps its key, and the newcomer is unmerged there
    rintro k new q hnew hkey
    obtain ⟨old, hold, rfl⟩ := Option.map_eq_some_iff.mp hnew
    have hknown : old.encryptionKey ∈ history.known q :=
      hkey.elim id fun hkey => absurd hkey.2.symm (hfresh.parent _ old hold ∘ Eq.symm)
    obtain ⟨j, hj, hq, hbelow, hunmerged⟩ := hguarded.parent k _ old q hold hknown
    have hne : j ≠ index.u32 := by
      rintro rfl
      rw [hblank] at hj
      cases hj
    refine ⟨j, ?_, (hother j hne).trans hq, hbelow, fun hmem => ?_⟩
    · exact (hrewritten.leaf j hne).symm ▸ hj
    · rcases List.mem_cons.mp ((List.perm_orderedInsert _ _ _).mem_iff.mp hmem) with heq | hmem
      · exact hne (congrArg LeafNodeIndex.u32 heq)
      · exact hunmerged hmem

/-! ### What a path tells -/

theorem mem_drop_of_key {levels : List ℕ} {keyAt : ℕ → K} {n : ℕ}
    (hnodup : (levels.map keyAt).Nodup) (hk : k ∈ levels)
    (hdrop : keyAt k ∈ (levels.map keyAt).drop n) : k ∈ levels.drop n := by
  rw [← List.map_drop] at hdrop
  obtain ⟨k', hk', heq⟩ := List.mem_map.mp hdrop
  rwa [← List.inj_on_of_nodup_map hnodup (List.mem_of_mem_drop hk') hk heq]

theorem le_of_mem_drop {levels : List ℕ} {n k₀ : ℕ} (hsorted : levels.Pairwise (· < ·))
    (hn : levels[n]? = some k₀) (hk : k ∈ levels.drop n) : k₀ ≤ k := by
  obtain ⟨hlt, rfl⟩ := List.getElem?_eq_some_iff.mp hn
  have hdrop := hsorted.sublist (List.drop_sublist n levels)
  rw [List.drop_eq_getElem_cons hlt] at hk hdrop
  rcases List.mem_cons.mp hk with rfl | hk
  · exact le_rfl
  · exact ((List.pairwise_cons.mp hdrop).1 k hk).le

variable [PathKdf K S] {own : OwnUpdatePath K S} {leafNode : LeafNode K} {keyAt : ℕ → K}
  {secret : S}

theorem keypairs_eq (h : Committed history.tree i secret leafNode keyAt own) :
    own.keypairs = leafNode.encryptionKey :: (history.tree.pathLevels i).map keyAt := by
  rw [← h.keypairs, h.result]

theorem keypairsFrom_derivePath (secret : S) (indices : List ParentNodeIndex) (n : ℕ) :
    ((derivePath secret indices).updatePathNodes[n]?.map fun node =>
      (derivePath node.pathSecret (indices.drop n)).keypairs).getD [] =
        (derivePath secret indices).keypairs.drop n := by
  induction indices generalizing secret n with
  | nil => simp [derivePath]
  | cons index indices ih =>
    cases n with
    | zero => rfl
    | succ n => exact ih _ n

/-- The secret of a node gives the keys from there on. -/
theorem keypairsFrom_eq (h : Committed history.tree i secret leafNode keyAt own)
    (hwf : history.tree.WellFormed) (hi : (history.tree.leaf ⟨i⟩).isSome) (n : ℕ) :
    keypairsFrom ⟨i⟩ own n = ((history.tree.pathLevels i).map keyAt).drop n := by
  rw [← h.keypairs, ← keypairsFrom_derivePath, keypairsFrom, h.filteredDirectPath_eq hwf hi]
  congr 3
  rw [h.result]

/-- Whoever has a key that a secret of a path is sent to has a leaf beside the path. -/
theorem Guarded.exists_beside (hguarded : history.Guarded) (hwf : history.tree.WellFormed)
    (hi : (history.tree.leaf ⟨i⟩).isSome)
    (h : Committed history.tree i secret leafNode keyAt own) {excluded : List LeafNodeIndex}
    {n : ℕ} {resolution : List (TreeNodeIndex × NodeReference K)}
    (hresolution : (own.tree.filteredCopathResolutions excluded ⟨i⟩)[n]? = some resolution)
    {entry : TreeNodeIndex × NodeReference K} (hmem : entry ∈ resolution)
    (hkey : entry.2.encryptionKey ∈ history.known p) :
    ∃ k₀ j, (history.tree.pathLevels i)[n]? = some k₀ ∧ (history.tree.leaf ⟨j⟩).isSome ∧
      history.member ⟨j⟩ = p ∧ j / 2 ^ (k₀ + 1) = i / 2 ^ (k₀ + 1) := by
  have hlt := lt_leafCount_of_isSome (h.wellFormed hwf hi) (h.leaf_isSome hi)
  rw [filteredCopathResolutions_eq hlt, h.toAgreeOff.pathLevels_eq hwf,
    List.getElem?_map] at hresolution
  obtain ⟨k₀, hk₀, rfl⟩ := Option.map_eq_some_iff.mp hresolution
  have hentry := (List.mem_filter.mp hmem).1
  rw [beside, h.toAgreeOff.resolution_eq hwf (twin_ne _).symm] at hentry
  obtain ⟨j, hj, hp, hcovers⟩ := hguarded.exists_covers hentry hkey
  refine ⟨k₀, j, hk₀, hj, hp, ?_⟩
  rw [div_two_pow_succ, below_of_covers hwf hentry hcovers, twin_div_two, div_two_pow_succ]

theorem Guarded.path (hguarded : history.Guarded) (hwf : history.tree.WellFormed)
    (hi : (history.tree.leaf ⟨i⟩).isSome)
    (h : Committed history.tree i secret leafNode keyAt own)
    (hfresh : ∀ key ∈ own.keypairs, history.Fresh key) (hnodup : own.keypairs.Nodup)
    (excluded : List LeafNodeIndex) :
    Guarded ⟨own.tree, history.member, history.learnPath ⟨i⟩ excluded own⟩ := by
  have hwf' := h.wellFormed hwf hi
  have hkeys := keypairs_eq h
  have hrewritten : Rewritten i (own.tree.leaf ⟨i⟩) (fun k => own.tree.parent (above i k))
      history.tree own.tree := ⟨h.toAgreeOff, rfl, fun _ => rfl⟩
  have hfrom : ∀ {n key}, key ∈ keypairsFrom ⟨i⟩ own n →
      key ∈ (history.tree.pathLevels i).map keyAt := fun {n key} hkey => by
    rw [keypairsFrom_eq h hwf hi] at hkey
    exact List.mem_of_mem_drop hkey
  rw [hkeys] at hnodup
  obtain ⟨hhead, hnodup⟩ := List.nodup_cons.mp hnodup
  refine hguarded.rewritten ⟨own.tree, _, _⟩ hrewritten (fun _ _ => rfl) ?_ ?_ ?_
  · rintro q key (hkey | ⟨-, hkey⟩ | ⟨n, _, -, -, hkey⟩ | ⟨_, -, -, -, -, n, -, hkey⟩)
    · exact .inl hkey
    · exact .inr (hfresh key hkey)
    · exact .inr (hfresh key (hkeys ▸ List.mem_cons_of_mem _ (hfrom hkey)))
    · exact .inr (hfresh key (hkeys ▸ List.mem_cons_of_mem _ (hfrom hkey)))
  · -- the key of the new leaf is not among those of the path
    rintro node q hnode hkey
    obtain rfl := Option.some.inj (h.leaf_self.symm.trans hnode)
    have hown : leafNode.encryptionKey ∈ own.keypairs := hkeys ▸ List.mem_cons_self
    rcases hkey with hkey | ⟨rfl, -⟩ | ⟨n, _, -, -, hkey⟩ | ⟨_, -, -, -, -, n, -, hkey⟩
    · exact absurd hkey ((hfresh _ hown).known q)
    · rfl
    · exact absurd (hfrom hkey) hhead
    · exact absurd (hfrom hkey) hhead
  · -- the key of a new node is known where a secret at its level or below is
    rintro k node q hnode hkey
    obtain ⟨hk, heq, hunmerged⟩ := h.exists_key hnode
    have hown : keyAt k ∈ own.keypairs :=
      hkeys ▸ List.mem_cons_of_mem _ (List.mem_map_of_mem hk)
    rw [heq] at hkey
    rw [hunmerged]
    rcases hkey with hkey | ⟨rfl, -⟩ | ⟨n, resolution, hresolution, ⟨entry, hmem, hknown⟩, hkey⟩ |
      ⟨⟨j⟩, -, hne, rfl, hj, n, hposition, hkey⟩
    · exact absurd hkey ((hfresh _ hown).known q)
    · exact ⟨i, h.leaf_isSome hi, rfl, rfl, List.not_mem_nil⟩
    · -- the secret was sent to a key that is known
      obtain ⟨k₀, j, hk₀, hj, hq, hbelow⟩ :=
        hguarded.exists_beside hwf hi h hresolution hmem hknown
      rw [keypairsFrom_eq h hwf hi] at hkey
      have hle := le_of_mem_drop pathLevels_sorted hk₀ (mem_drop_of_key hnodup hk hkey)
      refine ⟨j, h.leaf_isSome hj, hq, ?_, List.not_mem_nil⟩
      exact div_two_pow_eq_of_le (Nat.succ_le_succ hle) hbelow
    · -- the secret came with a welcome
      have hne' : i ≠ j := fun heq => hne (congrArg LeafNodeIndex.mk heq).symm
      obtain ⟨d, hd, hmeet⟩ := exists_meet_of_isSome hwf hi hj hne'
      have hd' : d < own.tree.size.height := by rwa [h.size]
      rw [subtreeRootPosition_eq hwf' (h.leaf_isSome hi) (h.leaf_isSome hj) hmeet hd',
        Option.some_inj, levelsBelow, h.toAgreeOff.pathLevels_eq hwf, ← levelsBelow] at hposition
      rw [keypairsFrom_eq h hwf hi, ← hposition] at hkey
      have hdrop := mem_drop_of_key hnodup hk hkey
      rw [pathLevels_eq_append hwf hj hmeet hd, List.drop_left] at hdrop
      have hle : d ≤ k := by
        rcases List.mem_cons.mp hdrop with rfl | habove
        · exact le_rfl
        · have : d < k := by simpa using (List.mem_filter.mp habove).2
          exact this.le
      refine ⟨j, h.leaf_isSome hj, rfl, ?_, List.not_mem_nil⟩
      exact ((hmeet (k + 1)).mpr (Nat.lt_succ_of_le hle)).symm

/-- The keys from the lowest common node on are those that its secret gives. -/
theorem keypairs_commonDerivation {d : ℕ}
    (h : Committed history.tree i secret leafNode keyAt own) (hwf : history.tree.WellFormed)
    (hi : (history.tree.leaf ⟨i⟩).isSome) (hj : (history.tree.leaf ⟨j⟩).isSome)
    (hmeet : ∀ k, i / 2 ^ k = j / 2 ^ k ↔ d < k) (hd : d < history.tree.size.height) :
    (history.tree.commonDerivation i d secret).keypairs =
      keypairsFrom ⟨i⟩ own (history.tree.levelsBelow i d).length := by
  rw [h.keypairs_common hwf hi hj hmeet hd, keypairsFrom_eq h hwf hi,
    pathLevels_eq_append hwf hj hmeet hd, List.map_append,
    List.drop_left' (List.length_map _)]

/-- What a member gets from a commit is among what it learns from seeing it. -/
theorem mem_learnPath_of_receive {C : Type} [DecidableEq K] [TreeHashes K] [Hpke K S C]
    {commit : PathCommit K S} {added : List LeafNodeIndex} {keys keypairs : List K}
    {commitSecret : S} {index : LeafNodeIndex} (hwf : history.tree.WellFormed)
    (hsender : (history.tree.leaf commit.sender).isSome)
    (hindex : (history.tree.leaf index).isSome) (hne : index ≠ commit.sender)
    (hown : history.tree.applyOwnUpdatePath commit.sender commit.pathSecret commit.newLeaf =
      some own)
    (hkeys : ∀ key ∈ keys, key ∈ history.known (history.member index))
    (hreceive : MlsGroup.receive C commit own added keys index = some (keypairs, commitSecret)) :
    ∀ key ∈ keypairs, key ∈ history.learnPath commit.sender added own (history.member index) := by
  obtain ⟨j⟩ := index
  obtain ⟨own', leafNode, keyAt, hown', h, -⟩ :=
    exists_applyOwnUpdatePath (i := commit.sender.u32) hwf hsender commit.pathSecret
      commit.newLeaf_parentHash
  obtain rfl : own = own' := Option.some.inj (hown.symm.trans hown')
  have hne' : commit.sender.u32 ≠ j := fun heq => hne (congrArg LeafNodeIndex.mk heq).symm
  obtain ⟨d, hd, hmeet⟩ := exists_meet_of_isSome hwf hsender hindex hne'
  have hd' : d < own.tree.size.height := by rwa [h.size]
  have hcommon := keypairs_commonDerivation h hwf hsender hindex hmeet hd
  rw [MlsGroup.receive] at hreceive
  intro key hkey
  split_ifs at hreceive with hadded
  · -- a newcomer is welcomed with the secret of the lowest common node
    rw [h.derivePathSecrets_eq hwf hsender hindex hne' hmeet hd] at hreceive
    obtain ⟨rfl, -⟩ := Prod.mk.inj (Option.some.inj hreceive)
    refine .inr (.inr (.inr ⟨⟨j⟩, hadded, hne, rfl, hindex, _, ?_, hcommon ▸ hkey⟩))
    rw [subtreeRootPosition_eq (h.wellFormed hwf hsender) (h.leaf_isSome hsender)
      (h.leaf_isSome hindex) hmeet hd', levelsBelow, h.toAgreeOff.pathLevels_eq hwf,
      ← levelsBelow]
  · -- another member has a key that this secret was sent to
    have hdecrypt := toOption_eq_some_iff.mp hreceive
    obtain ⟨sent, hsent, howned⟩ := exists_mem_keysBeside hmeet hdecrypt
    rw [h.decryptPath_eq hwf hsender hindex hmeet hd ⟨sent, hsent, howned⟩] at hdecrypt
    obtain ⟨rfl, -⟩ := Prod.mk.inj (Except.ok.inj hdecrypt)
    obtain ⟨entry, hentry, rfl⟩ := List.mem_map.mp hsent
    refine .inr (.inr (.inl ⟨_, _, ?_, ⟨entry, hentry, hkeys _ howned⟩, hcommon ▸ hkey⟩))
    have hlt := lt_leafCount_of_isSome (h.wellFormed hwf hsender) (h.leaf_isSome hsender)
    rw [filteredCopathResolutions_eq hlt, h.toAgreeOff.pathLevels_eq hwf,
      pathLevels_eq_append hwf hindex hmeet hd, List.map_append,
      List.getElem?_append_right (List.length_map _).le, List.length_map, Nat.sub_self,
      List.map_cons, List.getElem?_cons_zero, beside, ← resolution_excluding]

end KeyHistory

variable [TreeHashes K] [PathKdf K S] {history history' : KeyHistory K P} {p : P}

theorem KeyStep.guarded (hstep : KeyStep S history history') (hwf : history.tree.WellFormed)
    (hguarded : history.Guarded) : history'.tree.WellFormed ∧ history'.Guarded := by
  cases hstep with
  | @update i node hi hfresh =>
    have hlt := lt_leafCount_of_isSome hwf (i := i.u32) hi
    exact ⟨hwf.updateLeaf hlt node, hguarded.updateLeaf hwf hlt hfresh⟩
  | @remove i hi =>
    have hlt := lt_leafCount_of_isSome hwf (i := i.u32) hi
    exact ⟨hwf.blankLeaf hlt, hguarded.blankLeaf hwf hlt⟩
  | add hadd hfresh p => exact ⟨hwf.addLeaf hadd, hguarded.addLeaf hwf hadd hfresh p⟩
  | trim =>
    obtain ⟨size, htrim, hwf'⟩ := trimTree_eq hwf
    refine ⟨hwf', ?_⟩
    rw [htrim]
    exact ⟨hguarded.leaf, hguarded.parent⟩
  | @path i pathSecret newLeaf own hi hnew hown hfresh hnodup excluded =>
    obtain ⟨own', leafNode, keyAt, hown', hcommitted, -⟩ :=
      exists_applyOwnUpdatePath (i := i.u32) hwf hi pathSecret hnew
    obtain rfl : own = own' := Option.some.inj (hown.symm.trans hown')
    exact ⟨hcommitted.wellFormed hwf hi,
      hguarded.path hwf hi hcommitted hfresh hnodup excluded⟩

theorem KeyRun.guarded (hrun : KeyRun S history) :
    history.tree.WellFormed ∧ history.Guarded := by
  induction hrun with
  | start node p =>
    refine ⟨MlsGroup.wellFormed_new node, fun i node' q hnode hkey => hkey.1.symm, ?_⟩
    rintro k m full q hfull
    cases hfull
  | step hrun hstep ih => exact hstep.guarded ih.1 ih.2

/-- In every run, parties know only keys of nodes above their leaves, and a party without a leaf
learns nothing from a commit. -/
theorem KeyRun.knows_below (hrun : KeyRun S history) : history.Guarded ∧
    ∀ (p : P) (i : LeafNodeIndex) (excluded : List LeafNodeIndex) (pathSecret : S)
      (newLeaf : Bytes → LeafNode K) (own : OwnUpdatePath K S),
      (∀ j, (history.tree.leaf j).isSome → history.member j ≠ p) →
      (history.tree.leaf i).isSome → (∀ hash, (newLeaf hash).parentHash = some hash) →
      history.tree.applyOwnUpdatePath i pathSecret newLeaf = some own →
      history.learnPath i excluded own p = history.known p := by
  obtain ⟨hwf, hguarded⟩ := hrun.guarded
  refine ⟨hguarded, ?_⟩
  intro p i excluded pathSecret newLeaf own hout hi hnew hown
  obtain ⟨own', leafNode, keyAt, hown', hcommitted, -⟩ :=
    exists_applyOwnUpdatePath (i := i.u32) hwf hi pathSecret hnew
  obtain rfl : own = own' := Option.some.inj (hown.symm.trans hown')
  refine Set.Subset.antisymm ?_ fun key => .inl
  rintro key (hkey | ⟨rfl, -⟩ | ⟨n, resolution, hresolution, ⟨entry, hmem, hknown⟩, -⟩ |
    ⟨j, -, -, hp, hj, -⟩)
  · exact hkey
  · exact absurd rfl (hout i hi)
  · obtain ⟨k₀, j, -, hj, hp, -⟩ :=
      hguarded.exists_beside hwf hi hcommitted hresolution hmem hknown
    exact absurd hp (hout ⟨j⟩ hj)
  · exact absurd hp (hout j hj)

section Sample

open MlsGroup

omit [TreeHashes K] in
/-- Whether a key is fresh is seen from the nodes within the tree. -/
theorem KeyHistory.fresh_of_forall_lt (hwf : history.tree.WellFormed) {key : K}
    (hknown : ∀ p, key ∉ history.known p)
    (hleaf : ∀ i < history.tree.leafCount, ∀ node ∈ (history.tree.leaf ⟨i⟩).toList,
      node.encryptionKey ≠ key)
    (hparent : ∀ k < history.tree.size.height, ∀ m < history.tree.leafCount,
      ∀ node ∈ (history.tree.parent (parentAt k m)).toList, node.encryptionKey ≠ key) :
    history.Fresh key where
  known := hknown
  leaf i node hnode := hleaf i.u32 (hwf.leaf_lt _ node hnode) node (by simp [hnode])
  parent n node hnode := by
    obtain ⟨k, m, hn⟩ := exists_node n.u32
    obtain rfl : parentAt k m = n := congrArg ParentNodeIndex.mk hn
    obtain ⟨i, hi, hside⟩ := hwf.both k m node hnode (2 * m) (by omega)
    have hlt := lt_leafCount_of_isSome hwf hi
    have hle : i / 2 ^ k ≤ i := Nat.div_le_self _ _
    exact hparent k (hwf.parent_lt k m node hnode) m (by omega) node (by simp [hnode])

/-- A party joins, with a leaf of its own. -/
def KeyHistory.joined (history : KeyHistory SampleSecret ℕ) (number p : ℕ) :
    KeyHistory SampleSecret ℕ :=
  match history.tree.addLeaf (sampleLeaf number none) with
  | none => history
  | some (index, tree) =>
    ⟨tree, Function.update history.member index p, history.learn p {⟨number⟩}⟩

theorem KeyRun.joined {history : KeyHistory SampleSecret ℕ} (hrun : KeyRun SampleSecret history)
    (number p : ℕ) (hfresh : history.Fresh ⟨number⟩) :
    KeyRun SampleSecret (history.joined number p) := by
  rw [KeyHistory.joined]
  cases hadd : history.tree.addLeaf (sampleLeaf number none) with
  | none => exact hrun
  | some added => exact hrun.step (.add hadd hfresh p)

theorem KeyHistory.joined_eq (history : KeyHistory SampleSecret ℕ) (number p : ℕ)
    (index : LeafNodeIndex)
    (hadd : (history.tree.addLeaf (sampleLeaf number none)).map (·.1) = some index) :
    (history.joined number p).member = Function.update history.member index p ∧
      (history.joined number p).known = history.learn p {⟨number⟩} := by
  obtain ⟨added, hadded, rfl⟩ := Option.map_eq_some_iff.mp hadd
  rw [KeyHistory.joined, hadded]
  exact ⟨rfl, rfl⟩

def firstParty : KeyHistory SampleSecret ℕ :=
  ⟨(MlsGroup.new (sampleLeaf 10 none)).tree, fun _ => 0, fun q => {key | q = 0 ∧ key = ⟨10⟩}⟩

/-- Three parties with a leaf each. -/
def threeParties : KeyHistory SampleSecret ℕ := (firstParty.joined 12 1).joined 14 2

theorem threeParties_eq :
    threeParties.member = Function.update (Function.update (fun _ => 0) ⟨1⟩ 1) ⟨2⟩ 2 ∧
      ∀ p key, key ∈ threeParties.known p ↔
        ((p = 0 ∧ key = ⟨10⟩) ∨ p = 1 ∧ key = ⟨12⟩) ∨ p = 2 ∧ key = ⟨14⟩ := by
  obtain ⟨hmember, hknown⟩ := joined_eq firstParty 12 1 ⟨1⟩ (by decide +kernel)
  obtain ⟨hmember', hknown'⟩ := joined_eq (firstParty.joined 12 1) 14 2 ⟨2⟩ (by decide +kernel)
  rw [hmember] at hmember'
  refine ⟨hmember', fun p key => ?_⟩
  rw [threeParties, hknown', learn, hknown]
  exact Iff.rfl

theorem keyRun_threeParties : KeyRun SampleSecret threeParties := by
  have hfirst : KeyRun SampleSecret firstParty := .start (sampleLeaf 10 none) 0
  have hsecond := hfirst.joined 12 1 (fresh_of_forall_lt hfirst.guarded.1
    (fun p hkey => by cases hkey.2) (by decide +kernel) (by decide +kernel))
  refine hsecond.joined 14 2 (fresh_of_forall_lt hsecond.guarded.1 (fun p hkey => ?_)
    (by decide +kernel) (by decide +kernel))
  rw [(joined_eq firstParty 12 1 ⟨1⟩ (by decide +kernel)).2] at hkey
  rcases hkey with ⟨-, hkey⟩ | ⟨-, hkey⟩ <;> cases hkey

/-- Only one leaf is the second party's. -/
theorem member_threeParties_ne {j : LeafNodeIndex} (hne : j ≠ ⟨1⟩) :
    threeParties.member j ≠ 1 := by
  rw [threeParties_eq.1]
  by_cases htwo : j = ⟨2⟩
  · rw [htwo, Function.update_self]
    decide
  · rw [Function.update_of_ne htwo, Function.update_of_ne hne]
    decide

/-- The keys of the path below are new. -/
theorem fresh_threeParties {key : SampleSecret} (hkey : key ∈ [⟨20⟩, ⟨11⟩, ⟨21⟩]) :
    threeParties.Fresh key := by
  refine fresh_of_forall_lt keyRun_threeParties.guarded.1 (fun p hold => ?_) ?_ ?_
  · rcases (threeParties_eq.2 p key).mp hold with (⟨-, rfl⟩ | ⟨-, rfl⟩) | ⟨-, rfl⟩ <;>
      revert hkey <;> decide
  · revert key
    decide +kernel
  · revert key
    decide +kernel

/-- The first party sends a path to the others. -/
def partyCommit : PathCommit SampleSecret SampleSecret :=
  { sampleCommit with proposals := ⟨[], [], []⟩ }

/-- A party that was sent a path, and was then removed, knows a key of the path and learns nothing
more. -/
theorem KeyRun.knows_below_removedReader : ∃ history : KeyHistory SampleSecret ℕ,
    ⟨11⟩ ∈ history.known 1 ∧ (∀ j, (history.tree.leaf j).isSome → history.member j ≠ 1) ∧
    history.Guarded ∧
    ∀ (i : LeafNodeIndex) (excluded : List LeafNodeIndex) (pathSecret : SampleSecret)
      (newLeaf : Bytes → LeafNode SampleSecret) (own : OwnUpdatePath SampleSecret SampleSecret),
      (history.tree.leaf i).isSome → (∀ hash, (newLeaf hash).parentHash = some hash) →
      history.tree.applyOwnUpdatePath i pathSecret newLeaf = some own →
      history.learnPath i excluded own 1 = history.known 1 := by
  have hwf := keyRun_threeParties.guarded.1
  obtain ⟨hmember, hknown⟩ := threeParties_eq
  have hpath : (threeParties.tree.applyOwnUpdatePath ⟨0⟩ ⟨5⟩ partyCommit.newLeaf).map (fun own =>
      (own.keypairs, (own.tree.leaf ⟨1⟩).isSome,
        receive (SampleSecret × SampleSecret) partyCommit own [] [⟨12⟩] ⟨1⟩)) =
      some ([⟨20⟩, ⟨11⟩, ⟨21⟩], true, some ([⟨11⟩, ⟨21⟩], ⟨20⟩)) := by
    decide +kernel
  obtain ⟨own, hown, hresult⟩ := Option.map_eq_some_iff.mp hpath
  obtain ⟨hkeypairs, hresult⟩ := Prod.mk.inj hresult
  obtain ⟨hleaf, hreceive⟩ := Prod.mk.inj hresult
  -- the second party decrypts the path with the key of its leaf
  have hreader : threeParties.member ⟨1⟩ = 1 := by
    rw [hmember]
    decide
  have hleafKey : ∀ key ∈ [⟨12⟩], key ∈ threeParties.known (threeParties.member ⟨1⟩) := by
    intro key hkey
    rw [hreader, hknown, List.mem_singleton.mp hkey]
    simp
  have hlearned : ⟨11⟩ ∈ threeParties.learnPath ⟨0⟩ [] own (threeParties.member ⟨1⟩) :=
    mem_learnPath_of_receive hwf (by decide +kernel) (by decide +kernel) (by decide) hown hleafKey
      hreceive ⟨11⟩ (by decide)
  rw [hreader] at hlearned
  -- then its leaf is blanked
  have hsent := keyRun_threeParties.step (.path (i := ⟨0⟩) (by decide +kernel)
    partyCommit.newLeaf_parentHash hown (fun key hkey => fresh_threeParties (hkeypairs ▸ hkey))
    (by rw [hkeypairs]; decide) [])
  have hremoved := hsent.step (.remove (i := ⟨1⟩) hleaf)
  have hout : ∀ j, ((own.tree.blankLeaf ⟨1⟩).leaf j).isSome → threeParties.member j ≠ 1 := by
    intro j hj
    apply member_threeParties_ne
    rintro rfl
    rw [leaf_blankLeaf, Function.update_self] at hj
    cases hj
  obtain ⟨hguarded, hlearns⟩ := hremoved.knows_below
  exact ⟨_, hlearned, hout, hguarded, fun i excluded pathSecret newLeaf own =>
    hlearns 1 i excluded pathSecret newLeaf own hout⟩

end Sample

end SafeHub
