import SafeHub.Crypto.TreeKem

/-!
# Runs of a group

A commit applies its proposals to the tree of the group, and may bring an update path. Each member
then stores the key pairs that the new tree says it has. Newcomers have the key of their leaf, and
are welcomed with one secret of the path.

## Main definitions

* `applyProposals` — updates, removals and additions, and the tree trimmed after them
* `derivePathSecrets` — what a newcomer derives from the secret of its welcome
* `MlsGroup`, `PathCommit`, `Run` — a group with the keys of its members, and its runs

## Main results

* `Run.held` — in every run each member has the keys that the tree says it has
* `Run.commit_agrees` — a commit gives every other member the committer's tree and secret
-/

namespace SafeHub

open CompleteTree

/-! ### Commits -/

/-- The proposals of a commit, by their types. -/
structure ProposalQueue (K : Type) where
  updates : List (LeafNode K × LeafNodeIndex)
  removes : List LeafNodeIndex
  adds : List (LeafNode K)

namespace TreeSync

variable {K S C : Type} (tree : TreeSync K)

/-- The new leaves, one after the other. -/
def addLeaves : List (LeafNode K) → TreeSync K → Option (TreeSync K × List LeafNodeIndex)
  | [], tree => some (tree, [])
  | node :: nodes, tree => do
    let (index, tree) ← tree.addLeaf node
    let (tree, added) ← addLeaves nodes tree
    return (tree, index :: added)

/-- Updates come before removals, and removals before additions. -/
def applyProposals (queue : ProposalQueue K) : Option (TreeSync K × List LeafNodeIndex) := do
  let tree := queue.updates.foldl (fun tree update => tree.updateLeaf update.1 update.2) tree
  let tree := queue.removes.foldl (fun tree removed => tree.blankLeaf removed) tree
  let (tree, added) ← addLeaves queue.adds tree
  return (tree.trimTree, added)

end TreeSync

namespace TreeSync

variable {K : Type} {tree tree' : TreeSync K} {k m i j : ℕ}

/-- Each member has the keys that the tree says it has. -/
def Held (tree : TreeSync K) (owned : LeafNodeIndex → List K) : Prop :=
  ∀ j, (tree.leaf j).isSome → ∀ key ∈ tree.encryptionKeys j, key ∈ owned j

/-- What a rewritten path leaves to the other members. -/
theorem encryptionKeys_of_rewritten {new : Option (LeafNode K)} {nodes : ℕ → Option (ParentNode K)}
    (h : Rewritten i new nodes tree tree') (hwf : tree.WellFormed) (hwf' : tree'.WellFormed)
    (hj : (tree'.leaf ⟨j⟩).isSome) (hne : j ≠ i)
    (hold : ∀ k node, nodes k = some node → ∃ old, tree.parent (above i k) = some old ∧
      old.encryptionKey = node.encryptionKey ∧ old.unmergedLeaves ⊆ node.unmergedLeaves)
    {key : K} (hkey : key ∈ tree'.encryptionKeys ⟨j⟩) : key ∈ tree.encryptionKeys ⟨j⟩ := by
  have hj' : (tree.leaf ⟨j⟩).isSome := h.leaf j hne ▸ hj
  rw [mem_encryptionKeys_iff hwf' (lt_leafCount_of_isSome hwf' hj)] at hkey
  rw [mem_encryptionKeys_iff hwf (lt_leafCount_of_isSome hwf hj')]
  rcases hkey with ⟨leaf, hleaf, rfl⟩ | ⟨k, node, hnode, hunmerged, rfl⟩
  · exact .inl ⟨leaf, (h.leaf j hne).symm.trans hleaf, rfl⟩
  · right
    rw [above, h.parent_eq] at hnode
    -- a node on the rewritten path took its key from an old one
    split_ifs at hnode with hon
    · obtain ⟨old, hsome, hkey, hsubset⟩ := hold k node hnode
      refine ⟨k, old, ?_, fun hmem => hunmerged (hsubset hmem), hkey⟩
      rwa [above, ← hon]
    · exact ⟨k, node, hnode, hunmerged, rfl⟩

/-- A new leaf has the keys that it is not unmerged for. -/
theorem encryptionKeys_of_rewritten_self {new : LeafNode K} {nodes : ℕ → Option (ParentNode K)}
    (h : Rewritten i (some new) nodes tree tree') (hwf' : tree'.WellFormed)
    (hunmerged : ∀ k node, nodes k = some node → ⟨i⟩ ∈ node.unmergedLeaves)
    {key : K} (hkey : key ∈ tree'.encryptionKeys ⟨i⟩) : key = new.encryptionKey := by
  have hi : (tree'.leaf ⟨i⟩).isSome := by rw [h.leaf_self]; rfl
  rw [mem_encryptionKeys_iff hwf' (lt_leafCount_of_isSome hwf' hi)] at hkey
  rcases hkey with ⟨leaf, hleaf, rfl⟩ | ⟨k, node, hnode, hnot, rfl⟩
  · rw [h.leaf_self] at hleaf
    rw [Option.some.inj hleaf]
  · rw [h.parent_above] at hnode
    exact absurd (hunmerged k node hnode) hnot

/-- Trees with the same nodes give the same keys. -/
theorem encryptionKeys_resize {size : TreeSize} (hwf : tree.WellFormed)
    (hwf' : ({ tree with size := size } : TreeSync K).WellFormed) (hj : (tree.leaf ⟨j⟩).isSome)
    {key : K} : key ∈ ({ tree with size := size } : TreeSync K).encryptionKeys ⟨j⟩ ↔
      key ∈ tree.encryptionKeys ⟨j⟩ := by
  rw [mem_encryptionKeys_iff hwf' (lt_leafCount_of_isSome hwf' hj),
    mem_encryptionKeys_iff hwf (lt_leafCount_of_isSome hwf hj)]

variable {owned : LeafNodeIndex → List K}

theorem Held.updateLeaf (hheld : tree.Held owned) (hwf : tree.WellFormed) {node : LeafNode K}
    (hi : i < tree.leafCount) (hnode : node.encryptionKey ∈ owned ⟨i⟩) :
    (tree.updateLeaf node ⟨i⟩).Held owned := by
  have hrewritten := rewritten_setDirectPathToBlank hwf hi (some node)
  have hwf' := hwf.updateLeaf hi node
  rintro ⟨j⟩ hj key hkey
  by_cases hne : j = i
  · subst hne
    rw [encryptionKeys_of_rewritten_self hrewritten hwf' nofun hkey]
    exact hnode
  · refine hheld ⟨j⟩ (hrewritten.leaf j hne ▸ hj) key ?_
    exact encryptionKeys_of_rewritten hrewritten hwf hwf' hj hne nofun hkey

theorem Held.blankLeaf (hheld : tree.Held owned) (hwf : tree.WellFormed)
    (hi : i < tree.leafCount) : (tree.blankLeaf ⟨i⟩).Held owned := by
  have hrewritten := rewritten_setDirectPathToBlank hwf hi none
  have hwf' := hwf.blankLeaf hi
  rintro ⟨j⟩ hj key hkey
  have hne : j ≠ i := by
    rintro rfl
    rw [TreeSync.blankLeaf, hrewritten.leaf_self] at hj
    cases hj
  refine hheld ⟨j⟩ (hrewritten.leaf j hne ▸ hj) key ?_
  exact encryptionKeys_of_rewritten hrewritten hwf hwf' hj hne nofun hkey

/-- A newcomer has the key of its leaf. -/
theorem Held.addLeaf (hheld : tree.Held owned) (hwf : tree.WellFormed) {node : LeafNode K}
    {index : LeafNodeIndex} (h : tree.addLeaf node = some (index, tree')) :
    tree'.Held (Function.update owned index [node.encryptionKey]) := by
  have hwf' := hwf.addLeaf h
  obtain ⟨-, size, hle, hlt, hrewritten⟩ := rewritten_addLeaf hwf h
  have hgrown := hwf.grow hle
  rintro ⟨j⟩ hj key hkey
  by_cases hne : j = index.u32
  · subst hne
    rw [Function.update_self]
    refine List.mem_singleton.mpr (encryptionKeys_of_rewritten_self hrewritten hwf' ?_ hkey)
    intro k new hnew
    obtain ⟨old, -, rfl⟩ := Option.map_eq_some_iff.mp hnew
    exact (List.perm_orderedInsert _ _ _).mem_iff.mpr List.mem_cons_self
  · have hleaf : (tree.leaf ⟨j⟩).isSome := hrewritten.leaf j hne ▸ hj
    rw [Function.update_of_ne fun heq => hne (congrArg LeafNodeIndex.u32 heq)]
    refine hheld ⟨j⟩ hleaf key ((encryptionKeys_resize hwf hgrown hleaf).mp ?_)
    refine encryptionKeys_of_rewritten hrewritten hgrown hwf' hj hne ?_ hkey
    intro k new hnew
    obtain ⟨old, hold, rfl⟩ := Option.map_eq_some_iff.mp hnew
    refine ⟨old, hold, rfl, fun u hu => ?_⟩
    exact (List.perm_orderedInsert _ _ _).mem_iff.mpr (List.mem_cons_of_mem _ hu)

theorem Held.trimTree (hheld : tree.Held owned) (hwf : tree.WellFormed) :
    tree.trimTree.Held owned := by
  obtain ⟨size, heq, hwf'⟩ := trimTree_eq hwf
  rw [heq] at hwf' ⊢
  exact fun j hj key hkey => hheld j hj key ((encryptionKeys_resize hwf hwf' hj).mp hkey)

end TreeSync

/-! ### Proposals -/

namespace TreeSync

variable {K : Type} {tree tree' : TreeSync K} {i j : ℕ} {owned : LeafNodeIndex → List K}
  {added : List LeafNodeIndex}

/-- The keys that the updates of a member bring. -/
def updateKeys (updates : List (LeafNode K × LeafNodeIndex)) (index : LeafNodeIndex) : List K :=
  (updates.filter (·.2 = index)).map (·.1.encryptionKey)

theorem leafCount_setDirectPathToBlank (index : LeafNodeIndex) :
    (tree.setDirectPathToBlank index).leafCount = tree.leafCount := by
  rw [setDirectPathToBlank, foldl_replaceParent_none]
  rfl

@[simp] theorem leaf_updateLeaf (node : LeafNode K) (index : LeafNodeIndex) :
    (tree.updateLeaf node index).leaf = Function.update tree.leaf index (some node) := by
  rw [updateLeaf, setDirectPathToBlank, foldl_replaceParent_none]
  rfl

@[simp] theorem leaf_blankLeaf (index : LeafNodeIndex) :
    (tree.blankLeaf index).leaf = Function.update tree.leaf index none := by
  rw [blankLeaf, setDirectPathToBlank, foldl_replaceParent_none]
  rfl

/-- Updates blank no leaf. -/
theorem isSome_leaf_updates {updates : List (LeafNode K × LeafNodeIndex)} {index : LeafNodeIndex}
    (hleaf : (tree.leaf index).isSome) : ((updates.foldl (fun tree update =>
      tree.updateLeaf update.1 update.2) tree).leaf index).isSome := by
  induction updates generalizing tree with
  | nil => exact hleaf
  | cons update updates ih =>
    refine ih ?_
    rw [leaf_updateLeaf]
    by_cases hindex : index = update.2
    · rw [hindex, Function.update_self]
      rfl
    · rwa [Function.update_of_ne hindex]

theorem leaf_removes {removes : List LeafNodeIndex} {index : LeafNodeIndex}
    (hindex : index ∉ removes) :
    (removes.foldl (fun tree removed => tree.blankLeaf removed) tree).leaf index =
      tree.leaf index := by
  induction removes generalizing tree with
  | nil => rfl
  | cons removed removes ih =>
    obtain ⟨hne, hindex⟩ := not_or.mp (mt List.mem_cons.mpr hindex)
    rw [List.foldl_cons, ih hindex, leaf_blankLeaf, Function.update_of_ne hne]

theorem held_updates {updates : List (LeafNode K × LeafNodeIndex)} (hwf : tree.WellFormed)
    (hheld : tree.Held owned) (hin : ∀ update ∈ updates, update.2.u32 < tree.leafCount)
    (howned : ∀ update ∈ updates, update.1.encryptionKey ∈ owned update.2) :
    let tree' := updates.foldl (fun tree update => tree.updateLeaf update.1 update.2) tree
    tree'.WellFormed ∧ tree'.Held owned ∧ tree'.leafCount = tree.leafCount := by
  induction updates generalizing tree with
  | nil => exact ⟨hwf, hheld, rfl⟩
  | cons update updates ih =>
    obtain ⟨hfirst, hin⟩ := List.forall_mem_cons.mp hin
    obtain ⟨hkey, howned⟩ := List.forall_mem_cons.mp howned
    have hcount : (tree.updateLeaf update.1 update.2).leafCount = tree.leafCount :=
      leafCount_setDirectPathToBlank _
    obtain ⟨hwf', hheld', hcount'⟩ := ih (hwf.updateLeaf hfirst update.1)
      (hheld.updateLeaf hwf hfirst hkey) (fun u hu => hcount.symm ▸ hin u hu) howned
    exact ⟨hwf', hheld', hcount'.trans hcount⟩

theorem held_removes {removes : List LeafNodeIndex} (hwf : tree.WellFormed)
    (hheld : tree.Held owned) (hin : ∀ removed ∈ removes, removed.u32 < tree.leafCount) :
    let tree' := removes.foldl (fun tree removed => tree.blankLeaf removed) tree
    tree'.WellFormed ∧ tree'.Held owned := by
  induction removes generalizing tree with
  | nil => exact ⟨hwf, hheld⟩
  | cons removed removes ih =>
    obtain ⟨hfirst, hin⟩ := List.forall_mem_cons.mp hin
    have hcount : (tree.blankLeaf removed).leafCount = tree.leafCount :=
      leafCount_setDirectPathToBlank _
    exact ih (hwf.blankLeaf hfirst) (hheld.blankLeaf hwf hfirst) fun r hr => hcount.symm ▸ hin r hr

/-- Each member has its own keys, and a newcomer that of its leaf. -/
def keysWith (tree : TreeSync K) (added : List LeafNodeIndex) (owned : LeafNodeIndex → List K)
    (index : LeafNodeIndex) : List K :=
  if index ∈ added then ((tree.leaf index).map (·.encryptionKey)).toList else owned index

theorem leaf_addLeaf (hwf : tree.WellFormed) {node : LeafNode K} {index : LeafNodeIndex}
    (h : tree.addLeaf node = some (index, tree')) :
    tree.leaf index = none ∧ tree'.leaf = Function.update tree.leaf index (some node) := by
  obtain ⟨hblank, size, -, -, hrewritten⟩ := rewritten_addLeaf hwf h
  obtain ⟨i⟩ := index
  refine ⟨hblank, funext fun ⟨j⟩ => ?_⟩
  by_cases hne : j = i
  · rw [hne, Function.update_self]
    exact hrewritten.leaf_self
  · rw [Function.update_of_ne fun heq => hne (congrArg LeafNodeIndex.u32 heq)]
    exact hrewritten.leaf j hne

/-- The new leaves were blank, and the others are as they were. -/
theorem leaf_addLeaves {nodes : List (LeafNode K)} (hwf : tree.WellFormed)
    (h : addLeaves nodes tree = some (tree', added)) :
    (∀ index ∈ added, tree.leaf index = none ∧ (tree'.leaf index).isSome) ∧
      ∀ index ∉ added, tree'.leaf index = tree.leaf index := by
  induction nodes generalizing tree added with
  | nil =>
    obtain ⟨rfl, rfl⟩ := Prod.mk.inj (Option.some.inj h)
    exact ⟨nofun, fun _ _ => rfl⟩
  | cons node nodes ih =>
    obtain ⟨⟨index, grown⟩, hadd, hrest⟩ := Option.bind_eq_some_iff.mp h
    obtain ⟨⟨_, added'⟩, hadds, heq⟩ := Option.bind_eq_some_iff.mp hrest
    obtain ⟨rfl, rfl⟩ := Prod.mk.inj (Option.some.inj heq)
    obtain ⟨hblank, hleaf⟩ := leaf_addLeaf hwf hadd
    obtain ⟨hnew, hkept⟩ := ih (hwf.addLeaf hadd) hadds
    have hself : grown.leaf index = some node := by rw [hleaf, Function.update_self]
    -- later leaves go to places that are blank then
    have hnot : index ∉ added' := fun hmem => by
      rw [(hnew index hmem).1] at hself
      cases hself
    refine ⟨?_, ?_⟩
    · intro index' hmem
      rcases List.mem_cons.mp hmem with rfl | hmem
      · exact ⟨hblank, by rw [hkept _ hnot, hself]; rfl⟩
      · have hne : index' ≠ index := fun heq => hnot (heq ▸ hmem)
        obtain ⟨hnone, hsome⟩ := hnew index' hmem
        rw [hleaf, Function.update_of_ne hne] at hnone
        exact ⟨hnone, hsome⟩
    · intro index' hmem
      obtain ⟨hne, hmem⟩ := not_or.mp (mt List.mem_cons.mpr hmem)
      rw [hkept index' hmem, hleaf, Function.update_of_ne hne]

theorem held_addLeaves {nodes : List (LeafNode K)} (hwf : tree.WellFormed)
    (hheld : tree.Held owned) (h : addLeaves nodes tree = some (tree', added)) :
    tree'.WellFormed ∧ tree'.Held (tree'.keysWith added owned) := by
  induction nodes generalizing tree added owned with
  | nil =>
    obtain ⟨rfl, rfl⟩ := Prod.mk.inj (Option.some.inj h)
    exact ⟨hwf, fun j hj key hkey => by
      rw [keysWith, if_neg List.not_mem_nil]
      exact hheld j hj key hkey⟩
  | cons node nodes ih =>
    obtain ⟨⟨index, grown⟩, hadd, hrest⟩ := Option.bind_eq_some_iff.mp h
    obtain ⟨⟨_, added'⟩, hadds, heq⟩ := Option.bind_eq_some_iff.mp hrest
    obtain ⟨rfl, rfl⟩ := Prod.mk.inj (Option.some.inj heq)
    obtain ⟨hblank, hleaf⟩ := leaf_addLeaf hwf hadd
    have hgrown := hwf.addLeaf hadd
    obtain ⟨hwf', hheld'⟩ := ih hgrown (hheld.addLeaf hwf hadd) hadds
    obtain ⟨hnew, hkept⟩ := leaf_addLeaves hgrown hadds
    refine ⟨hwf', fun j hj key hkey => ?_⟩
    have hkey' := hheld' j hj key hkey
    rw [keysWith] at hkey' ⊢
    by_cases hmem : j ∈ added'
    · rw [if_pos hmem] at hkey'
      rwa [if_pos (List.mem_cons_of_mem _ hmem)]
    · rw [if_neg hmem] at hkey'
      by_cases hne : j = index
      · subst hne
        rw [Function.update_self] at hkey'
        rw [if_pos List.mem_cons_self, hkept j hmem, hleaf, Function.update_self]
        exact hkey'
      · rw [Function.update_of_ne hne] at hkey'
        rw [if_neg fun h => (List.mem_cons.mp h).elim hne hmem]
        exact hkey'

/-- Updates are by members, and members are removed. -/
structure Proposed (tree : TreeSync K) (queue : ProposalQueue K) : Prop where
  updates : ∀ update ∈ queue.updates, (tree.leaf update.2).isSome
  removes : ∀ removed ∈ queue.removes, (tree.leaf removed).isSome

/-- After the proposals, members have the keys of the tree with those of their own updates. -/
theorem held_applyProposals {queue : ProposalQueue K} (hwf : tree.WellFormed)
    (hheld : tree.Held owned) (hproposed : tree.Proposed queue)
    (h : tree.applyProposals queue = some (tree', added)) :
    tree'.WellFormed ∧ tree'.Held (tree'.keysWith added fun index =>
      owned index ++ updateKeys queue.updates index) ∧
      ∀ index, (tree.leaf index).isSome → index ∉ queue.removes →
        (tree'.leaf index).isSome ∧ index ∉ added := by
  obtain ⟨⟨full, added⟩, hadds, heq⟩ := Option.bind_eq_some_iff.mp h
  obtain ⟨rfl, rfl⟩ := Prod.mk.inj (Option.some.inj heq)
  -- what members have to begin with is enough for the updates, the rest only takes away or adds
  have hmore : tree.Held fun index => owned index ++ updateKeys queue.updates index :=
    fun j hj key hkey => List.mem_append_left _ (hheld j hj key hkey)
  obtain ⟨hwf₁, hheld₁, hcount⟩ := held_updates hwf hmore
    (fun update hu => lt_leafCount_of_isSome hwf (hproposed.updates update hu))
    (fun update hu => List.mem_append_right _ (List.mem_map_of_mem
      (List.mem_filter.mpr ⟨hu, decide_eq_true rfl⟩)))
  obtain ⟨hwf₂, hheld₂⟩ := held_removes hwf₁ hheld₁
    (fun removed hr => hcount.symm ▸ lt_leafCount_of_isSome hwf (hproposed.removes removed hr))
  obtain ⟨hwf₃, hheld₃⟩ := held_addLeaves hwf₂ hheld₂ hadds
  obtain ⟨size, htrim, hwf₄⟩ := trimTree_eq hwf₃
  have hkeys : full.trimTree.keysWith added = full.keysWith added := by
    rw [htrim]
    rfl
  refine ⟨hwf₄, hkeys ▸ hheld₃.trimTree hwf₃, fun index hleaf hindex => ?_⟩
  obtain ⟨hnew, hkept⟩ := leaf_addLeaves hwf₂ hadds
  have hsome : ((queue.removes.foldl (fun tree removed => tree.blankLeaf removed)
      (queue.updates.foldl (fun tree update => tree.updateLeaf update.1 update.2) tree)).leaf
        index).isSome := by
    rw [leaf_removes hindex]
    exact isSome_leaf_updates hleaf
  have hnot : index ∉ added := fun hmem => by
    rw [(hnew index hmem).1] at hsome
    cases hsome
  refine ⟨?_, hnot⟩
  rw [htrim]
  exact (hkept index hnot).symm ▸ hsome

end TreeSync

/-! ### Newcomers -/

namespace TreeSync

variable {K S C : Type} [DecidableEq K] [PathKdf K S]

/-- The secrets of a path, where there are nodes that a leaf has the keys of. Nothing where a key
is another one. -/
def derivePathSecretsAlong (tree : TreeSync K) (index : LeafNodeIndex) :
    S → List ParentNodeIndex → Option (List K × S)
  | pathSecret, [] => some ([], pathSecret)
  | pathSecret, p :: path =>
    match tree.parent p with
    | none => derivePathSecretsAlong tree index pathSecret path
    | some node =>
      if index ∈ node.unmergedLeaves then derivePathSecretsAlong tree index pathSecret path
      else
        let key := PathKdf.deriveKeyPair pathSecret
        if node.encryptionKey ≠ key then none
        else
          (derivePathSecretsAlong tree index (PathKdf.derivePathSecret pathSecret) path).map
            fun rest => (key :: rest.1, rest.2)

def derivePathSecrets (tree : TreeSync K) (pathSecret : S) (sender index : LeafNodeIndex) :
    Option (List K × S) :=
  tree.derivePathSecretsAlong index pathSecret
    ((SafeHub.commonDirectPath index sender tree.size).getD [])

/-- The path secret that a newcomer is welcomed with. -/
def welcomeSecret (tree : TreeSync K) (updatePathNodes : List (PlainUpdatePathNode K S))
    (sender index : LeafNodeIndex) : Option S :=
  (tree.subtreeRootPosition sender index).bind fun position =>
    updatePathNodes[position]?.map (·.pathSecret)

variable {tree : TreeSync K} {d i j : ℕ}

/-- Along levels that are either blank or new, exactly the new ones are derived. -/
theorem derivePathSecretsAlong_eq {levels : List ℕ} (new : List ℕ) {f : ℕ → ParentNodeIndex}
    (keyAt : ℕ → K) (secret : S) (hnone : ∀ k ∈ levels, k ∉ new → tree.parent (f k) = none)
    (hsome : ∀ k ∈ levels, k ∈ new → ∃ hash, tree.parent (f k) = some ⟨keyAt k, hash, []⟩)
    (hkeys : (derivePath secret ((levels.filter (· ∈ new)).map f)).keypairs =
      (levels.filter (· ∈ new)).map keyAt) :
    tree.derivePathSecretsAlong ⟨j⟩ secret (levels.map f) =
      some ((derivePath secret ((levels.filter (· ∈ new)).map f)).keypairs,
        (derivePath secret ((levels.filter (· ∈ new)).map f)).commitSecret) := by
  induction levels generalizing secret with
  | nil => rfl
  | cons k levels ih =>
    obtain ⟨hfirst, hnone⟩ := List.forall_mem_cons.mp hnone
    obtain ⟨hfirst', hsome⟩ := List.forall_mem_cons.mp hsome
    rw [List.map_cons, derivePathSecretsAlong]
    by_cases hk : k ∈ new
    · obtain ⟨hash, hnode⟩ := hfirst' hk
      rw [List.filter_cons_of_pos (by simpa using hk), List.map_cons, List.map_cons,
        derivePath] at hkeys
      obtain ⟨hkey, hrest⟩ := List.cons.inj hkeys
      rw [hnode]
      dsimp only
      rw [if_neg List.not_mem_nil, if_neg (not_not.mpr hkey.symm), ih _ hnone hsome hrest,
        List.filter_cons_of_pos (by simpa using hk), List.map_cons, derivePath]
      rfl
    · rw [List.filter_cons_of_neg (by simpa using hk)] at hkeys ⊢
      rw [hfirst hk]
      exact ih secret hnone hsome hkeys

omit [DecidableEq K] in
/-- The common direct path, by the levels from the one where two paths meet. -/
theorem commonDirectPath_range' (hi : i < tree.leafCount) (hj : j < tree.leafCount) (hne : i ≠ j)
    (hmeet : ∀ k, i / 2 ^ k = j / 2 ^ k ↔ d < k) :
    SafeHub.commonDirectPath ⟨j⟩ ⟨i⟩ tree.size =
      some ((List.range' d (tree.size.height - d)).map (above i)) := by
  have hmeet' : ∀ k, j / 2 ^ k = i / 2 ^ k ↔ d < k := fun k => eq_comm.trans (hmeet k)
  obtain ⟨-, front, back, -, hpath, hcommon, -⟩ :=
    SafeHub.commonDirectPath_eq hj hi hne.symm
  have hlca : lowestCommonAncestor ⟨j⟩ ⟨i⟩ = above i d := by
    rw [lowestCommonAncestor_eq hmeet', above, above, (hmeet (d + 1)).mpr (Nat.lt_succ_self d)]
  rw [hlca, SafeHub.directPath_eq hi] at hpath
  rw [hcommon, hlca]
  have hpath := Option.some.inj hpath
  have hlength : front.length = d := by
    have hget := congrArg (·[front.length]?) hpath
    rw [List.getElem?_append_right le_rfl, Nat.sub_self, List.getElem?_cons_zero,
      List.getElem?_map] at hget
    obtain ⟨k, hk, heq⟩ := Option.map_eq_some_iff.mp hget
    obtain ⟨_, rfl⟩ := List.getElem?_eq_some_iff.mp hk
    rw [List.getElem_range] at heq
    exact (above_injective heq).1
  have hdrop := congrArg (List.drop d) hpath
  rw [← List.map_drop, List.range_eq_range', List.drop_range', zero_add, mul_one,
    List.drop_left' hlength] at hdrop
  rw [hdrop]

omit [DecidableEq K] in
theorem range'_filter_eq (hwf : tree.WellFormed) (hj : (tree.leaf ⟨j⟩).isSome)
    (hd : d < tree.size.height) (hmeet : ∀ k, i / 2 ^ k = j / 2 ^ k ↔ d < k) :
    (List.range' d (tree.size.height - d)).filter (· ∈ tree.pathLevels i) =
      d :: tree.levelsAbove i d := by
  have hlevels := pathLevels_eq_append hwf hj hmeet hd
  have hsorted : (tree.pathLevels i).Pairwise (· < ·) := pathLevels_sorted
  refine List.Pairwise.eq_of_mem_iff (r := (· < ·))
    ((List.pairwise_lt_range' 1).filter _) ?_ fun k => ?_
  · rw [hlevels] at hsorted
    exact (List.pairwise_append.mp hsorted).2.1
  · have hmem : k ∈ d :: tree.levelsAbove i d ↔ k ∈ tree.pathLevels i ∧ d ≤ k := by
      rw [List.mem_cons, levelsAbove, List.mem_filter, decide_eq_true_iff]
      constructor
      · rintro (rfl | ⟨hk, hlt⟩)
        · exact ⟨hlevels ▸ List.mem_append_right _ List.mem_cons_self, le_rfl⟩
        · exact ⟨hk, hlt.le⟩
      · rintro ⟨hk, hle⟩
        exact hle.eq_or_lt.imp Eq.symm fun hlt => ⟨hk, hlt⟩
    rw [hmem, List.mem_filter, List.mem_range'_1, decide_eq_true_iff]
    constructor
    · rintro ⟨⟨hle, -⟩, hk⟩
      exact ⟨hk, hle⟩
    · rintro ⟨hk, hle⟩
      have := (mem_pathLevels_iff.mp hk).1
      exact ⟨⟨hle, by omega⟩, hk⟩

variable {own : OwnUpdatePath K S} {leafNode : LeafNode K} {keyAt : ℕ → K} {secret : S}

/-- A newcomer derives from the secret of the lowest common node, which it is welcomed with. -/
theorem Committed.derivePathSecrets_eq (h : Committed tree i secret leafNode keyAt own)
    (hwf : tree.WellFormed) (hi : (tree.leaf ⟨i⟩).isSome) (hj : (tree.leaf ⟨j⟩).isSome)
    (hne : i ≠ j) (hmeet : ∀ k, i / 2 ^ k = j / 2 ^ k ↔ d < k) (hd : d < tree.size.height) :
    (own.tree.welcomeSecret own.updatePathNodes ⟨i⟩ ⟨j⟩).bind (fun pathSecret =>
        own.tree.derivePathSecrets pathSecret ⟨i⟩ ⟨j⟩) =
      some ((tree.commonDerivation i d secret).keypairs, own.commitSecret) := by
  have hlt := lt_leafCount_of_isSome hwf hi
  have hlt' := lt_leafCount_of_isSome hwf hj
  have hd' : d < own.tree.size.height := by rwa [h.size]
  have hcommon := h.keypairs_common hwf hi hj hmeet hd
  have hrange := range'_filter_eq hwf hj hd hmeet
  have hnodes : own.updatePathNodes =
      (derivePath secret (tree.filteredDirectPath ⟨i⟩)).updatePathNodes := by rw [h.result]
  have hwelcome : own.tree.welcomeSecret own.updatePathNodes ⟨i⟩ ⟨j⟩ =
      some (PathKdf.derivePathSecret^[(tree.levelsBelow i d).length] secret) := by
    rw [welcomeSecret, subtreeRootPosition_eq (h.wellFormed hwf hi) (h.leaf_isSome hi)
      (h.leaf_isSome hj) hmeet hd', hnodes, derivePath_filteredDirectPath hwf hi hj hmeet hd,
      levelsBelow, h.toAgreeOff.pathLevels_eq hwf, ← levelsBelow, Option.bind_some,
      List.getElem?_append_right (by rw [length_updatePathNodes, List.length_map]),
      length_updatePathNodes, List.length_map, Nat.sub_self]
    rfl
  rw [hwelcome, Option.bind_some, derivePathSecrets, h.size,
    commonDirectPath_range' hlt hlt' hne hmeet, Option.getD_some,
    derivePathSecretsAlong_eq (tree.pathLevels i) keyAt, hrange,
    h.commitSecret_eq hwf hi hj hmeet hd]
  · rfl
  · exact fun k _ hk => h.parent_blank k hk
  · exact fun k _ hk => h.parent_on k hk
  · rw [hrange]
    exact hcommon

end TreeSync

/-! ### Runs of a group -/

/-- A group: its tree, and the key pairs that the member at each leaf has stored. -/
structure MlsGroup (K : Type) where
  tree : TreeSync K
  owned : LeafNodeIndex → List K

/-- A commit with an update path. -/
structure PathCommit (K S : Type) where
  proposals : ProposalQueue K
  sender : LeafNodeIndex
  pathSecret : S
  groupContext : Bytes
  /-- The new leaf, once its parent hash is known. -/
  newLeaf : Bytes → LeafNode K
  newLeaf_parentHash : ∀ hash, (newLeaf hash).parentHash = some hash

namespace MlsGroup

open TreeSync

variable {K S : Type} (C : Type) [DecidableEq K] [TreeHashes K] [PathKdf K S] [Hpke K S C]

/-- The group with the single member that makes it. -/
def new (leafNode : LeafNode K) : MlsGroup K :=
  ⟨⟨.new 1 (by decide), fun i => if i.u32 = 0 then some leafNode else none, fun _ => none⟩,
    fun _ => [leafNode.encryptionKey]⟩

/-- The key pairs that members have while they process proposals. -/
def keysFor (group : MlsGroup K) (queue : ProposalQueue K) (tree : TreeSync K)
    (added : List LeafNodeIndex) (index : LeafNodeIndex) : List K :=
  tree.keysWith added (fun index => group.owned index ++ updateKeys queue.updates index) index

/-- Of its key pairs, a member stores those that it needs in the new epoch. -/
def store (tree : TreeSync K) (keypairs : LeafNodeIndex → List K) : MlsGroup K :=
  ⟨tree, fun index => (keypairs index).filter (· ∈ tree.encryptionKeys index)⟩

/-- A commit without an update path. -/
def commitProposals (group : MlsGroup K) (queue : ProposalQueue K) : Option (MlsGroup K) := do
  let (tree, added) ← group.tree.applyProposals queue
  return store tree (group.keysFor queue tree added)

/-- What a member gets from a commit: newcomers from their welcome, others from the path. -/
def receive (commit : PathCommit K S) (own : OwnUpdatePath K S) (added : List LeafNodeIndex)
    (keys : List K) (index : LeafNodeIndex) : Option (List K × S) :=
  if index ∈ added then
    (own.tree.welcomeSecret own.updatePathNodes commit.sender index).bind fun pathSecret =>
      own.tree.derivePathSecrets pathSecret commit.sender index
  else
    (own.tree.decryptPath commit.sender (own.tree.encryptPath own.updatePathNodes
      commit.groupContext added commit.sender : List (UpdatePathNode K C)) commit.groupContext
      added keys index).toOption

/-- A commit with an update path. -/
def commitPath (group : MlsGroup K) (commit : PathCommit K S) : Option (MlsGroup K) := do
  let (tree, added) ← group.tree.applyProposals commit.proposals
  let own ← tree.applyOwnUpdatePath commit.sender commit.pathSecret commit.newLeaf
  let keys := group.keysFor commit.proposals tree added
  return store own.tree fun index => keys index ++
    if index = commit.sender then own.keypairs
    else ((receive C commit own added (keys index) index).map (·.1)).getD []

/-- Commits are by members that stay. -/
structure Allowed (group : MlsGroup K) (commit : PathCommit K S) : Prop where
  proposed : group.tree.Proposed commit.proposals
  sender : (group.tree.leaf commit.sender).isSome
  stays : commit.sender ∉ commit.proposals.removes

/-- The groups that come from a new one by commits. -/
inductive Run (S : Type) [PathKdf K S] [Hpke K S C] : MlsGroup K → Prop
  | new (leafNode : LeafNode K) : Run S (new leafNode)
  | proposals {group group' : MlsGroup K} (hrun : Run S group) {queue : ProposalQueue K}
    (hproposed : group.tree.Proposed queue) (hcommit : group.commitProposals queue = some group') :
    Run S group'
  | path {group group' : MlsGroup K} (hrun : Run S group) {commit : PathCommit K S}
    (hallowed : group.Allowed commit) (hcommit : group.commitPath C commit = some group') :
    Run S group'

variable {C} {group group' : MlsGroup K} {commit : PathCommit K S} {tree : TreeSync K}
  {added : List LeafNodeIndex}

omit [TreeHashes K] in
theorem held_store {tree : TreeSync K} {keypairs : LeafNodeIndex → List K}
    (hheld : tree.Held keypairs) : (store tree keypairs).tree.Held (store tree keypairs).owned :=
  fun j hj key hkey => List.mem_filter.mpr ⟨hheld j hj key hkey, decide_eq_true hkey⟩

omit [DecidableEq K] [TreeHashes K] in
theorem wellFormed_new (leafNode : LeafNode K) : (new leafNode).tree.WellFormed where
  leaf_lt i node hnode := by
    have hzero : i = 0 := by
      by_contra hne
      rw [new] at hnode
      simp [hne] at hnode
    rw [hzero]
    exact Nat.succ_pos _
  parent_lt _ _ _ := nofun
  unmerged _ _ _ := nofun
  sorted _ _ _ := nofun
  both _ _ _ := nofun

omit [DecidableEq K] [TreeHashes K] in
theorem held_new (leafNode : LeafNode K) : (new leafNode).tree.Held (new leafNode).owned := by
  rintro ⟨j⟩ hj key hkey
  have hwf := wellFormed_new leafNode
  rw [mem_encryptionKeys_iff hwf (lt_leafCount_of_isSome hwf hj)] at hkey
  rcases hkey with ⟨leaf, hleaf, rfl⟩ | ⟨k, node, hnode, -⟩
  · obtain ⟨-, rfl⟩ : j = 0 ∧ leafNode = leaf := by simpa [new] using hleaf
    exact List.mem_singleton_self _
  · cases hnode

/-- A commit succeeds, and every other member that has its keys gets the committer's tree, its
commit secret and the keys that it needs from then on. -/
theorem exists_commit (hwf : group.tree.WellFormed) (hheld : group.tree.Held group.owned)
    (hallowed : group.Allowed commit)
    (happly : group.tree.applyProposals commit.proposals = some (tree, added)) :
    ∃ own leafNode keyAt,
      tree.applyOwnUpdatePath commit.sender commit.pathSecret commit.newLeaf = some own ∧
      Committed tree commit.sender.u32 commit.pathSecret leafNode keyAt own ∧
      tree.applyReceivedUpdatePath commit.sender leafNode
        (own.updatePathNodes.map (·.publicKey)) = .ok own.tree ∧
      own.tree.WellFormed ∧
      ∀ index, (own.tree.leaf index).isSome → index ≠ commit.sender → ∃ keypairs,
        receive C commit own added (group.keysFor commit.proposals tree added index) index =
          some (keypairs, own.commitSecret) ∧
        ∀ key ∈ own.tree.encryptionKeys index,
          key ∈ group.keysFor commit.proposals tree added index ++ keypairs := by
  obtain ⟨hwf', hheld', hstays⟩ := held_applyProposals hwf hheld hallowed.proposed happly
  obtain ⟨hi, -⟩ := hstays commit.sender hallowed.sender hallowed.stays
  obtain ⟨own, leafNode, keyAt, hown, hcommitted, hreceived⟩ := exists_applyOwnUpdatePath
    (i := commit.sender.u32) hwf' hi commit.pathSecret commit.newLeaf_parentHash
  refine ⟨own, leafNode, keyAt, hown, hcommitted, hreceived, hcommitted.wellFormed hwf' hi, ?_⟩
  rintro ⟨j⟩ hj hne
  have hne' : commit.sender.u32 ≠ j := fun heq => hne (congrArg LeafNodeIndex.mk heq).symm
  rw [hcommitted.leaf j hne'.symm] at hj
  have howned := hheld' ⟨j⟩ hj
  -- what a member needs beyond its own keys is what it receives
  have hmore : ∀ {keypairs : List K}, (∀ key ∈ own.tree.encryptionKeys ⟨j⟩,
      key ∈ tree.encryptionKeys ⟨j⟩ ∨ key ∈ keypairs) → ∀ key ∈ own.tree.encryptionKeys ⟨j⟩,
        key ∈ group.keysFor commit.proposals tree added ⟨j⟩ ++ keypairs :=
    fun hkeys key hkey => List.mem_append.mpr ((hkeys key hkey).imp_left (howned key))
  rw [receive]
  split_ifs with hadded
  · obtain ⟨d, hd, hmeet⟩ := exists_meet_of_isSome hwf' hi hj hne'
    exact ⟨_, hcommitted.derivePathSecrets_eq hwf' hi hj hne' hmeet hd,
      hmore fun key => hcommitted.mem_encryptionKeys hwf' hi hj hmeet hd hne'⟩
  · obtain ⟨keypairs, hdecrypt, hkeys⟩ := hcommitted.exists_decryptPath (C := C) hwf' hi hj hne'
      hadded howned commit.groupContext
    exact ⟨keypairs, congrArg Except.toOption hdecrypt, hmore hkeys⟩

/-- In every run each member has the keys that the tree says it has. -/
theorem Run.held (hrun : Run C S group) :
    group.tree.WellFormed ∧ group.tree.Held group.owned := by
  induction hrun with
  | new leafNode => exact ⟨wellFormed_new leafNode, held_new leafNode⟩
  | proposals hrun hproposed hcommit ih =>
    obtain ⟨⟨tree, added⟩, happly, heq⟩ := Option.bind_eq_some_iff.mp hcommit
    obtain rfl := Option.some.inj heq
    obtain ⟨hwf, hheld, -⟩ := held_applyProposals ih.1 ih.2 hproposed happly
    exact ⟨hwf, held_store hheld⟩
  | @path group group' hrun commit hallowed hcommit ih =>
    obtain ⟨⟨tree, added⟩, happly, hrest⟩ := Option.bind_eq_some_iff.mp hcommit
    obtain ⟨own, hown, heq⟩ := Option.bind_eq_some_iff.mp hrest
    obtain rfl := Option.some.inj heq
    obtain ⟨own', leafNode, keyAt, hown', hcommitted, -, hwf, hreceive⟩ :=
      exists_commit (C := C) ih.1 ih.2 hallowed happly
    obtain rfl : own = own' := Option.some.inj (hown.symm.trans hown')
    refine ⟨hwf, held_store fun index hindex key hkey => ?_⟩
    by_cases hsender : index = commit.sender
    · rw [if_pos hsender]
      subst hsender
      exact List.mem_append_right _ (hcommitted.mem_keypairs hwf hkey)
    · obtain ⟨keypairs, hkeypairs, hkeys⟩ := hreceive index hindex hsender
      rw [if_neg hsender, hkeypairs]
      exact hkeys key hkey

/-- In every run, a commit with a path is processed by all other members alike: they get the
committer's tree, its commit secret, and every key that they need in the new epoch. -/
theorem Run.commit_agrees (hrun : Run C S group) (hallowed : group.Allowed commit)
    (happly : group.tree.applyProposals commit.proposals = some (tree, added)) :
    ∃ own leafNode,
      tree.applyOwnUpdatePath commit.sender commit.pathSecret commit.newLeaf = some own ∧
      own.tree.leaf commit.sender = some leafNode ∧
      tree.applyReceivedUpdatePath commit.sender leafNode
        (own.updatePathNodes.map (·.publicKey)) = .ok own.tree ∧
      ∀ index, (own.tree.leaf index).isSome → index ≠ commit.sender → ∃ keypairs,
        receive C commit own added (group.keysFor commit.proposals tree added index) index =
          some (keypairs, own.commitSecret) ∧
        ∀ key ∈ own.tree.encryptionKeys index,
          key ∈ group.keysFor commit.proposals tree added index ++ keypairs := by
  obtain ⟨hwf, hheld⟩ := hrun.held
  obtain ⟨own, leafNode, _, hown, hcommitted, hreceived, -, hreceive⟩ :=
    exists_commit (C := C) hwf hheld hallowed happly
  exact ⟨own, leafNode, hown, hcommitted.leaf_self, hreceived, hreceive⟩

/-! ### A sample -/

section Sample

/-- A number, as a key or as a secret. -/
structure SampleSecret where
  number : ℕ
  deriving DecidableEq

instance : TreeHashes SampleSecret where
  leafHash _ _ := []
  parentNodeHash _ _ _ := []
  parentHash _ _ _ := []

instance : PathKdf SampleSecret SampleSecret where
  deriveKeyPair secret := ⟨2 * secret.number + 1⟩
  derivePathSecret secret := ⟨2 * secret.number⟩

/-- A ciphertext names its key. -/
instance : Hpke SampleSecret SampleSecret (SampleSecret × SampleSecret) where
  encrypt key _ secret := (key, secret)
  decrypt key _ ciphertext := if ciphertext.1 = key then some ciphertext.2 else none
  decrypt_encrypt _ _ _ := if_pos rfl

def sampleLeaf (number : ℕ) (parentHash : Option Bytes) : LeafNode SampleSecret :=
  ⟨⟨number⟩, [], parentHash⟩

def sampleGroup : MlsGroup SampleSecret := new (sampleLeaf 10 none)

/-- The first member adds two others. -/
def sampleCommit : PathCommit SampleSecret SampleSecret where
  proposals := ⟨[], [], [sampleLeaf 12 none, sampleLeaf 14 none]⟩
  sender := ⟨0⟩
  pathSecret := ⟨5⟩
  groupContext := []
  newLeaf hash := sampleLeaf 20 (some hash)
  newLeaf_parentHash _ := rfl

/-- The last member sends the next path. -/
def nextCommit : PathCommit SampleSecret SampleSecret where
  proposals := ⟨[], [], []⟩
  sender := ⟨2⟩
  pathSecret := ⟨7⟩
  groupContext := []
  newLeaf hash := sampleLeaf 24 (some hash)
  newLeaf_parentHash _ := rfl

/-- After an earlier path, two members decrypt the next one with a key of that path. -/
theorem commit_agrees_threeMembers : ∃ group tree,
    sampleGroup.commitPath (SampleSecret × SampleSecret) sampleCommit = some group ∧
    group.tree.applyProposals nextCommit.proposals = some (tree, []) ∧
    tree.keysBeside [] 2 1 = [⟨11⟩] ∧
    ∃ own leafNode,
      tree.applyOwnUpdatePath nextCommit.sender nextCommit.pathSecret nextCommit.newLeaf =
        some own ∧
      own.tree.leaf nextCommit.sender = some leafNode ∧
      tree.applyReceivedUpdatePath nextCommit.sender leafNode
        (own.updatePathNodes.map (·.publicKey)) = .ok own.tree ∧
      ∀ index, (own.tree.leaf index).isSome → index ≠ nextCommit.sender → ∃ keypairs,
        receive (SampleSecret × SampleSecret) nextCommit own []
          (group.keysFor nextCommit.proposals tree [] index) index =
          some (keypairs, own.commitSecret) ∧
        ∀ key ∈ own.tree.encryptionKeys index,
          key ∈ group.keysFor nextCommit.proposals tree [] index ++ keypairs := by
  have hallowed : sampleGroup.Allowed sampleCommit := ⟨⟨nofun, nofun⟩, rfl, nofun⟩
  have hkey : (sampleGroup.commitPath (SampleSecret × SampleSecret) sampleCommit).map (fun group =>
      ((group.tree.leaf nextCommit.sender).isSome, group.tree.trimTree.keysBeside [] 2 1)) =
        some (true, [⟨11⟩]) := by
    decide +kernel
  obtain ⟨group, hgroup, hkeys⟩ := Option.map_eq_some_iff.mp hkey
  obtain ⟨hsender, hbeside⟩ := Prod.mk.inj hkeys
  have hrun : Run (SampleSecret × SampleSecret) SampleSecret group :=
    (Run.new _).path hallowed hgroup
  have hnext : group.Allowed nextCommit := ⟨⟨nofun, nofun⟩, hsender, nofun⟩
  have happly : group.tree.applyProposals nextCommit.proposals =
      some (group.tree.trimTree, []) := rfl
  exact ⟨group, group.tree.trimTree, hgroup, happly, hbeside, hrun.commit_agrees hnext happly⟩

end Sample

end MlsGroup

end SafeHub
