import SafeHub.Crypto.TreeSync

/-!
# Update paths

A member that commits takes a new secret for each node of its filtered direct path, each secret
from the one below, and sends it to the resolution of the node's copath. Another member decrypts
the secret of the lowest node above both leaves, and derives the ones above itself.

## Main definitions

* `derivePath` — the secrets and keys of a path
* `applyOwnUpdatePath`, `encryptPath` — what a committer does
* `applyReceivedUpdatePath`, `decryptPath` — what the other members do

## Main results

* `exists_applyOwnUpdatePath` — the other members get the tree of the committer
* `Committed.exists_decryptPath` — they get its commit secret, and the keys that they need
-/

namespace SafeHub

open CompleteTree

/-! ### Paths of secrets -/

/-- What is derived from path secrets. A public key stands for its pair. -/
class PathKdf (K : outParam Type) (S : Type) where
  deriveKeyPair : S → K
  derivePathSecret : S → S

/-- Encryption to the key of a node. -/
class Hpke (K S C : Type) where
  encrypt : K → Bytes → S → C
  decrypt : K → Bytes → C → Option S
  decrypt_encrypt : ∀ key groupContext secret,
    decrypt key groupContext (encrypt key groupContext secret) = some secret

structure PlainUpdatePathNode (K S : Type) where
  publicKey : K
  pathSecret : S

structure UpdatePathNode (K C : Type) where
  publicKey : K
  encryptedPathSecrets : List C

/-- The secret of a node, encrypted to each of the keys. -/
def PlainUpdatePathNode.encrypt {K S C : Type} [Hpke K S C] (node : PlainUpdatePathNode K S)
    (publicKeys : List K) (groupContext : Bytes) : UpdatePathNode K C :=
  ⟨node.publicKey, publicKeys.map fun key => Hpke.encrypt key groupContext node.pathSecret⟩

/-- The nodes of a path, what is to be encrypted, the key pairs and the commit secret. -/
structure PathDerivationResult (K S : Type) where
  path : List (ParentNodeIndex × ParentNode K)
  updatePathNodes : List (PlainUpdatePathNode K S)
  keypairs : List K
  commitSecret : S

section Derivation

variable {K S : Type} [PathKdf K S]

open PathKdf

/-- Each node's secret gives its key pair and the next secret. -/
def derivePath : S → List ParentNodeIndex → PathDerivationResult K S
  | pathSecret, [] => ⟨[], [], [], pathSecret⟩
  | pathSecret, index :: indices =>
    let key := deriveKeyPair pathSecret
    let rest := derivePath (derivePathSecret pathSecret) indices
    ⟨(index, .ofKey key) :: rest.path, ⟨key, pathSecret⟩ :: rest.updatePathNodes,
      key :: rest.keypairs, rest.commitSecret⟩

/-- A path goes on from the secret after its first part. -/
theorem derivePath_append (secret : S) (front back : List ParentNodeIndex) :
    let rest := derivePath (derivePathSecret^[front.length] secret) back
    derivePath secret (front ++ back) = ⟨(derivePath secret front).path ++ rest.path,
      (derivePath secret front).updatePathNodes ++ rest.updatePathNodes,
      (derivePath secret front).keypairs ++ rest.keypairs, rest.commitSecret⟩ := by
  induction front generalizing secret with
  | nil => rfl
  | cons index front ih =>
    dsimp only at ih ⊢
    rw [List.cons_append, derivePath, ih, derivePath, List.length_cons,
      Function.iterate_succ_apply]
    rfl

theorem length_updatePathNodes (secret : S) (indices : List ParentNodeIndex) :
    (derivePath secret indices).updatePathNodes.length = indices.length := by
  induction indices generalizing secret with
  | nil => rfl
  | cons index indices ih => exact congrArg (· + 1) (ih _)

theorem map_publicKey_updatePathNodes (secret : S) (indices : List ParentNodeIndex) :
    (derivePath secret indices).updatePathNodes.map (·.publicKey) =
      (derivePath secret indices).keypairs := by
  induction indices generalizing secret with
  | nil => rfl
  | cons index indices ih => exact congrArg (_ :: ·) (ih _)

theorem map_encryptionKey_path (secret : S) (indices : List ParentNodeIndex) :
    (derivePath secret indices).path.map (·.2.encryptionKey) =
      (derivePath secret indices).keypairs := by
  induction indices generalizing secret with
  | nil => rfl
  | cons index indices ih => exact congrArg (_ :: ·) (ih _)

/-- The nodes of a path hold its keys. -/
theorem path_eq_zip (secret : S) (indices : List ParentNodeIndex) :
    (derivePath secret indices).path =
      indices.zip ((derivePath secret indices).keypairs.map ParentNode.ofKey) := by
  induction indices generalizing secret with
  | nil => rfl
  | cons index indices ih => exact congrArg (_ :: ·) (ih _)

/-- The keys of a path, by the levels of its nodes. -/
theorem exists_keyAt (secret : S) {levels : List ℕ} (f : ℕ → ParentNodeIndex)
    (hnodup : levels.Nodup) : ∃ keyAt : ℕ → K,
      (derivePath secret (levels.map f)).keypairs = levels.map keyAt ∧
      (derivePath secret (levels.map f)).path = levels.map fun k => (f k, .ofKey (keyAt k)) := by
  induction levels generalizing secret with
  | nil => exact ⟨fun _ => deriveKeyPair secret, rfl, rfl⟩
  | cons k levels ih =>
    obtain ⟨hk, hnodup⟩ := List.nodup_cons.mp hnodup
    obtain ⟨keyAt, hkeys, hpath⟩ := ih (derivePathSecret secret) hnodup
    have hrest : ∀ k' ∈ levels,
        Function.update keyAt k (deriveKeyPair secret) k' = keyAt k' :=
      fun k' hk' => Function.update_of_ne (fun heq : k' = k => hk (heq ▸ hk')) _ _
    refine ⟨Function.update keyAt k (deriveKeyPair secret), ?_, ?_⟩
    · rw [List.map_cons, List.map_cons, derivePath, Function.update_self, hkeys,
        List.map_congr_left hrest]
    · rw [List.map_cons, List.map_cons, derivePath, Function.update_self]
      dsimp only
      rw [hpath]
      refine congrArg (_ :: ·) (List.map_congr_left fun k' hk' => ?_)
      rw [hrest k' hk']

end Derivation

/-! ### Committing -/

inductive ApplyUpdatePathError
  | treeFull
  | inconsistentSenderIndex
  | pathLengthMismatch
  | missingParentHash
  | parentHashMismatch
  | missingOwnLeaf
  | missingSender
  | missingCiphertext
  | unableToDecrypt
  | pathMismatch
  deriving DecidableEq

namespace TreeSync

variable {K S C : Type} (tree : TreeSync K)

section Committing

variable [TreeHashes K]

/-- What a committer keeps: its tree, what is to be encrypted, and what it has then. -/
structure OwnUpdatePath (K S : Type) where
  tree : TreeSync K
  updatePathNodes : List (PlainUpdatePathNode K S)
  keypairs : List K
  commitSecret : S

/-- New keys above a leaf, and a new leaf that has their parent hash. -/
def applyOwnUpdatePath [PathKdf K S] (index : LeafNodeIndex) (pathSecret : S)
    (newLeaf : Bytes → LeafNode K) : Option (OwnUpdatePath K S) := do
  let derivation := derivePath pathSecret (tree.filteredDirectPath index)
  let (tree, parentHash) ← tree.processUpdatePath index derivation.path
  let leafNode := newLeaf parentHash
  return ⟨tree.replaceLeaf index (some leafNode), derivation.updatePathNodes,
    leafNode.encryptionKey :: derivation.keypairs, derivation.commitSecret⟩

/-- The leaf of a sender that is new is put into the tree first. -/
def withSender (sender : LeafNodeIndex) (leafNode : LeafNode K) :
    Except ApplyUpdatePathError (TreeSync K) :=
  if (tree.leaf sender).isNone ∨ tree.leafCount ≤ sender.u32 then
    match tree.addLeaf leafNode with
    | none => .error .treeFull
    | some (index, tree) => if sender = index then .ok tree else .error .inconsistentSenderIndex
  else .ok tree

def applyReceivedUpdatePath (sender : LeafNodeIndex) (leafNode : LeafNode K)
    (publicKeys : List K) : Except ApplyUpdatePathError (TreeSync K) := do
  let tree ← tree.withSender sender leafNode
  let filteredDirectPath := tree.filteredDirectPath sender
  if filteredDirectPath.length ≠ publicKeys.length then .error .pathLengthMismatch
  else
    match tree.processUpdatePath sender (filteredDirectPath.zip (publicKeys.map .ofKey)) with
    | none => .error .pathLengthMismatch
    | some (tree, parentHash) =>
      match leafNode.parentHash with
      | none => .error .missingParentHash
      | some leafParentHash =>
        if leafParentHash ≠ parentHash then .error .parentHashMismatch
        else .ok (tree.replaceLeaf sender (some leafNode))

end Committing

/-- Each secret of a path, encrypted to the copath resolution of its node. -/
def encryptPath [Hpke K S C] (path : List (PlainUpdatePathNode K S)) (groupContext : Bytes)
    (excluded : List LeafNodeIndex) (index : LeafNodeIndex) : List (UpdatePathNode K C) :=
  let copathResolutions := (tree.filteredCopathResolutions excluded index).map fun resolution =>
    resolution.map (·.2.encryptionKey)
  path.zipWith (fun node resolution => node.encrypt resolution groupContext) copathResolutions

/-- The first key of the sender's copath resolution that one has, and its place there. -/
def decryptionKey [DecidableEq K] (sender : LeafNodeIndex) (excluded : List LeafNodeIndex)
    (owned : List K) (index : LeafNodeIndex) : Option (K × ℕ) :=
  ((tree.resolution excluded (subtreeRootCopathNode sender index)).map
    (·.2.encryptionKey)).zipIdx.find? fun entry => entry.1 ∈ owned

def decryptPath [DecidableEq K] [PathKdf K S] [Hpke K S C] (sender : LeafNodeIndex)
    (updatePath : List (UpdatePathNode K C)) (groupContext : Bytes)
    (excluded : List LeafNodeIndex) (owned : List K) (index : LeafNodeIndex) :
    Except ApplyUpdatePathError (List K × S) :=
  match tree.subtreeRootPosition sender index with
  | none => .error .missingOwnLeaf
  | some position =>
    match updatePath[position]? with
    | none => .error .pathLengthMismatch
    | some node =>
      match tree.decryptionKey sender excluded owned index with
      | none => .error .missingSender
      | some (key, place) =>
        match node.encryptedPathSecrets[place]? with
        | none => .error .missingCiphertext
        | some ciphertext =>
          match (Hpke.decrypt key groupContext ciphertext : Option S) with
          | none => .error .unableToDecrypt
          | some pathSecret =>
            let derivation := derivePath pathSecret (tree.filteredCommonDirectPath index sender)
            if ((updatePath.drop position).zip derivation.path).all
                fun entry => decide (entry.1.publicKey = entry.2.2.encryptionKey) then
              .ok (derivation.keypairs, derivation.commitSecret)
            else .error .pathMismatch

end TreeSync

/-! ### Where paths meet -/

namespace TreeSync

variable {K : Type} {tree tree' : TreeSync K} {excluded : List LeafNodeIndex} {d k m i j : ℕ}
  {entry : TreeNodeIndex × NodeReference K}

theorem commonFront_append (front xs ys : List ParentNodeIndex) (hne : ∀ x ∈ xs, x ∉ ys) :
    commonFront (front ++ xs) (front ++ ys) = front := by
  induction front with
  | nil =>
    cases xs with
    | nil => simp [commonFront]
    | cons x xs =>
      cases ys with
      | nil => simp [commonFront]
      | cons y ys =>
        have hxy : x ≠ y := fun heq => hne x List.mem_cons_self (heq ▸ List.mem_cons_self)
        rw [List.nil_append, List.nil_append, commonFront, if_neg hxy]
  | cons x front ih => rw [List.cons_append, List.cons_append, commonFront, if_pos rfl, ih]

/-- Below the level where two leaves meet, each is beside the other's path. -/
theorem div_eq_twin (hmeet : ∀ k, i / 2 ^ k = j / 2 ^ k ↔ d < k) :
    j / 2 ^ d = twin (i / 2 ^ d) := by
  refine eq_twin_of_div_two_eq ?_ fun heq => lt_irrefl d ((hmeet d).mp heq.symm)
  rw [← div_two_pow_succ, ← div_two_pow_succ, (hmeet (d + 1)).mpr (Nat.lt_succ_self d)]

theorem subtreeRootCopathNode_eq (hmeet : ∀ k, i / 2 ^ k = j / 2 ^ k ↔ d < k) :
    subtreeRootCopathNode ⟨i⟩ ⟨j⟩ = beside i d := by
  have hbeside := div_eq_twin hmeet
  have hhalf : twin (i / 2 ^ d) / 2 = i / 2 ^ (d + 1) := by rw [twin_div_two, div_two_pow_succ]
  have hne := twin_ne (i / 2 ^ d)
  rw [subtreeRootCopathNode, lowestCommonAncestor_eq hmeet, above, left_parentAt, right_parentAt,
    beside]
  dsimp only
  split_ifs with hlt
  · have hle : j / 2 ^ d ≤ i / 2 ^ d := Nat.div_le_div_right hlt.le
    congr 2
    rw [div_two_pow_succ] at hhalf ⊢
    omega
  · have hle : i / 2 ^ d ≤ j / 2 ^ d := Nat.div_le_div_right (not_lt.mp hlt)
    congr 2
    rw [div_two_pow_succ] at hhalf ⊢
    omega

/-- A list in order, split at one of its members. -/
theorem eq_filter_append {levels : List ℕ} (hsorted : levels.Pairwise (· < ·)) (hd : d ∈ levels) :
    levels = levels.filter (· < d) ++ d :: levels.filter (d < ·) := by
  induction levels with
  | nil => cases hd
  | cons k levels ih =>
    obtain ⟨hk, hsorted⟩ := List.pairwise_cons.mp hsorted
    rcases List.mem_cons.mp hd with rfl | hd
    · have hnone : levels.filter (· < d) = [] := by
        refine List.filter_eq_nil_iff.mpr fun k' hk' => ?_
        have := hk k' hk'
        simpa using this.le
      have hall : levels.filter (d < ·) = levels :=
        List.filter_eq_self.mpr fun k' hk' => decide_eq_true (hk k' hk')
      rw [List.filter_cons_of_neg (by simp), List.filter_cons_of_neg (by simp), hnone, hall,
        List.nil_append]
    · have hlt := hk d hd
      rw [List.filter_cons_of_pos (by simpa using hlt),
        List.filter_cons_of_neg (by simpa using hlt.le), List.cons_append, ← ih hsorted hd]

/-- The levels of a leaf's path above one where it meets another's. -/
def levelsAbove (tree : TreeSync K) (i d : ℕ) : List ℕ := (tree.pathLevels i).filter (d < ·)

def levelsBelow (tree : TreeSync K) (i d : ℕ) : List ℕ := (tree.pathLevels i).filter (· < d)

/-- Above the level where they meet, two paths are the same. -/
theorem levelsAbove_eq (hmeet : ∀ k, i / 2 ^ k = j / 2 ^ k ↔ d < k) :
    tree.levelsAbove j d = tree.levelsAbove i d := by
  rw [levelsAbove, levelsAbove, pathLevels, pathLevels, List.filter_filter, List.filter_filter]
  refine List.filter_congr fun k _ => ?_
  by_cases hk : d < k
  · rw [beside, beside, (hmeet k).mpr hk]
  · rw [decide_eq_false hk, Bool.false_and, Bool.false_and]

section Meeting

variable (hwf : tree.WellFormed) (hi : (tree.leaf ⟨i⟩).isSome) (hj : (tree.leaf ⟨j⟩).isSome)
  (hmeet : ∀ k, i / 2 ^ k = j / 2 ^ k ↔ d < k)

include hwf

theorem lt_leafCount_of_isSome (hi : (tree.leaf ⟨i⟩).isSome) : i < tree.leafCount := by
  obtain ⟨node, hnode⟩ := Option.isSome_iff_exists.mp hi
  exact hwf.leaf_lt i node hnode

/-- The paths of two members meet at a level of the tree. -/
theorem exists_meet_of_isSome (hi : (tree.leaf ⟨i⟩).isSome) (hj : (tree.leaf ⟨j⟩).isSome)
    (hne : i ≠ j) : ∃ d < tree.size.height, ∀ k, i / 2 ^ k = j / 2 ^ k ↔ d < k := by
  have hlt := lt_leafCount_of_isSome hwf hi
  have hlt' := lt_leafCount_of_isSome hwf hj
  rw [leafCount_eq] at hlt hlt'
  exact exists_meet hlt hlt' hne

include hj hmeet

/-- The path of a leaf, split where it meets that of another. -/
theorem pathLevels_eq_append (hd : d < tree.size.height) :
    tree.pathLevels i = tree.levelsBelow i d ++ d :: tree.levelsAbove i d := by
  refine eq_filter_append pathLevels_sorted (mem_pathLevels_iff.mpr ⟨hd, ?_⟩)
  exact (resolution_ne_nil_iff hwf).mpr ⟨j, hj, div_eq_twin hmeet⟩

include hi

theorem filteredDirectPath_eq_append (hd : d < tree.size.height) :
    tree.filteredDirectPath ⟨i⟩ = (tree.levelsBelow i d).map (above i) ++
      (d :: tree.levelsAbove i d).map (above i) := by
  rw [filteredDirectPath_eq (lt_leafCount_of_isSome hwf hi), pathLevels_eq_append hwf hj hmeet hd,
    List.map_append]

theorem subtreeRootPosition_eq (hd : d < tree.size.height) :
    tree.subtreeRootPosition ⟨i⟩ ⟨j⟩ = some (tree.levelsBelow i d).length := by
  rw [subtreeRootPosition, filteredDirectPath_eq_append hwf hi hj hmeet hd,
    lowestCommonAncestor_eq hmeet, List.findIdx?_append, List.map_cons, List.findIdx?_cons]
  have hbelow : ((tree.levelsBelow i d).map (above i)).findIdx? (· = above i d) = none := by
    refine List.findIdx?_eq_none_iff.mpr fun p hp => ?_
    obtain ⟨k, hk, rfl⟩ := List.mem_map.mp hp
    have hlt : k < d := by simpa using (List.mem_filter.mp hk).2
    exact decide_eq_false fun heq => absurd (above_injective heq).1 hlt.ne
  rw [hbelow]
  simp

theorem filteredCommonDirectPath_eq (hd : d < tree.size.height) :
    tree.filteredCommonDirectPath ⟨j⟩ ⟨i⟩ = (d :: tree.levelsAbove i d).map (above i) := by
  have hmeet' : ∀ k, j / 2 ^ k = i / 2 ^ k ↔ d < k := fun k => eq_comm.trans (hmeet k)
  have hsame : (d :: tree.levelsAbove j d).map (above j) =
      (d :: tree.levelsAbove i d).map (above i) := by
    rw [levelsAbove_eq hmeet]
    refine List.map_congr_left fun k hk => ?_
    have hle : d ≤ k := by
      rcases List.mem_cons.mp hk with rfl | hk
      · exact le_rfl
      · have : d < k := by simpa using (List.mem_filter.mp hk).2
        exact this.le
    rw [above, above, (hmeet (k + 1)).mpr (Nat.lt_succ_of_le hle)]
  rw [filteredCommonDirectPath, filteredDirectPath_eq_append hwf hi hj hmeet hd,
    filteredDirectPath_eq_append hwf hj hi hmeet' hd, hsame, List.reverse_append,
    List.reverse_append, commonFront_append, List.reverse_reverse]
  intro p hp hp'
  obtain ⟨k, hk, rfl⟩ := List.mem_map.mp (List.mem_reverse.mp hp)
  obtain ⟨k', -, heq⟩ := List.mem_map.mp (List.mem_reverse.mp hp')
  obtain ⟨rfl, hpath⟩ := above_injective heq
  have hlt : k' < d := by simpa using (List.mem_filter.mp hk).2
  have := (hmeet (k' + 1)).mp hpath
  omega

end Meeting

/-! ### What members can decrypt -/

theorem exists_of_mem_resolution (hmem : entry ∈ tree.resolution [] (.new (node k m))) :
    (∃ i leaf, tree.leaf i = some leaf ∧ entry = (.leaf i, .leaf leaf)) ∨
      ∃ k m node, tree.parent (parentAt k m) = some node ∧
        entry = (.parent (parentAt k m), .parent node) := by
  induction k generalizing m with
  | zero =>
    obtain ⟨leaf, hleaf, rfl⟩ := mem_resolution_zero_iff.mp hmem
    exact .inl ⟨_, leaf, hleaf, rfl⟩
  | succ k ih =>
    rw [resolution_succ] at hmem
    cases hparent : tree.parent (parentAt k m) with
    | some node =>
      rw [hparent] at hmem
      rcases List.mem_cons.mp hmem with rfl | hmem
      · exact .inr ⟨k, m, node, hparent, rfl⟩
      · obtain ⟨i, -, leaf, hleaf, rfl⟩ := mem_unmergedEntries_iff.mp hmem
        exact .inl ⟨i, leaf, hleaf, rfl⟩
    | none =>
      rw [hparent] at hmem
      exact (List.mem_append.mp hmem).elim ih ih

/-- There is someone on the other side of a node that is not blank. -/
theorem mem_pathLevels_of_parent (hwf : tree.WellFormed) {node : ParentNode K}
    (hnode : tree.parent (above i k) = some node) : k ∈ tree.pathLevels i := by
  rw [mem_pathLevels_iff, beside, resolution_ne_nil_iff hwf]
  refine ⟨hwf.parent_lt k _ node hnode, hwf.both k _ node hnode _ ?_⟩
  rw [twin_div_two, div_two_pow_succ]

/-- The keys of a member: its leaf's, and those above for which it is not unmerged. -/
theorem mem_encryptionKeys_iff (hwf : tree.WellFormed) (hi : i < tree.leafCount) {key : K} :
    key ∈ tree.encryptionKeys ⟨i⟩ ↔
      (∃ leaf, tree.leaf ⟨i⟩ = some leaf ∧ leaf.encryptionKey = key) ∨
        ∃ k node, tree.parent (above i k) = some node ∧
          ⟨i⟩ ∉ node.unmergedLeaves ∧ node.encryptionKey = key := by
  rw [encryptionKeys, filteredDirectPath_eq hi, List.mem_append, Option.mem_toList,
    Option.map_eq_some_iff, List.filterMap_map, List.mem_filterMap]
  refine or_congr Iff.rfl (exists_congr fun k => ?_)
  rw [Function.comp_apply, Option.bind_eq_some_iff, ← exists_and_left]
  refine exists_congr fun node => ?_
  constructor
  · rintro ⟨-, hnode, hkey⟩
    split_ifs at hkey with hunmerged
    exact ⟨hnode, hunmerged, Option.some.inj hkey⟩
  · rintro ⟨hnode, hunmerged, rfl⟩
    exact ⟨mem_pathLevels_of_parent hwf hnode, hnode, if_neg hunmerged⟩

/-- A member has the key of an entry that covers it. -/
theorem encryptionKey_mem_of_covers (hwf : tree.WellFormed) (hj : (tree.leaf ⟨j⟩).isSome)
    (hmem : entry ∈ tree.resolution [] (.new (node k m))) (hcovers : Covers entry ⟨j⟩) :
    entry.2.encryptionKey ∈ tree.encryptionKeys ⟨j⟩ := by
  rw [mem_encryptionKeys_iff hwf (lt_leafCount_of_isSome hwf hj)]
  rcases exists_of_mem_resolution hmem with ⟨i, leaf, hleaf, rfl⟩ | ⟨k, m, full, hfull, rfl⟩
  · cases hcovers
    exact .inl ⟨leaf, hleaf, rfl⟩
  · obtain ⟨hbelow, hunmerged⟩ := hcovers
    obtain rfl : j / 2 ^ (k + 1) = m := isBelow_parentAt_iff.mp hbelow
    exact .inr ⟨k, full, hfull, hunmerged, rfl⟩

/-- Some entry of a member's side is its own, whoever else is left out. -/
theorem exists_mem_resolution_excluding (hwf : tree.WellFormed) (hj : (tree.leaf ⟨j⟩).isSome)
    (hexcluded : ⟨j⟩ ∉ excluded) (hbelow : j / 2 ^ k = m) :
    ∃ entry ∈ tree.resolution excluded (.new (node k m)),
      entry.2.encryptionKey ∈ tree.encryptionKeys ⟨j⟩ := by
  obtain ⟨entry, ⟨hmem, hcovers⟩, -⟩ := existsUnique_covers hwf hj hbelow
  refine ⟨entry, ?_, encryptionKey_mem_of_covers hwf hj hmem hcovers⟩
  rw [resolution_excluding]
  refine List.mem_filter.mpr ⟨hmem, ?_⟩
  rcases exists_of_mem_resolution hmem with ⟨i, leaf, -, rfl⟩ | ⟨k, m, full, -, rfl⟩
  · cases hcovers
    exact decide_eq_true hexcluded
  · rfl

/-- The first owned key of a list is at its place. -/
theorem exists_find?_zipIdx [DecidableEq K] {keys owned : List K} {key : K} (hmem : key ∈ keys)
    (howned : key ∈ owned) : ∃ key ∈ owned, ∃ place, keys[place]? = some key ∧
      keys.zipIdx.find? (fun entry => entry.1 ∈ owned) = some (key, place) := by
  obtain ⟨n, hn⟩ := List.getElem?_of_mem hmem
  cases hfind : keys.zipIdx.find? (fun entry => entry.1 ∈ owned) with
  | none =>
    have hnone := List.find?_eq_none.mp hfind (key, n) (List.mk_mem_zipIdx_iff_getElem?.mpr hn)
    exact absurd (decide_eq_true howned) hnone
  | some entry =>
    have hplace := List.mk_mem_zipIdx_iff_getElem?.mp (List.mem_of_find?_eq_some hfind)
    exact ⟨entry.1, by simpa using List.find?_some hfind, entry.2, hplace, rfl⟩

/-! ### Decrypting a path -/

variable {S C : Type} [DecidableEq K] [PathKdf K S] [Hpke K S C]

omit [DecidableEq K] [PathKdf K S] in
theorem map_publicKey_zipWith {nodes : List (PlainUpdatePathNode K S)} {resolutions : List (List K)}
    (hlength : nodes.length = resolutions.length) (groupContext : Bytes) :
    (nodes.zipWith (fun node resolution => (node.encrypt resolution groupContext :
      UpdatePathNode K C)) resolutions).map (·.publicKey) = nodes.map (·.publicKey) := by
  induction nodes generalizing resolutions with
  | nil => rfl
  | cons node nodes ih =>
    obtain ⟨resolution, resolutions, rfl⟩ := List.exists_cons_of_length_eq_add_one hlength.symm
    exact congrArg (_ :: ·) (ih (Nat.succ.inj hlength))

omit [PathKdf K S] [Hpke K S C] in
/-- The keys that are sent are those that are derived. -/
theorem all_keys_match {updatePath : List (UpdatePathNode K C)}
    {path : List (ParentNodeIndex × ParentNode K)}
    (hkeys : updatePath.map (·.publicKey) = path.map (·.2.encryptionKey)) :
    ((updatePath.zip path).all fun entry =>
      decide (entry.1.publicKey = entry.2.2.encryptionKey)) = true := by
  induction updatePath generalizing path with
  | nil => rfl
  | cons node updatePath ih =>
    obtain ⟨entry, path, rfl⟩ := List.exists_cons_of_ne_nil
      fun hnil : path = [] => by rw [hnil] at hkeys; cases hkeys
    obtain ⟨hkey, hkeys⟩ := List.cons.inj hkeys
    rw [List.zip_cons_cons, List.all_cons, ih hkeys, decide_eq_true hkey, Bool.and_true]

/-- The keys to which the secret at a level is sent. -/
def keysBeside (tree : TreeSync K) (excluded : List LeafNodeIndex) (i k : ℕ) : List K :=
  (tree.resolution excluded (beside i k)).map (·.2.encryptionKey)

/-- What is derived from the secret of the lowest common node. -/
def commonDerivation (tree : TreeSync K) (i d : ℕ) (secret : S) : PathDerivationResult K S :=
  derivePath (PathKdf.derivePathSecret^[(tree.levelsBelow i d).length] secret)
    ((d :: tree.levelsAbove i d).map (above i))

/-- Nobody decrypts without a key that the secret was sent to. -/
theorem exists_mem_keysBeside (hmeet : ∀ k, i / 2 ^ k = j / 2 ^ k ↔ d < k)
    {updatePath : List (UpdatePathNode K C)} {groupContext : Bytes} {owned : List K}
    {result : List K × S}
    (h : tree.decryptPath ⟨i⟩ updatePath groupContext excluded owned ⟨j⟩ = .ok result) :
    ∃ key ∈ tree.keysBeside excluded i d, key ∈ owned := by
  cases hkey : tree.decryptionKey ⟨i⟩ excluded owned ⟨j⟩ with
  | none =>
    rw [decryptPath, hkey] at h
    split at h
    · cases h
    · split at h <;> cases h
  | some entry =>
    rw [decryptionKey, subtreeRootCopathNode_eq hmeet] at hkey
    exact ⟨entry.1, List.fst_mem_of_mem_zipIdx (List.mem_of_find?_eq_some hkey),
      by simpa using List.find?_some hkey⟩

section Meeting

variable (hwf : tree.WellFormed) (hi : (tree.leaf ⟨i⟩).isSome) (hj : (tree.leaf ⟨j⟩).isSome)
  (hmeet : ∀ k, i / 2 ^ k = j / 2 ^ k ↔ d < k) (hd : d < tree.size.height) (secret : S)

include hwf hi hj hmeet hd

omit [DecidableEq K] in
theorem derivePath_filteredDirectPath :
    let below := derivePath secret ((tree.levelsBelow i d).map (above i))
    let common := tree.commonDerivation i d secret
    derivePath secret (tree.filteredDirectPath ⟨i⟩) = ⟨below.path ++ common.path,
      below.updatePathNodes ++ common.updatePathNodes, below.keypairs ++ common.keypairs,
      common.commitSecret⟩ := by
  have happend := derivePath_append secret ((tree.levelsBelow i d).map (above i))
    ((d :: tree.levelsAbove i d).map (above i))
  rwa [List.length_map, ← filteredDirectPath_eq_append hwf hi hj hmeet hd] at happend

omit [DecidableEq K] in
/-- An update path, split at the lowest common node. -/
theorem encryptPath_eq_append (excluded : List LeafNodeIndex) (groupContext : Bytes) :
    ∃ front : List (UpdatePathNode K C), front.length = (tree.levelsBelow i d).length ∧
      tree.encryptPath (derivePath secret (tree.filteredDirectPath ⟨i⟩)).updatePathNodes
        groupContext excluded ⟨i⟩ = front ++
          (tree.commonDerivation i d secret).updatePathNodes.zipWith
            (fun node resolution => node.encrypt resolution groupContext)
            ((d :: tree.levelsAbove i d).map (tree.keysBeside excluded i)) := by
  have hresolutions : (tree.filteredCopathResolutions excluded ⟨i⟩).map
      (fun resolution => resolution.map (·.2.encryptionKey)) =
      (tree.levelsBelow i d).map (tree.keysBeside excluded i) ++
        (d :: tree.levelsAbove i d).map (tree.keysBeside excluded i) := by
    rw [filteredCopathResolutions_eq (lt_leafCount_of_isSome hwf hi), ← List.map_append,
      ← pathLevels_eq_append hwf hj hmeet hd, List.map_map]
    refine List.map_congr_left fun k _ => ?_
    rw [keysBeside, beside, resolution_excluding]
    rfl
  have hlength : (derivePath secret ((tree.levelsBelow i d).map (above i))).updatePathNodes.length =
      ((tree.levelsBelow i d).map (tree.keysBeside excluded i)).length := by
    rw [length_updatePathNodes, List.length_map, List.length_map]
  refine ⟨_, ?_, by rw [encryptPath, derivePath_filteredDirectPath hwf hi hj hmeet hd,
    hresolutions, List.zipWith_append hlength]⟩
  rw [List.length_zipWith, hlength, min_self, List.length_map]

/-- A member that has a key of its side decrypts the secret of the lowest common node. -/
theorem decryptPath_encryptPath {owned : List K}
    (howned : ∃ key ∈ tree.keysBeside excluded i d, key ∈ owned) (groupContext : Bytes) :
    tree.decryptPath ⟨i⟩
      (tree.encryptPath (derivePath secret (tree.filteredDirectPath ⟨i⟩)).updatePathNodes
        groupContext excluded ⟨i⟩ : List (UpdatePathNode K C)) groupContext excluded owned ⟨j⟩ =
      .ok ((tree.commonDerivation i d secret).keypairs,
        (tree.commonDerivation i d secret).commitSecret) := by
  obtain ⟨_, hmem, hentry⟩ := howned
  obtain ⟨key, -, place, hplace, hfind⟩ := exists_find?_zipIdx hmem hentry
  have hdecryption : tree.decryptionKey ⟨i⟩ excluded owned ⟨j⟩ = some (key, place) := by
    rwa [decryptionKey, subtreeRootCopathNode_eq hmeet]
  obtain ⟨front, hfront, hsplit⟩ :=
    encryptPath_eq_append (C := C) hwf hi hj hmeet hd secret excluded groupContext
  rw [hsplit]
  set common := tree.commonDerivation i d secret with hcommon
  set back : List (UpdatePathNode K C) := common.updatePathNodes.zipWith
    (fun node resolution => node.encrypt resolution groupContext)
    ((d :: tree.levelsAbove i d).map (tree.keysBeside excluded i)) with hback
  set meet : S := PathKdf.derivePathSecret^[(tree.levelsBelow i d).length] secret with hsecret
  -- the node at the common ancestor, and the member's own ciphertext there
  have hnode : (front ++ back)[(tree.levelsBelow i d).length]? =
      some (PlainUpdatePathNode.encrypt ⟨PathKdf.deriveKeyPair meet, meet⟩
        (tree.keysBeside excluded i d) groupContext) := by
    rw [List.getElem?_append_right hfront.le, hfront, Nat.sub_self]
    rfl
  have hciphertext : ((tree.keysBeside excluded i d).map fun key =>
      (Hpke.encrypt key groupContext meet : C))[place]? =
        some (Hpke.encrypt key groupContext meet) := by
    rw [List.getElem?_map, hplace, Option.map_some]
  -- what is derived from there on has the keys that were sent
  have hpublic : back.map (·.publicKey) = common.path.map (·.2.encryptionKey) := by
    have hlength : common.updatePathNodes.length =
        ((d :: tree.levelsAbove i d).map (tree.keysBeside excluded i)).length := by
      rw [hcommon, commonDerivation, length_updatePathNodes, List.length_map, List.length_map]
    rw [hback, map_publicKey_zipWith hlength, hcommon, commonDerivation,
      map_publicKey_updatePathNodes, map_encryptionKey_path]
  rw [decryptPath, subtreeRootPosition_eq hwf hi hj hmeet hd]
  dsimp only
  rw [hnode, hdecryption]
  dsimp only [PlainUpdatePathNode.encrypt]
  rw [hciphertext]
  dsimp only
  rw [Hpke.decrypt_encrypt, filteredCommonDirectPath_eq hwf hi hj hmeet hd]
  dsimp only
  rw [← hfront, List.drop_left]
  exact if_pos (all_keys_match hpublic)

end Meeting

/-! ### A commit's tree -/

section Trees

variable [TreeHashes K] {own : OwnUpdatePath K S} {newLeaf : Bytes → LeafNode K}

/-- A commit by a leaf: new keys above it, at the levels of its filtered direct path. -/
structure Committed (tree : TreeSync K) (i : ℕ) (secret : S) (leafNode : LeafNode K)
    (keyAt : ℕ → K) (own : OwnUpdatePath K S) : Prop
    extends NewPath i keyAt tree own.tree where
  leaf_self : own.tree.leaf ⟨i⟩ = some leafNode
  keypairs : (derivePath secret (tree.filteredDirectPath ⟨i⟩)).keypairs =
    (tree.pathLevels i).map keyAt
  result : own = ⟨own.tree, (derivePath secret (tree.filteredDirectPath ⟨i⟩)).updatePathNodes,
    leafNode.encryptionKey :: (derivePath secret (tree.filteredDirectPath ⟨i⟩)).keypairs,
    (derivePath secret (tree.filteredDirectPath ⟨i⟩)).commitSecret⟩

omit [DecidableEq K] in
/-- A commit succeeds, and whoever processes its keys gets the same tree. -/
theorem exists_applyOwnUpdatePath (hwf : tree.WellFormed) (hi : (tree.leaf ⟨i⟩).isSome)
    (secret : S) (hnew : ∀ hash, (newLeaf hash).parentHash = some hash) :
    ∃ own leafNode keyAt, tree.applyOwnUpdatePath ⟨i⟩ secret newLeaf = some own ∧
      Committed tree i secret leafNode keyAt own ∧
      tree.applyReceivedUpdatePath ⟨i⟩ leafNode (own.updatePathNodes.map (·.publicKey)) =
        .ok own.tree := by
  have hlt := lt_leafCount_of_isSome hwf hi
  have hpath := filteredDirectPath_eq hlt
  have hnodup : (tree.pathLevels i).Nodup := pathLevels_sorted.imp ne_of_lt
  obtain ⟨keyAt, hkeys, hnodes⟩ := exists_keyAt secret (above i) hnodup
  rw [← hpath] at hkeys hnodes
  obtain ⟨tree', parentHash, hprocess, hnewPath, -⟩ := processUpdatePath_newPath hwf hlt keyAt
  rw [← hnodes] at hprocess
  refine ⟨⟨tree'.replaceLeaf ⟨i⟩ (some (newLeaf parentHash)),
    (derivePath secret (tree.filteredDirectPath ⟨i⟩)).updatePathNodes,
    (newLeaf parentHash).encryptionKey ::
      (derivePath secret (tree.filteredDirectPath ⟨i⟩)).keypairs,
    (derivePath secret (tree.filteredDirectPath ⟨i⟩)).commitSecret⟩, newLeaf parentHash, keyAt,
    ?_, ?_, ?_⟩
  · rw [applyOwnUpdatePath, hprocess]
    rfl
  · exact ⟨hnewPath.replaceLeaf _, Function.update_self _ _ _, hkeys, rfl⟩
  · have hsender : tree.withSender ⟨i⟩ (newLeaf parentHash) = .ok tree := by
      rw [withSender, if_neg]
      rw [not_or, not_le]
      refine ⟨fun hnone => ?_, hlt⟩
      rw [Option.isNone_iff_eq_none.mp hnone] at hi
      cases hi
    -- a receiver derives nothing: it sets the public keys where the committer set its own
    have hlength : (tree.filteredDirectPath ⟨i⟩).length =
        (derivePath secret (tree.filteredDirectPath ⟨i⟩)).keypairs.length := by
      rw [← map_publicKey_updatePathNodes, List.length_map, length_updatePathNodes]
    rw [applyReceivedUpdatePath, hsender]
    dsimp only [Except.bind, bind]
    rw [map_publicKey_updatePathNodes, if_neg (not_not.mpr hlength), ← path_eq_zip, hprocess]
    dsimp only
    rw [hnew]
    exact if_neg (not_not.mpr rfl)

variable {leafNode : LeafNode K} {keyAt : ℕ → K} {secret : S}

omit [DecidableEq K] [TreeHashes K] in
theorem Committed.wellFormed (h : Committed tree i secret leafNode keyAt own)
    (hwf : tree.WellFormed) (hi : (tree.leaf ⟨i⟩).isSome) : own.tree.WellFormed :=
  hwf.newPath h.toNewPath (lt_leafCount_of_isSome hwf hi) (by rw [h.leaf_self]; rfl)

omit [DecidableEq K] [TreeHashes K] in
theorem Committed.leaf_isSome (h : Committed tree i secret leafNode keyAt own)
    (hj : (tree.leaf ⟨j⟩).isSome) : (own.tree.leaf ⟨j⟩).isSome := by
  by_cases hne : j = i
  · rw [hne, h.leaf_self]
    rfl
  · rwa [h.leaf j hne]

omit [DecidableEq K] [TreeHashes K] in
theorem Committed.filteredDirectPath_eq (h : Committed tree i secret leafNode keyAt own)
    (hwf : tree.WellFormed) (hi : (tree.leaf ⟨i⟩).isSome) :
    own.tree.filteredDirectPath ⟨i⟩ = tree.filteredDirectPath ⟨i⟩ := by
  rw [TreeSync.filteredDirectPath_eq (lt_leafCount_of_isSome hwf hi),
    TreeSync.filteredDirectPath_eq
      (lt_leafCount_of_isSome (h.wellFormed hwf hi) (h.leaf_isSome hi)),
    h.toAgreeOff.pathLevels_eq hwf]

omit [DecidableEq K] [TreeHashes K] in
/-- The keys that are derived from the secret of the lowest common node. -/
theorem Committed.keypairs_common (h : Committed tree i secret leafNode keyAt own)
    (hwf : tree.WellFormed) (hi : (tree.leaf ⟨i⟩).isSome) (hj : (tree.leaf ⟨j⟩).isSome)
    (hmeet : ∀ k, i / 2 ^ k = j / 2 ^ k ↔ d < k) (hd : d < tree.size.height) :
    (tree.commonDerivation i d secret).keypairs = (d :: tree.levelsAbove i d).map keyAt := by
  have hkeys := h.keypairs
  rw [derivePath_filteredDirectPath hwf hi hj hmeet hd, pathLevels_eq_append hwf hj hmeet hd,
    List.map_append] at hkeys
  refine (List.append_inj hkeys ?_).2
  rw [← map_publicKey_updatePathNodes, List.length_map, length_updatePathNodes, List.length_map,
    List.length_map]

omit [DecidableEq K] [TreeHashes K] in
theorem Committed.commonDerivation_eq (h : Committed tree i secret leafNode keyAt own)
    (hwf : tree.WellFormed) :
    own.tree.commonDerivation i d secret = tree.commonDerivation i d secret := by
  rw [commonDerivation, commonDerivation, levelsBelow, levelsAbove,
    h.toAgreeOff.pathLevels_eq hwf, levelsBelow, levelsAbove]

omit [DecidableEq K] [TreeHashes K] in
/-- The committer has the keys of its leaf and of its path. -/
theorem Committed.mem_keypairs (h : Committed tree i secret leafNode keyAt own)
    (hwf' : own.tree.WellFormed) {key : K} (hkey : key ∈ own.tree.encryptionKeys ⟨i⟩) :
    key ∈ own.keypairs := by
  have hi : (own.tree.leaf ⟨i⟩).isSome := by rw [h.leaf_self]; rfl
  rw [mem_encryptionKeys_iff hwf' (lt_leafCount_of_isSome hwf' hi)] at hkey
  rw [h.result, h.keypairs]
  rcases hkey with ⟨leaf, hleaf, rfl⟩ | ⟨k, node, hnode, -, rfl⟩
  · obtain rfl := Option.some.inj (h.leaf_self.symm.trans hleaf)
    exact List.mem_cons_self
  · obtain ⟨hk, hkey, -⟩ := h.exists_key hnode
    rw [hkey]
    exact List.mem_cons_of_mem _ (List.mem_map_of_mem hk)

section Meeting

variable (h : Committed tree i secret leafNode keyAt own) (hwf : tree.WellFormed)
  (hi : (tree.leaf ⟨i⟩).isSome) (hj : (tree.leaf ⟨j⟩).isSome)
  (hmeet : ∀ k, i / 2 ^ k = j / 2 ^ k ↔ d < k) (hd : d < tree.size.height)

omit [TreeHashes K]

include h hwf hi hj hmeet hd

omit [DecidableEq K] in
/-- The commit secret follows from the secret of the lowest common node. -/
theorem Committed.commitSecret_eq :
    own.commitSecret = (tree.commonDerivation i d secret).commitSecret := by
  have hcommit := congrArg PathDerivationResult.commitSecret
    (derivePath_filteredDirectPath hwf hi hj hmeet hd secret)
  rw [← hcommit, h.result]

omit [DecidableEq K] in
/-- The keys that a member needs are those that it had, and those of the common path. -/
theorem Committed.mem_encryptionKeys (hne : i ≠ j) {key : K}
    (hkey : key ∈ own.tree.encryptionKeys ⟨j⟩) :
    key ∈ tree.encryptionKeys ⟨j⟩ ∨ key ∈ (tree.commonDerivation i d secret).keypairs := by
  have hwf' := h.wellFormed hwf hi
  rw [h.keypairs_common hwf hi hj hmeet hd]
  rw [mem_encryptionKeys_iff hwf' (lt_leafCount_of_isSome hwf' (h.leaf_isSome hj))] at hkey
  rw [mem_encryptionKeys_iff hwf (lt_leafCount_of_isSome hwf hj)]
  rcases hkey with ⟨leaf, hleaf, rfl⟩ | ⟨k, full, hfull, hunmerged, rfl⟩
  · exact .inl (.inl ⟨leaf, (h.leaf j hne.symm).symm.trans hleaf, rfl⟩)
  · by_cases hk : d ≤ k
    · -- a new node, from the common ancestor up
      right
      have habove : above i k = above j k := by
        rw [above, above, (hmeet (k + 1)).mpr (Nat.lt_succ_of_le hk)]
      obtain ⟨hlevel, hkey, -⟩ := h.exists_key (habove ▸ hfull)
      rw [hkey]
      refine List.mem_map_of_mem ?_
      rw [pathLevels_eq_append hwf hj hmeet hd] at hlevel
      refine (List.mem_append.mp hlevel).resolve_left fun hbelow => ?_
      have : k < d := by simpa using (List.mem_filter.mp hbelow).2
      exact absurd hk this.not_ge
    · -- a node that the committer is not below
      left
      refine .inr ⟨k, full, ?_, hunmerged, rfl⟩
      rw [above, h.parent k _ fun heq => hk (Nat.le_of_lt_succ ((hmeet (k + 1)).mp heq))] at hfull
      exact hfull

/-- A member that has a key of its side decrypts the secret of the lowest common node. -/
theorem Committed.decryptPath_eq {owned : List K}
    (howned : ∃ key ∈ own.tree.keysBeside excluded i d, key ∈ owned) (groupContext : Bytes) :
    own.tree.decryptPath ⟨i⟩ (own.tree.encryptPath own.updatePathNodes
        groupContext excluded ⟨i⟩ : List (UpdatePathNode K C)) groupContext excluded owned ⟨j⟩ =
      .ok ((tree.commonDerivation i d secret).keypairs, own.commitSecret) := by
  have hd' : d < own.tree.size.height := by rwa [h.size]
  have hdecrypt := decryptPath_encryptPath (C := C) (h.wellFormed hwf hi) (h.leaf_isSome hi)
    (h.leaf_isSome hj) hmeet hd' secret howned groupContext
  rw [h.filteredDirectPath_eq hwf hi, h.commonDerivation_eq hwf,
    ← h.commitSecret_eq hwf hi hj hmeet hd] at hdecrypt
  rw [← hdecrypt]
  congr 1
  rw [h.result]

end Meeting

omit [TreeHashes K] in
/-- A member decrypts the commit secret, whoever else is left out. -/
theorem Committed.exists_decryptPath (h : Committed tree i secret leafNode keyAt own)
    (hwf : tree.WellFormed) (hi : (tree.leaf ⟨i⟩).isSome) (hj : (tree.leaf ⟨j⟩).isSome)
    (hne : i ≠ j) (hexcluded : ⟨j⟩ ∉ excluded) {owned : List K}
    (howned : ∀ key ∈ tree.encryptionKeys ⟨j⟩, key ∈ owned) (groupContext : Bytes) :
    ∃ keypairs, own.tree.decryptPath ⟨i⟩ (own.tree.encryptPath own.updatePathNodes
        groupContext excluded ⟨i⟩ : List (UpdatePathNode K C)) groupContext excluded owned ⟨j⟩ =
          .ok (keypairs, own.commitSecret) ∧
      ∀ key ∈ own.tree.encryptionKeys ⟨j⟩, key ∈ tree.encryptionKeys ⟨j⟩ ∨ key ∈ keypairs := by
  obtain ⟨d, hd, hmeet⟩ := exists_meet_of_isSome hwf hi hj hne
  -- the copath of the committer is as it was
  have hbeside : ∃ key ∈ own.tree.keysBeside excluded i d, key ∈ owned := by
    obtain ⟨entry, hmem, hkey⟩ :=
      exists_mem_resolution_excluding hwf hj hexcluded (div_eq_twin hmeet)
    refine ⟨_, List.mem_map_of_mem ?_, howned _ hkey⟩
    rwa [beside, h.toAgreeOff.resolution_eq hwf (twin_ne _).symm]
  exact ⟨_, h.decryptPath_eq hwf hi hj hmeet hd hbeside groupContext,
    fun key => h.mem_encryptionKeys hwf hi hj hmeet hd hne⟩

end Trees

end TreeSync

end SafeHub
