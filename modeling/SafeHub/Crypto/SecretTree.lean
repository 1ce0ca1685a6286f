import SafeHub.Crypto.SenderRatchet
import SafeHub.Crypto.TreeMath
import SafeHub.Lib.DerivationTree
import SafeHub.Types.RefHead

/-!
# The secret tree

In every epoch the group has one encryption secret, at the root of a tree. The secrets of the other
nodes are derived downwards, and those of a leaf start the two ratchets of the member at this leaf.
Nothing is derived before it is needed: a request for a ratchet that is not there finds the lowest
node above the leaf that still has a secret, derives its way down, and leaves no secret on that way.

## Main definitions

* `SecretTree` — the secrets that are left, and the ratchets that were started
* `secretForDecryption`, `secretForEncryption` — the requests
* `ofNodes` — a tree by the numbers of its nodes

## Main results

* `exec_deriveToLeaf` — the way down to a leaf ends in its secret
* `exec_initializeSenderRatchets` — the ratchets of a leaf start from its secret, and the leaf is
  opened
-/

namespace SafeHub

open CompleteTree DerivationTree

inductive SecretType
  | handshakeSecret
  | applicationSecret
  deriving DecidableEq, Repr

/-- The ratchet of a member: its own for what it sends, the others for what it receives. -/
inductive SenderRatchet (S : Type*)
  | encryptionRatchet (ratchet : RatchetSecret S)
  | decryptionRatchet (ratchet : DecryptionRatchet S)
  deriving DecidableEq, Repr

structure SecretTree (S : Type*) where
  ownIndex : LeafNodeIndex
  leafNodes : List (Option S)
  parentNodes : List (Option S)
  handshakeSenderRatchets : List (Option (SenderRatchet S))
  applicationSenderRatchets : List (Option (SenderRatchet S))
  size : TreeSize

/-- Steps that may fail and that leave the tree as it is then. -/
abbrev TreeM (S : Type) := ExceptT SecretTreeError (StateM (SecretTree S))

section Tree

variable {S : Type} [TreeKdf S]

/-- The secrets of the two nodes below a node. -/
def deriveChildSecrets (parentSecret : S) : S × S :=
  (TreeKdf.expandLabel parentSecret "tree" (strBytes "left") (TreeKdf.hashLength S),
    TreeKdf.expandLabel parentSecret "tree" (strBytes "right") (TreeKdf.hashLength S))

namespace SecretTree

def getNode (index : TreeNodeIndex) : TreeM S (Option S) := do
  let tree ← get
  match index with
  | .leaf leafIndex =>
    match tree.leafNodes[leafIndex.u32]? with
    | some node => return node
    | none => throw .indexOutOfBounds
  | .parent parentIndex =>
    match tree.parentNodes[parentIndex.u32]? with
    | some node => return node
    | none => throw .indexOutOfBounds

def setNode (index : TreeNodeIndex) (node : Option S) : TreeM S Unit := do
  let tree ← get
  match index with
  | .leaf leafIndex =>
    if leafIndex.u32 < tree.leafNodes.length then
      set { tree with leafNodes := tree.leafNodes.set leafIndex.u32 node }
    else throw .indexOutOfBounds
  | .parent parentIndex =>
    if parentIndex.u32 < tree.parentNodes.length then
      set { tree with parentNodes := tree.parentNodes.set parentIndex.u32 node }
    else throw .indexOutOfBounds

/-- A tree with the encryption secret at its root. -/
def new (encryptionSecret : S) (size : TreeSize) (ownIndex : LeafNodeIndex) : SecretTree S :=
  let leafCount := size.leafCount
  let secretTree : SecretTree S :=
    { ownIndex
      leafNodes := List.replicate leafCount none
      parentNodes := List.replicate leafCount none
      handshakeSenderRatchets := List.replicate leafCount none
      applicationSenderRatchets := List.replicate leafCount none
      size }
  ((setNode (root size) (some encryptionSecret)).run secretTree).2

/-- The ratchets of one kind. -/
def senderRatchets (tree : SecretTree S) : SecretType → List (Option (SenderRatchet S))
  | .handshakeSecret => tree.handshakeSenderRatchets
  | .applicationSecret => tree.applicationSenderRatchets

/-- A ratchet, if it was started. -/
def ratchetOpt (index : LeafNodeIndex) (secretType : SecretType) :
    TreeM S (Option (SenderRatchet S)) := do
  match ((← get).senderRatchets secretType)[index.u32]? with
  | some senderRatchet => return senderRatchet
  | none => throw .indexOutOfBounds

/-- A ratchet that was started. -/
def ratchetMut (index : LeafNodeIndex) (secretType : SecretType) : TreeM S (SenderRatchet S) := do
  match ((← get).senderRatchets secretType)[index.u32]? with
  | some (some senderRatchet) => return senderRatchet
  | _ => throw .indexOutOfBounds

/-- Put a ratchet in its place. -/
def setRatchet (index : LeafNodeIndex) (secretType : SecretType) (ratchet : SenderRatchet S) :
    TreeM S Unit := do
  let tree ← get
  if index.u32 < (tree.senderRatchets secretType).length then
    match secretType with
    | .handshakeSecret =>
      set { tree with
        handshakeSenderRatchets := tree.handshakeSenderRatchets.set index.u32 (some ratchet) }
    | .applicationSecret =>
      set { tree with
        applicationSenderRatchets := tree.applicationSenderRatchets.set index.u32 (some ratchet) }
  else throw .indexOutOfBounds

/-- Derive the secrets of the children of a node, and blank the node. -/
def deriveDown (indexInTree : ParentNodeIndex) : TreeM S Unit := do
  match ← getNode (.parent indexInTree) with
  | none => throw .libraryError
  | some nodeSecret =>
    let (leftSecret, rightSecret) := deriveChildSecrets nodeSecret
    setNode (left indexInTree) (some leftSecret)
    setNode (right indexInTree) (some rightSecret)
    setNode (.parent indexInTree) none

/-- The nodes of a path up to the first one with a secret, that one included. -/
def emptyNodes : List ParentNodeIndex → TreeM S (List ParentNodeIndex)
  | [] => return []
  | parentNode :: path => do
    if (← getNode (.parent parentNode)).isSome then return [parentNode]
    else return parentNode :: (← emptyNodes path)

/-- Derive the secret of a leaf, if it is not there. -/
def deriveToLeaf (index : LeafNodeIndex) : TreeM S Unit := do
  let tree ← get
  if (← getNode (.leaf index)).isNone then
    match directPath index tree.size with
    | none => throw .libraryError
    | some path => (← emptyNodes path).reverse.forM deriveDown

/-- A ratchet, in its first generation. -/
def startRatchet (ownIndex index : LeafNodeIndex) (secret : S) : SenderRatchet S :=
  if index = ownIndex then .encryptionRatchet (.initialRatchetSecret secret)
  else .decryptionRatchet (.new secret)

/-- Start the two ratchets of a leaf. -/
def initializeSenderRatchets (index : LeafNodeIndex) : TreeM S Unit := do
  let tree ← get
  if tree.size.leafCount ≤ index.u32 then throw .indexOutOfBounds
  else if (← ratchetOpt index .handshakeSecret).isSome &&
      (← ratchetOpt index .applicationSecret).isSome then return ()
  else
    deriveToLeaf index
    match ← getNode (.leaf index) with
    | none => throw .libraryError
    | some nodeSecret =>
      let handshake := TreeKdf.expandLabel nodeSecret "handshake" [] (TreeKdf.hashLength S)
      let application := TreeKdf.expandLabel nodeSecret "application" [] (TreeKdf.hashLength S)
      setRatchet index .handshakeSecret (startRatchet tree.ownIndex index handshake)
      setRatchet index .applicationSecret (startRatchet tree.ownIndex index application)
      setNode (.leaf index) none

/-- Start the ratchets of a leaf, if the one asked for is not there. -/
def ensureStarted (index : LeafNodeIndex) (secretType : SecretType) : TreeM S Unit := do
  if (← ratchetOpt index secretType).isNone then initializeSenderRatchets index

/-- The key of a message of another member. -/
def secretForDecryption (index : LeafNodeIndex) (secretType : SecretType) (generation : ℕ)
    (configuration : SenderRatchetConfiguration) : TreeM S (RatchetKeyMaterial S) := do
  let tree ← get
  if tree.size.leafCount ≤ index.u32 then throw .indexOutOfBounds
  else
    ensureStarted index secretType
    match ← ratchetMut index secretType with
    | .encryptionRatchet _ => throw .ratchetTypeError
    | .decryptionRatchet decRatchet =>
      let (answer, decRatchet) := decRatchet.secretForDecryption configuration generation
      setRatchet index secretType (.decryptionRatchet decRatchet)
      answer

/-- The generation and the key of the next message. -/
def secretForEncryption (index : LeafNodeIndex) (secretType : SecretType) :
    TreeM S (ℕ × RatchetKeyMaterial S) := do
  ensureStarted index secretType
  match ← ratchetMut index secretType with
  | .decryptionRatchet _ => throw .ratchetTypeError
  | .encryptionRatchet encRatchet =>
    match encRatchet.ratchetForward with
    | .error e => throw e
    | .ok (answer, encRatchet) =>
      setRatchet index secretType (.encryptionRatchet encRatchet)
      return answer

/-! ### Running steps -/

/-- The outcome of a step and the tree after it. -/
def exec {α : Type} (step : TreeM S α) (tree : SecretTree S) :
    Except SecretTreeError α × SecretTree S :=
  step.run tree

section Exec

variable {α β : Type} {tree tree' : SecretTree S} {a : α} {e : SecretTreeError}

omit [TreeKdf S]

theorem exec_bind (step : TreeM S α) (next : α → TreeM S β) :
    exec (step >>= next) tree =
      match exec step tree with
      | (.ok a, tree) => exec (next a) tree
      | (.error e, tree) => (.error e, tree) := by
  have hbind : exec (step >>= next) tree = (fun result : Except SecretTreeError α × SecretTree S =>
      ExceptT.bindCont next result.1 result.2) (exec step tree) := rfl
  rw [hbind]
  rcases exec step tree with ⟨e | a, tree'⟩ <;> rfl

theorem exec_bind_of_ok {step : TreeM S α} {next : α → TreeM S β}
    (h : exec step tree = (.ok a, tree')) : exec (step >>= next) tree = exec (next a) tree' := by
  rw [exec_bind, h]

theorem exec_bind_of_error {step : TreeM S α} {next : α → TreeM S β}
    (h : exec step tree = (.error e, tree')) : exec (step >>= next) tree = (.error e, tree') := by
  rw [exec_bind, h]

theorem exec_get_bind {next : SecretTree S → TreeM S β} :
    exec (get >>= next) tree = exec (next tree) tree := rfl

theorem exec_set : exec (set tree' : TreeM S PUnit) tree = (.ok PUnit.unit, tree') := rfl

end Exec

/-! ### Trees by node numbers -/

theorem set_map_range {α : Type*} (f : ℕ → α) (n i : ℕ) (v : α) :
    ((List.range n).map f).set i v = (List.range n).map (Function.update f i v) := by
  apply List.ext_getElem
  · simp
  · intro j _ _
    simp only [List.getElem_set, List.getElem_map, List.getElem_range, Function.update_apply,
      eq_comm]

section OfNodes

variable {size : TreeSize} {own : LeafNodeIndex} {nodes : ℕ → Option S}
variable {ratchets : ℕ × SecretType → Option (SenderRatchet S)} {x i k m : ℕ}

omit [TreeKdf S]

/-- The tree with given secrets, by the number of the node, and given ratchets. -/
def ofNodes (size : TreeSize) (own : LeafNodeIndex) (nodes : ℕ → Option S)
    (ratchets : ℕ × SecretType → Option (SenderRatchet S)) : SecretTree S where
  ownIndex := own
  leafNodes := (List.range size.leafCount).map fun i => nodes (2 * i)
  parentNodes := (List.range size.leafCount).map fun p => nodes (2 * p + 1)
  handshakeSenderRatchets := (List.range size.leafCount).map fun i => ratchets (i, .handshakeSecret)
  applicationSenderRatchets :=
    (List.range size.leafCount).map fun i => ratchets (i, .applicationSecret)
  size := size

theorem size_ofNodes : (ofNodes size own nodes ratchets).size = size := rfl

theorem senderRatchets_ofNodes (secretType : SecretType) :
    (ofNodes size own nodes ratchets).senderRatchets secretType =
      (List.range size.leafCount).map fun i => ratchets (i, secretType) := by
  cases secretType <;> rfl

theorem exec_getNode (hx : x < 2 * size.leafCount) :
    exec (getNode (.new x)) (ofNodes size own nodes ratchets) =
      (.ok (nodes x), ofNodes size own nodes ratchets) := by
  rw [getNode, exec_get_bind, TreeNodeIndex.new]
  rcases Nat.even_or_odd' x with ⟨y, rfl | rfl⟩
  · rw [if_pos (Nat.mul_mod_right 2 y)]
    dsimp only [LeafNodeIndex.fromTreeIndex, ofNodes]
    rw [Nat.mul_div_cancel_left y two_pos, List.getElem?_map, List.getElem?_range (by omega)]
    rfl
  · rw [if_neg (by omega)]
    dsimp only [ParentNodeIndex.fromTreeIndex, ofNodes]
    rw [Nat.add_sub_cancel, Nat.mul_div_cancel_left y two_pos, List.getElem?_map,
      List.getElem?_range (by omega)]
    rfl

theorem exec_setNode (hx : x < 2 * size.leafCount) (node : Option S) :
    exec (setNode (.new x) node) (ofNodes size own nodes ratchets) =
      (.ok (), ofNodes size own (Function.update nodes x node) ratchets) := by
  rw [setNode, exec_get_bind, TreeNodeIndex.new]
  -- even places are leaves, odd ones parents, and each list keeps the other's places
  rcases Nat.even_or_odd' x with ⟨y, rfl | rfl⟩
  · have hlength : y < (ofNodes size own nodes ratchets).leafNodes.length := by
      rw [ofNodes, List.length_map, List.length_range]
      omega
    rw [if_pos (Nat.mul_mod_right 2 y)]
    dsimp only [LeafNodeIndex.fromTreeIndex]
    rw [Nat.mul_div_cancel_left y two_pos, if_pos hlength, exec_set, ofNodes, ofNodes]
    simp only [set_map_range]
    congr 2
    · apply List.map_congr_left
      intro j _
      simp [Function.update_apply]
    · apply List.map_congr_left
      intro j _
      rw [Function.update_of_ne (by omega)]
  · have hlength : y < (ofNodes size own nodes ratchets).parentNodes.length := by
      rw [ofNodes, List.length_map, List.length_range]
      omega
    rw [if_neg (by omega)]
    dsimp only [ParentNodeIndex.fromTreeIndex]
    rw [Nat.add_sub_cancel, Nat.mul_div_cancel_left y two_pos, if_pos hlength, exec_set, ofNodes,
      ofNodes]
    simp only [set_map_range]
    congr 2
    · apply List.map_congr_left
      intro j _
      rw [Function.update_of_ne (by omega)]
    · apply List.map_congr_left
      intro j _
      simp [Function.update_apply]

theorem exec_ratchetOpt (hi : i < size.leafCount) (secretType : SecretType) :
    exec (ratchetOpt ⟨i⟩ secretType) (ofNodes size own nodes ratchets) =
      (.ok (ratchets (i, secretType)), ofNodes size own nodes ratchets) := by
  rw [ratchetOpt, exec_get_bind, senderRatchets_ofNodes, List.getElem?_map,
    List.getElem?_range hi]
  rfl

theorem exec_ratchetOpt_of_le (hi : size.leafCount ≤ i) (secretType : SecretType) :
    exec (ratchetOpt ⟨i⟩ secretType) (ofNodes size own nodes ratchets) =
      (.error .indexOutOfBounds, ofNodes size own nodes ratchets) := by
  rw [ratchetOpt, exec_get_bind, senderRatchets_ofNodes, List.getElem?_eq_none]
  · rfl
  · rwa [List.length_map, List.length_range]

theorem exec_ratchetMut (hi : i < size.leafCount) {secretType : SecretType}
    {senderRatchet : SenderRatchet S} (hratchet : ratchets (i, secretType) = some senderRatchet) :
    exec (ratchetMut ⟨i⟩ secretType) (ofNodes size own nodes ratchets) =
      (.ok senderRatchet, ofNodes size own nodes ratchets) := by
  rw [ratchetMut, exec_get_bind, senderRatchets_ofNodes, List.getElem?_map,
    List.getElem?_range hi, Option.map_some, hratchet]
  rfl

theorem exec_setRatchet (hi : i < size.leafCount) (secretType : SecretType)
    (ratchet : SenderRatchet S) :
    exec (setRatchet ⟨i⟩ secretType ratchet) (ofNodes size own nodes ratchets) =
      (.ok (), ofNodes size own nodes
        (Function.update ratchets (i, secretType) (some ratchet))) := by
  have hlength : i < ((ofNodes size own nodes ratchets).senderRatchets secretType).length := by
    rwa [senderRatchets_ofNodes, List.length_map, List.length_range]
  rw [setRatchet, exec_get_bind, if_pos hlength]
  cases secretType <;> dsimp only <;> rw [exec_set, ofNodes, ofNodes] <;>
    simp only [set_map_range] <;> congr 2 <;> refine List.map_congr_left fun j _ => ?_ <;>
    simp [Function.update_apply]

end OfNodes

/-! ### The way down to a leaf -/

/-- The secret a ratchet starts from. -/
def ratchetStart (encryptionSecret : S) (size : TreeSize) (i : ℕ) : SecretType → S
  | .handshakeSecret =>
    TreeKdf.expandLabel (nodeSecret deriveChildSecrets encryptionSecret size.height i)
      "handshake" [] (TreeKdf.hashLength S)
  | .applicationSecret =>
    TreeKdf.expandLabel (nodeSecret deriveChildSecrets encryptionSecret size.height i)
      "application" [] (TreeKdf.hashLength S)

section Frontier

variable {size : TreeSize} {own : LeafNodeIndex} {nodes : ℕ → Option S}
variable {ratchets : ℕ × SecretType → Option (SenderRatchet S)} {i k m : ℕ}
variable {encryptionSecret s : S} {opened : Set ℕ}

theorem node_lt (hk : k ≤ size.height) (hm : m < 2 ^ (size.height - k)) :
    node k m < 2 * size.leafCount := by
  have hlt := (node_lt_iff hk).mpr hm
  rw [size.leafCount_eq]
  rw [pow_succ'] at hlt
  omega

theorem div_lt (hi : i < size.leafCount) (hk : k ≤ size.height) :
    i / 2 ^ k < 2 ^ (size.height - k) := by
  rw [size.leafCount_eq] at hi
  rwa [Nat.div_lt_iff_lt_mul (Nat.two_pow_pos k), ← pow_add, Nat.sub_add_cancel hk]

variable (own nodes ratchets) in
theorem exec_deriveDown (hk : k + 1 ≤ size.height) (hm : m < 2 ^ (size.height - (k + 1)))
    (hs : nodes (node (k + 1) m) = some s) :
    exec (deriveDown (parentAt k m)) (ofNodes size own nodes ratchets) =
      (.ok (), ofNodes size own (openNode deriveChildSecrets nodes k m s) ratchets) := by
  have hsucc : 2 ^ (size.height - k) = 2 ^ (size.height - (k + 1)) * 2 := by
    rw [← pow_succ]
    congr 1
    omega
  have hleft := node_lt (m := 2 * m) (Nat.le_of_succ_le hk) (by omega)
  have hright := node_lt (m := 2 * m + 1) (Nat.le_of_succ_le hk) (by omega)
  rw [deriveDown, ← new_node_succ, exec_bind_of_ok (exec_getNode (node_lt hk hm)), hs]
  dsimp only
  rw [left_parentAt, right_parentAt, exec_bind_of_ok (exec_setNode hleft _),
    exec_bind_of_ok (exec_setNode hright _), exec_setNode (node_lt hk hm)]
  rfl

variable (own ratchets) in
omit [TreeKdf S] in
/-- The empty nodes are those up to the lowest secret above the leaf. -/
theorem exec_emptyNodes {d n : ℕ} (hi : i < size.leafCount) (hn : k + n ≤ size.height) (hd : d < n)
    (hempty : ∀ e < d, nodes (node (k + e + 1) (i / 2 ^ (k + e + 1))) = none)
    (hs : nodes (node (k + d + 1) (i / 2 ^ (k + d + 1))) = some s) :
    exec (emptyNodes ((List.range' k n).map (above i))) (ofNodes size own nodes ratchets) =
      (.ok ((List.range' k (d + 1)).map (above i)), ofNodes size own nodes ratchets) := by
  induction d generalizing k n with
  | zero =>
    obtain ⟨n, rfl⟩ := Nat.exists_eq_succ_of_ne_zero (Nat.ne_of_gt hd)
    have hnode := node_lt (by omega) (div_lt hi (show k + 1 ≤ size.height by omega))
    rw [List.range'_succ, List.map_cons, emptyNodes, above, ← new_node_succ,
      exec_bind_of_ok (exec_getNode hnode)]
    rw [add_zero] at hs
    rw [hs]
    rfl
  | succ d ih =>
    obtain ⟨n, rfl⟩ := Nat.exists_eq_succ_of_ne_zero (Nat.ne_of_gt (Nat.zero_lt_of_lt hd))
    have hnode := node_lt (by omega) (div_lt hi (show k + 1 ≤ size.height by omega))
    have hnone : nodes (node (k + 1) (i / 2 ^ (k + 1))) = none := hempty 0 (Nat.succ_pos d)
    have hrest := ih (k := k + 1) (n := n) (by omega) (by omega)
      (fun e he => by
        have := hempty (e + 1) (Nat.succ_lt_succ he)
        rwa [show k + (e + 1) + 1 = k + 1 + e + 1 by omega] at this)
      (by rwa [show k + (d + 1) + 1 = k + 1 + d + 1 by omega] at hs)
    rw [List.range'_succ, List.map_cons, emptyNodes, above, ← new_node_succ,
      exec_bind_of_ok (exec_getNode hnode), hnone, if_neg (by simp), exec_bind_of_ok hrest]
    rfl

variable (own ratchets) in
/-- Deriving all nodes from a secret down to the leaf. -/
theorem exec_deriveAll (hi : i < size.leafCount) (hk : k ≤ size.height)
    (hf : Frontier deriveChildSecrets encryptionSecret size.height opened nodes)
    (hs : nodes (node k (i / 2 ^ k)) = some s) :
    ∃ nodes', exec (((List.range k).map (above i)).reverse.forM deriveDown)
        (ofNodes size own nodes ratchets) = (.ok (), ofNodes size own nodes' ratchets) ∧
      Frontier deriveChildSecrets encryptionSecret size.height opened nodes' ∧
      nodes' (node 0 i) = some (nodeSecret deriveChildSecrets encryptionSecret size.height i) := by
  induction k generalizing nodes s with
  | zero =>
    rw [pow_zero, Nat.div_one] at hs
    refine ⟨nodes, rfl, hf, ?_⟩
    rw [hs, hf.eq_nodeSecret 0 i s hk hs, Nat.sub_zero]
  | succ k ih =>
    have hstep := exec_deriveDown own nodes ratchets hk (div_lt hi hk) hs
    obtain ⟨nodes', hrest, hf', hleaf⟩ :=
      ih (Nat.le_of_succ_le hk) (hf.openNode hk hs) openNode_child
    refine ⟨nodes', ?_, hf', hleaf⟩
    rw [List.range_succ, List.map_append, List.reverse_append, List.map_singleton,
      List.reverse_singleton, List.singleton_append, List.forM, above, exec_bind_of_ok hstep]
    exact hrest

variable (own ratchets) in
/-- The way down to a leaf that is not opened ends in its secret. -/
theorem exec_deriveToLeaf (hi : i < size.leafCount) (hnot : i ∉ opened)
    (hf : Frontier deriveChildSecrets encryptionSecret size.height opened nodes) :
    ∃ nodes', exec (deriveToLeaf ⟨i⟩) (ofNodes size own nodes ratchets) =
        (.ok (), ofNodes size own nodes' ratchets) ∧
      Frontier deriveChildSecrets encryptionSecret size.height opened nodes' ∧
      nodes' (node 0 i) = some (nodeSecret deriveChildSecrets encryptionSecret size.height i) := by
  have hi' : i < 2 ^ size.height := size.leafCount_eq ▸ hi
  have hleaf : ∀ e, e = 0 → i / 2 ^ e = i := by
    rintro e rfl
    rw [pow_zero, Nat.div_one]
  have hnode := node_lt (m := i) (Nat.zero_le _) (by rwa [Nat.sub_zero])
  obtain ⟨k, ⟨hk, hkept⟩, -⟩ := hf.existsUnique i hi' hnot
  obtain ⟨s, hs⟩ := Option.ne_none_iff_exists'.mp hkept
  rw [deriveToLeaf, exec_get_bind, ← new_node_zero, exec_bind_of_ok (exec_getNode hnode)]
  cases k with
  | zero =>
    rw [hleaf 0 rfl] at hs
    refine ⟨nodes, ?_, hf, ?_⟩
    · rw [hs]
      rfl
    · rw [hs, hf.eq_nodeSecret 0 i s hk hs, Nat.sub_zero]
  | succ d =>
    -- only one node of the path has a secret, so those below it are empty
    have hempty : ∀ e < d + 1, nodes (node e (i / 2 ^ e)) = none := by
      intro e he
      by_contra hne
      exact he.ne (hf.eq_of_ne_none hi' hk hs (by omega) hne)
    have hnone := hempty 0 (Nat.succ_pos d)
    rw [hleaf 0 rfl] at hnone
    have hnodes := exec_emptyNodes own ratchets (k := 0) (d := d)
      (n := size.height) hi (by omega) (by omega)
      (fun e he => by simpa using hempty (e + 1) (by omega)) (by simpa using hs)
    obtain ⟨nodes', hderive, hf', hleaf'⟩ := exec_deriveAll own ratchets
      hi hk hf hs
    refine ⟨nodes', ?_, hf', hleaf'⟩
    rw [hnone, if_pos (by rfl)]
    rw [size_ofNodes]
    rw [directPath_eq hi]
    dsimp only
    rw [List.range_eq_range', exec_bind_of_ok hnodes, ← List.range_eq_range', hderive]

variable (own) in
/-- The ratchets of a leaf that is not opened are started from its secret, and the leaf is
opened. -/
theorem exec_initializeSenderRatchets (hi : i < size.leafCount) (hnot : i ∉ opened)
    (hf : Frontier deriveChildSecrets encryptionSecret size.height opened nodes)
    (hratchet : ratchets (i, .handshakeSecret) = none) :
    ∃ nodes', exec (initializeSenderRatchets ⟨i⟩) (ofNodes size own nodes ratchets) =
        (.ok (), ofNodes size own nodes'
          (Function.update
            (Function.update ratchets (i, .handshakeSecret)
              (some (startRatchet own ⟨i⟩
                (ratchetStart encryptionSecret size i .handshakeSecret))))
            (i, .applicationSecret)
            (some (startRatchet own ⟨i⟩
              (ratchetStart encryptionSecret size i .applicationSecret))))) ∧
      Frontier deriveChildSecrets encryptionSecret size.height (insert i opened) nodes' := by
  have hnode := node_lt (m := i) (Nat.zero_le _)
    (by rwa [Nat.sub_zero, ← size.leafCount_eq])
  obtain ⟨nodes', hderive, hf', hleaf⟩ :=
    exec_deriveToLeaf own ratchets hi hnot hf
  have hinside : ¬ (ofNodes size own nodes ratchets).size.leafCount ≤ i := not_le.mpr hi
  refine ⟨_, ?_, hf'.takeLeaf (size.leafCount_eq ▸ hi) hleaf⟩
  rw [initializeSenderRatchets, exec_get_bind, if_neg hinside,
    exec_bind_of_ok (exec_ratchetOpt hi _), exec_bind_of_ok (exec_ratchetOpt hi _), hratchet,
    if_neg (by simp), exec_bind_of_ok hderive, ← new_node_zero,
    exec_bind_of_ok (exec_getNode hnode), hleaf]
  dsimp only
  rw [exec_bind_of_ok (exec_setRatchet hi _ _), exec_bind_of_ok (exec_setRatchet hi _ _),
    exec_setNode hnode]
  rfl

end Frontier

end SecretTree

end Tree

end SafeHub
