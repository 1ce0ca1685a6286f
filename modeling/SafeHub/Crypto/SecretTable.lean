import SafeHub.Crypto.SecretTree

/-!
# The messages a secret tree answers for

The secret tree derives its ratchets when they are first asked for. For its answers this makes no
difference: they are those of a table that has, from the start, a counter for each kind of message
the member sends and a window for each kind of every other member.

## Main definitions

* `SecretRequest`, `SecretTree.run` — a run of requests
* `SecretTable` — the counters and the windows
* `messageKey` — the key of a message, from the encryption secret

## Main results

* `run_eq_table` — the tree gives the keys of the messages that the table grants
-/

namespace SafeHub

open CompleteTree DerivationTree SecretTree

/-- A request for the key of a message. -/
inductive SecretRequest
  | decrypt (index : LeafNodeIndex) (secretType : SecretType) (generation : ℕ)
      (configuration : SenderRatchetConfiguration)
  | encrypt (index : LeafNodeIndex) (secretType : SecretType)
  deriving DecidableEq, Repr

/-- A message of the group in one epoch. -/
structure MessageSlot where
  sender : LeafNodeIndex
  secretType : SecretType
  generation : ℕ
  deriving DecidableEq, Repr

/-- The messages a member can still send or open. -/
structure SecretTable where
  /-- The number of messages sent. -/
  sent : SecretType → ℕ
  windows : ℕ × SecretType → Window
  sent_le : ∀ secretType, sent secretType ≤ maxGeneration

namespace SecretTable

def new : SecretTable := ⟨fun _ => 0, fun _ => .new, fun _ => Nat.zero_le _⟩

/-- Send a message. -/
def send (table : SecretTable) (secretType : SecretType)
    (hmax : table.sent secretType < maxGeneration) : SecretTable where
  sent := Function.update table.sent secretType (table.sent secretType + 1)
  windows := table.windows
  sent_le secretType' := by
    rw [Function.update_apply]
    split_ifs
    · exact hmax
    · exact table.sent_le secretType'

/-- Replace a window. -/
def setWindow (table : SecretTable) (place : ℕ × SecretType) (window : Window) : SecretTable where
  sent := table.sent
  windows := Function.update table.windows place window
  sent_le := table.sent_le

@[simp] theorem sent_send (table : SecretTable) (secretType : SecretType)
    (hmax : table.sent secretType < maxGeneration) : (table.send secretType hmax).sent =
      Function.update table.sent secretType (table.sent secretType + 1) := rfl

@[simp] theorem windows_send (table : SecretTable) (secretType : SecretType)
    (hmax : table.sent secretType < maxGeneration) :
    (table.send secretType hmax).windows = table.windows := rfl

@[simp] theorem sent_setWindow (table : SecretTable) (place : ℕ × SecretType) (window : Window) :
    (table.setWindow place window).sent = table.sent := rfl

@[simp] theorem windows_setWindow (table : SecretTable) (place : ℕ × SecretType)
    (window : Window) : (table.setWindow place window).windows =
      Function.update table.windows place window := rfl

section Requests

variable (size : TreeSize) (own : LeafNodeIndex)

/-- The message a request is granted. -/
def slot (table : SecretTable) : SecretRequest → Option MessageSlot
  | .decrypt index secretType generation configuration =>
    if index.u32 < size.leafCount ∧ index ≠ own ∧
        (table.windows (index.u32, secretType)).Grants configuration generation then
      some ⟨index, secretType, generation⟩
    else none
  | .encrypt index secretType =>
    if index.u32 < size.leafCount ∧ index = own ∧ table.sent secretType < maxGeneration then
      some ⟨index, secretType, table.sent secretType⟩
    else none

/-- The table after a request. -/
def after (table : SecretTable) : SecretRequest → SecretTable
  | .decrypt index secretType generation configuration =>
    if index.u32 < size.leafCount ∧ index ≠ own then
      table.setWindow (index.u32, secretType)
        ((table.windows (index.u32, secretType)).after configuration generation)
    else table
  | .encrypt index secretType =>
    if h : index.u32 < size.leafCount ∧ index = own ∧ table.sent secretType < maxGeneration then
      table.send secretType h.2.2
    else table

/-- The messages that are granted in a run. -/
def granted (table : SecretTable) : List SecretRequest → List (Option MessageSlot)
  | [] => []
  | request :: requests =>
    table.slot size own request :: (table.after size own request).granted requests

/-- The table after a run. -/
def afterAll (table : SecretTable) (requests : List SecretRequest) : SecretTable :=
  requests.foldl (after size own) table

end Requests

end SecretTable

section Tree

variable {S : Type} [TreeKdf S]

/-- The key of a message. -/
def messageKey (encryptionSecret : S) (size : TreeSize) (message : MessageSlot) :
    ℕ × RatchetKeyMaterial S :=
  (message.generation, chainKey
    (ratchetStart encryptionSecret size message.sender.u32 message.secretType) message.generation)

namespace SecretTree

/-- The generation and the key of a request. -/
def answer : SecretRequest → TreeM S (ℕ × RatchetKeyMaterial S)
  | .decrypt index secretType generation configuration => do
    return (generation, ← secretForDecryption index secretType generation configuration)
  | .encrypt index secretType => secretForEncryption index secretType

/-- The answers to requests, and the tree after them. -/
def run : List SecretRequest → SecretTree S →
    List (Except SecretTreeError (ℕ × RatchetKeyMaterial S)) × SecretTree S
  | [], tree => ([], tree)
  | request :: requests, tree =>
    let (result, tree) := exec (answer request) tree
    let (results, tree) := run requests tree
    (result :: results, tree)

end SecretTree

omit [TreeKdf S] in
theorem SecretTree.exec_lift {α : Type} (result : Except SecretTreeError α) (tree : SecretTree S) :
    exec (liftM result : TreeM S α) tree = (result, tree) := by
  cases result <;> rfl

/-! ### The tree of a table -/

section Represents

variable {size : TreeSize} {own index : LeafNodeIndex} {nodes : ℕ → Option S}
variable {encryptionSecret : S} {opened : Finset ℕ} {table : SecretTable}
variable {secretType : SecretType}

namespace SecretTable

/-- The ratchet of a place, if it is started. -/
def senderRatchet (table : SecretTable) (own : LeafNodeIndex) (place : ℕ × SecretType)
    (secret : S) : SenderRatchet S :=
  if place.1 = own.u32 then .encryptionRatchet (headAt secret (table.sent place.2))
  else .decryptionRatchet ((table.windows place).toRatchet secret)

def ratchets (table : SecretTable) (encryptionSecret : S) (size : TreeSize) (own : LeafNodeIndex)
    (opened : Finset ℕ) (place : ℕ × SecretType) : Option (SenderRatchet S) :=
  if place.1 ∈ opened then
    some (table.senderRatchet own place (ratchetStart encryptionSecret size place.1 place.2))
  else none

/-- The tree with the ratchets of the leaves that are opened. -/
def toTree (table : SecretTable) (encryptionSecret : S) (size : TreeSize) (own : LeafNodeIndex)
    (opened : Finset ℕ) (nodes : ℕ → Option S) : SecretTree S :=
  ofNodes size own nodes (table.ratchets encryptionSecret size own opened)

/-- The other leaves are under a frontier of secrets, and of their messages none was granted. -/
structure Represents (encryptionSecret : S) (size : TreeSize) (own : LeafNodeIndex)
    (table : SecretTable) (opened : Finset ℕ) (nodes : ℕ → Option S) : Prop where
  frontier : Frontier deriveChildSecrets encryptionSecret size.height opened nodes
  windows : ∀ place : ℕ × SecretType, place.1 ∉ opened → table.windows place = .new
  sent : own.u32 ∉ opened → ∀ secretType, table.sent secretType = 0

omit [TreeKdf S] in
theorem ofNodes_none (size : TreeSize) (own : LeafNodeIndex) :
    (ofNodes size own (fun _ => none) fun _ => none : SecretTree S) =
      { ownIndex := own
        leafNodes := List.replicate size.leafCount none
        parentNodes := List.replicate size.leafCount none
        handshakeSenderRatchets := List.replicate size.leafCount none
        applicationSenderRatchets := List.replicate size.leafCount none
        size } := by
  rw [ofNodes]
  simp only [List.map_const', List.length_range]

/-- The tree of an epoch is the one of the new table. -/
theorem exists_toTree_new (encryptionSecret : S) (size : TreeSize) (own : LeafNodeIndex) :
    ∃ nodes, SecretTree.new encryptionSecret size own =
        SecretTable.new.toTree encryptionSecret size own ∅ nodes ∧
      Represents encryptionSecret size own .new ∅ nodes := by
  have hroot : root size = .new (node size.height 0) := by
    rw [← u32_root, TreeNodeIndex.new_u32]
  have hnode : node size.height 0 < 2 * size.leafCount := node_lt le_rfl (Nat.two_pow_pos _)
  refine ⟨_, ?_, ⟨Finset.coe_empty ▸ Frontier.initial, fun _ _ => rfl, fun _ _ => rfl⟩⟩
  rw [SecretTree.new, ← ofNodes_none, hroot]
  exact congrArg Prod.snd (exec_setNode hnode _)

/-- Replacing the ratchet of an opened leaf by one of another table. -/
theorem toTree_update {table' : SecretTable} {i : ℕ} (hmem : i ∈ opened)
    (hothers : ∀ (place : ℕ × SecretType) (secret : S), place ≠ (i, secretType) →
      table'.senderRatchet own place secret = table.senderRatchet own place secret) :
    (ofNodes size own nodes (Function.update (table.ratchets encryptionSecret size own opened)
        (i, secretType) (some (table'.senderRatchet own (i, secretType)
          (ratchetStart encryptionSecret size i secretType)))) : SecretTree S) =
      table'.toTree encryptionSecret size own opened nodes := by
  rw [toTree]
  congr 1
  funext place
  rw [Function.update_apply]
  split_ifs with heq
  · rw [heq, ratchets, if_pos hmem]
  · rw [ratchets, ratchets, hothers place _ heq]

section Steps

variable (hrep : Represents encryptionSecret size own table opened nodes)

include hrep

/-- The ratchet of a leaf that is not opened is the one to start with. -/
theorem Represents.senderRatchet_of_notMem {i : ℕ} (hnot : i ∉ opened) (secret : S) :
    table.senderRatchet own (i, secretType) secret = startRatchet own ⟨i⟩ secret := by
  rw [senderRatchet, startRatchet]
  by_cases hown : i = own.u32
  · subst hown
    rw [if_pos rfl, if_pos rfl, hrep.sent hnot]
    rfl
  · rw [if_neg hown, if_neg fun heq => hown (congrArg LeafNodeIndex.u32 heq),
      hrep.windows _ hnot, Window.toRatchet_new]

/-- A ratchet of the tree is there after it was asked for. -/
theorem Represents.exec_ensureStarted (hi : index.u32 < size.leafCount) :
    ∃ opened' nodes', exec (ensureStarted index secretType)
        (table.toTree encryptionSecret size own opened nodes) =
          (.ok (), table.toTree encryptionSecret size own opened' nodes') ∧
      Represents encryptionSecret size own table opened' nodes' ∧ index.u32 ∈ opened' := by
  rw [ensureStarted, toTree, exec_bind_of_ok (exec_ratchetOpt hi _), ratchets]
  by_cases hmem : index.u32 ∈ opened
  · rw [if_pos hmem]
    exact ⟨opened, nodes, rfl, hrep, hmem⟩
  · have hnone : ∀ secretType, table.ratchets encryptionSecret size own opened
        (index.u32, secretType) = none := fun _ => if_neg hmem
    obtain ⟨nodes', hstart, hf⟩ := exec_initializeSenderRatchets own hi hmem
      hrep.frontier (hnone .handshakeSecret)
    refine ⟨insert index.u32 opened, nodes', ?_, ⟨?_, ?_, ?_⟩, Finset.mem_insert_self _ _⟩
    · rw [if_neg hmem, if_pos (by rfl)]
      refine hstart.trans (congrArg (fun r => (_, ofNodes size own nodes' r)) ?_)
      funext ⟨j, secretType'⟩
      rcases eq_or_ne j index.u32 with rfl | hne
      · rw [ratchets, if_pos (Finset.mem_insert_self _ _)]
        cases secretType' <;> simp [hrep.senderRatchet_of_notMem hmem]
      · simp [ratchets, hne]
    · rwa [Finset.coe_insert]
    · exact fun place hplace => hrep.windows place fun h => hplace (Finset.mem_insert_of_mem h)
    · exact fun hown => hrep.sent fun h => hown (Finset.mem_insert_of_mem h)

/-- Moving a window of an opened leaf. -/
theorem Represents.setWindow_of_mem {i : ℕ} (hmem : i ∈ opened) (window : Window) :
    Represents encryptionSecret size own (table.setWindow (i, secretType) window) opened nodes where
  frontier := hrep.frontier
  windows place hplace := by
    have hne : place ≠ (i, secretType) := by
      rintro rfl
      exact hplace hmem
    exact (Function.update_of_ne hne _ _).trans (hrep.windows place hplace)
  sent := hrep.sent

/-- Sending a message from an opened leaf. -/
theorem Represents.send_of_mem (hmem : own.u32 ∈ opened)
    (hmax : table.sent secretType < maxGeneration) :
    Represents encryptionSecret size own (table.send secretType hmax) opened nodes where
  frontier := hrep.frontier
  windows := hrep.windows
  sent hnot := absurd hmem hnot

/-- A request for a message of another member. -/
theorem Represents.exec_secretForDecryption (index : LeafNodeIndex) (secretType : SecretType)
    (generation : ℕ) (configuration : SenderRatchetConfiguration) :
    ∃ opened' nodes',
      Prod.map Except.toOption id
          (exec (secretForDecryption index secretType generation configuration)
            (table.toTree encryptionSecret size own opened nodes)) =
        ((table.slot size own (.decrypt index secretType generation configuration)).map
            fun message => (messageKey encryptionSecret size message).2,
          (table.after size own (.decrypt index secretType generation configuration)).toTree
            encryptionSecret size own opened' nodes') ∧
      Represents encryptionSecret size own
        (table.after size own (.decrypt index secretType generation configuration))
        opened' nodes' := by
  rw [secretForDecryption, exec_get_bind]
  by_cases hi : index.u32 < size.leafCount
  · have hinside : ¬ (table.toTree encryptionSecret size own opened nodes).size.leafCount ≤
        index.u32 := not_le.mpr hi
    -- the leaf's ratchets are there once the tree above has been opened
    obtain ⟨opened', nodes', hstart, hrep', hmem⟩ :=
      hrep.exec_ensureStarted hi
    have hratchet : table.ratchets encryptionSecret size own opened' (index.u32, secretType) =
        some (table.senderRatchet own (index.u32, secretType)
          (ratchetStart encryptionSecret size index.u32 secretType)) := if_pos hmem
    refine ⟨opened', nodes', ?_⟩
    rw [if_neg hinside, exec_bind_of_ok hstart, toTree,
      exec_bind_of_ok (exec_ratchetMut hi hratchet),
      senderRatchet]
    by_cases hown : index = own
    · -- the own ratchets are for sending
      subst hown
      rw [if_pos rfl, slot, after, if_neg (by simp), if_neg (by simp)]
      exact ⟨rfl, hrep'⟩
    · have hne : ¬ (index.u32, secretType).1 = own.u32 := fun heq =>
        hown (by cases index; cases own; cases heq; rfl)
      -- the ratchet of another member answers as its window does, and only this entry changes
      have hwindow : Prod.map _ _ _ = _ := Window.secretForDecryption_toRatchet
        (table.windows (index.u32, secretType))
        (ratchetStart encryptionSecret size index.u32 secretType) configuration generation
      rcases hresult : ((table.windows (index.u32, secretType)).toRatchet
        (ratchetStart encryptionSecret size index.u32 secretType)).secretForDecryption
          configuration generation with ⟨result, ratchet⟩
      rw [hresult] at hwindow
      obtain ⟨hanswer, hafter⟩ := Prod.mk.inj hwindow
      have hratchet' : SenderRatchet.decryptionRatchet ratchet =
          (table.setWindow (index.u32, secretType) ((table.windows (index.u32, secretType)).after
            configuration generation)).senderRatchet own (index.u32, secretType)
              (ratchetStart encryptionSecret size index.u32 secretType) := by
        rw [senderRatchet, if_neg hne, windows_setWindow, Function.update_self]
        exact congrArg _ hafter
      rw [if_neg hne, after, if_pos ⟨hi, hown⟩]
      refine ⟨?_, hrep'.setWindow_of_mem hmem _⟩
      dsimp only
      rw [hresult]
      dsimp only
      rw [exec_bind_of_ok (exec_setRatchet hi _ _), hratchet', toTree_update hmem, exec_lift]
      · refine Prod.ext (hanswer.trans ?_) rfl
        simp only [slot, hi, hown, true_and, not_false_eq_true, ne_eq]
        split_ifs <;> rfl
      · intro place secret hplace
        rw [senderRatchet, senderRatchet, windows_setWindow, sent_setWindow,
          Function.update_of_ne hplace]
  · have houtside : (table.toTree encryptionSecret size own opened nodes).size.leafCount ≤
        index.u32 := not_lt.mp hi
    rw [if_pos houtside, slot, after, if_neg fun h => hi h.1, if_neg fun h => hi h.1]
    exact ⟨opened, nodes, rfl, hrep⟩

/-- A request for a message to send. -/
theorem Represents.exec_secretForEncryption (index : LeafNodeIndex) (secretType : SecretType) :
    ∃ opened' nodes',
      Prod.map Except.toOption id (exec (secretForEncryption index secretType)
          (table.toTree encryptionSecret size own opened nodes)) =
        ((table.slot size own (.encrypt index secretType)).map (messageKey encryptionSecret size),
          (table.after size own (.encrypt index secretType)).toTree encryptionSecret size own
            opened' nodes') ∧
      Represents encryptionSecret size own (table.after size own (.encrypt index secretType))
        opened' nodes' := by
  rw [secretForEncryption]
  by_cases hi : index.u32 < size.leafCount
  · obtain ⟨opened', nodes', hstart, hrep', hmem⟩ :=
      hrep.exec_ensureStarted hi
    have hratchet : table.ratchets encryptionSecret size own opened' (index.u32, secretType) =
        some (table.senderRatchet own (index.u32, secretType)
          (ratchetStart encryptionSecret size index.u32 secretType)) := if_pos hmem
    refine ⟨opened', nodes', ?_⟩
    rw [exec_bind_of_ok hstart, toTree, exec_bind_of_ok (exec_ratchetMut hi hratchet),
      senderRatchet]
    by_cases hown : index = own
    · subst hown
      rw [if_pos rfl]
      -- the own ratchet moves by one generation, until the last one is used up
      by_cases hmax : table.sent secretType < maxGeneration
      · have hratchet' : SenderRatchet.encryptionRatchet (headAt
            (ratchetStart encryptionSecret size index.u32 secretType) (table.sent secretType + 1)) =
            (table.send secretType hmax).senderRatchet index (index.u32, secretType)
              (ratchetStart encryptionSecret size index.u32 secretType) := by
          rw [senderRatchet, if_pos rfl, sent_send, Function.update_self]
        rw [slot, after, if_pos ⟨hi, rfl, hmax⟩, dif_pos ⟨hi, rfl, hmax⟩]
        refine ⟨?_, hrep'.send_of_mem hmem hmax⟩
        dsimp only
        rw [ratchetForward_headAt _ hmax]
        dsimp only
        rw [exec_bind_of_ok (exec_setRatchet hi _ _), hratchet', toTree_update hmem]
        · rfl
        · intro place secret hplace
          rw [senderRatchet, senderRatchet, windows_send, sent_send]
          split_ifs with hleaf
          · rw [Function.update_of_ne fun heq => hplace (Prod.ext hleaf heq)]
          · rfl
      · have hend : table.sent secretType = maxGeneration :=
          (table.sent_le secretType).antisymm (not_lt.mp hmax)
        rw [slot, after, if_neg fun h => hmax h.2.2, dif_neg fun h => hmax h.2.2]
        refine ⟨?_, hrep'⟩
        dsimp only
        rw [ratchetForward_headAt_max _ hend]
        rfl
    · -- the ratchets of others are for receiving
      have hne : ¬ (index.u32, secretType).1 = own.u32 := fun heq =>
        hown (by cases index; cases own; cases heq; rfl)
      rw [if_neg hne, slot, after, if_neg fun h => hown h.2.1, dif_neg fun h => hown h.2.1]
      exact ⟨rfl, hrep'⟩
  · have hensure : exec (ensureStarted index secretType)
        (table.toTree encryptionSecret size own opened nodes) =
          (.error .indexOutOfBounds, table.toTree encryptionSecret size own opened nodes) :=
      exec_bind_of_error (exec_ratchetOpt_of_le (not_lt.mp hi) secretType)
    rw [exec_bind_of_error hensure, slot, after, if_neg fun h => hi h.1, dif_neg fun h => hi h.1]
    exact ⟨opened, nodes, rfl, hrep⟩

/-- A request is answered with the key of the message the table grants. -/
theorem Represents.exec_answer (request : SecretRequest) :
    ∃ opened' nodes',
      Prod.map Except.toOption id (exec (answer request)
          (table.toTree encryptionSecret size own opened nodes)) =
        ((table.slot size own request).map (messageKey encryptionSecret size),
          (table.after size own request).toTree encryptionSecret size own opened' nodes') ∧
      Represents encryptionSecret size own (table.after size own request) opened' nodes' := by
  cases request with
  | encrypt index secretType => exact hrep.exec_secretForEncryption index secretType
  | decrypt index secretType generation configuration =>
    obtain ⟨opened', nodes', hstep, hrep'⟩ :=
      hrep.exec_secretForDecryption index secretType generation configuration
    refine ⟨opened', nodes', ?_, hrep'⟩
    rw [answer, exec_bind]
    rcases hresult : exec (secretForDecryption index secretType generation configuration)
      (table.toTree encryptionSecret size own opened nodes) with ⟨result, tree⟩
    rw [hresult] at hstep
    obtain ⟨hkey, htree⟩ := Prod.mk.inj hstep
    rw [← htree]
    cases hslot : table.slot size own (.decrypt index secretType generation configuration) with
    | none =>
      rw [hslot] at hkey
      cases result with
      | ok key => cases hkey
      | error e => rfl
    | some message =>
      have hgeneration : message.generation = generation := by
        rw [slot, Option.ite_none_right_eq_some] at hslot
        rw [← Option.some.inj hslot.2]
      rw [hslot] at hkey
      cases result with
      | error e => cases hkey
      | ok key =>
        obtain rfl : key = (messageKey encryptionSecret size message).2 := Option.some.inj hkey
        rw [← hgeneration]
        rfl

end Steps

/-- A run from the tree of a table. -/
theorem Represents.run_toTree (hrep : Represents encryptionSecret size own table opened nodes)
    (requests : List SecretRequest) :
    ∃ opened' nodes',
      Prod.map (List.map Except.toOption) id
          (run requests (table.toTree encryptionSecret size own opened nodes)) =
        ((table.granted size own requests).map (Option.map (messageKey encryptionSecret size)),
          (table.afterAll size own requests).toTree encryptionSecret size own opened' nodes') ∧
      Represents encryptionSecret size own (table.afterAll size own requests) opened' nodes' := by
  induction requests generalizing table opened nodes with
  | nil => exact ⟨opened, nodes, rfl, hrep⟩
  | cons request requests ih =>
    obtain ⟨opened', nodes', hstep, hrep'⟩ := hrep.exec_answer request
    obtain ⟨opened'', nodes'', hrest, hrep''⟩ := ih hrep'
    refine ⟨opened'', nodes'', ?_, hrep''⟩
    rcases hresult : exec (answer request)
      (table.toTree encryptionSecret size own opened nodes) with ⟨result, tree⟩
    rw [hresult] at hstep
    obtain ⟨hkey, htree⟩ := Prod.mk.inj hstep
    obtain rfl : tree = _ := htree
    rcases hresults : run requests ((table.after size own request).toTree encryptionSecret size own
      opened' nodes') with ⟨results, tree⟩
    rw [hresults] at hrest
    obtain ⟨hkeys, htree⟩ := Prod.mk.inj hrest
    rw [run, hresult]
    dsimp only
    rw [hresults, granted, List.map_cons, ← hkey, ← hkeys]
    exact Prod.ext rfl htree

end SecretTable

end Represents

/-- In every run the tree gives the keys of the messages that the table grants, although it derives
nothing before it is asked for. -/
theorem run_eq_table (encryptionSecret : S) (size : TreeSize) (own : LeafNodeIndex)
    (requests : List SecretRequest) :
    (run requests (SecretTree.new encryptionSecret size own)).1.map Except.toOption =
      (SecretTable.new.granted size own requests).map
        (Option.map (messageKey encryptionSecret size)) := by
  obtain ⟨nodes, htree, hrep⟩ := SecretTable.exists_toTree_new encryptionSecret size own
  obtain ⟨_, _, hrun, -⟩ := hrep.run_toTree requests
  rw [htree]
  exact congrArg Prod.fst hrun

end Tree

end SafeHub
