import SafeHub.Crypto.SecretTable

/-!
# Forward secrecy of the messages of an epoch

The key derivation is taken as ideal: a secret is known by the way it is derived, and tells nothing
about those it is derived from. Who gets hold of a secret tree can then derive the keys of messages
that were not asked for yet, but none that was handed out.

## Main definitions

* `DerivedSecret` — secrets by their derivation
* `Derivable` — what follows from some secrets
* `SecretTree.secrets` — the secrets a tree holds

## Main results

* `handedOutSecrets_nodup` — no key and no nonce is handed out twice
* `forward_secret` — nothing that was handed out follows from what is left in the tree
-/

namespace SafeHub

open CompleteTree DerivationTree SecretTree

/-! ### What a table has granted -/

namespace SecretTable

variable {size : TreeSize} {own : LeafNodeIndex} {table : SecretTable} {message : MessageSlot}

/-- The message was granted before. -/
def Used (own : LeafNodeIndex) (table : SecretTable) (message : MessageSlot) : Prop :=
  if message.sender = own then message.generation < table.sent message.secretType
  else message.generation ∈ (table.windows (message.sender.u32, message.secretType)).used

theorem used_own (secretType : SecretType) (generation : ℕ) :
    table.Used own ⟨own, secretType, generation⟩ ↔ generation < table.sent secretType := by
  rw [Used, if_pos rfl]

theorem used_other {sender : LeafNodeIndex} (hne : sender ≠ own) (secretType : SecretType)
    (generation : ℕ) : table.Used own ⟨sender, secretType, generation⟩ ↔
      generation ∈ (table.windows (sender.u32, secretType)).used := by
  rw [Used, if_neg hne]

/-- Sending adds the message that is sent. -/
theorem used_send_iff {secretType : SecretType} (hmax : table.sent secretType < maxGeneration) :
    (table.send secretType hmax).Used own message ↔
      table.Used own message ∨ ⟨own, secretType, table.sent secretType⟩ = message := by
  obtain ⟨sender, secretType', generation⟩ := message
  by_cases hown : sender = own
  · subst hown
    rw [used_own, used_own, sent_send, Function.update_apply]
    split_ifs with htype
    · subst htype
      rw [Nat.lt_succ_iff_lt_or_eq]
      simp [eq_comm]
    · simp [Ne.symm htype]
  · rw [used_other hown, used_other hown, windows_send]
    simp [Ne.symm hown]

/-- Opening adds the message that is opened. -/
theorem used_setWindow_iff {index : LeafNodeIndex} (hne : index ≠ own) (secretType : SecretType)
    (generation : ℕ) (configuration : SenderRatchetConfiguration) :
    (table.setWindow (index.u32, secretType) ((table.windows (index.u32, secretType)).after
        configuration generation)).Used own message ↔ table.Used own message ∨
      (table.windows (index.u32, secretType)).Grants configuration generation ∧
        ⟨index, secretType, generation⟩ = message := by
  obtain ⟨sender, secretType', generation'⟩ := message
  by_cases hown : sender = own
  · subst hown
    rw [used_own, used_own, sent_setWindow]
    simp [hne]
  · rw [used_other hown, used_other hown, windows_setWindow, Function.update_apply]
    split_ifs with hplace
    · obtain ⟨hindex, rfl⟩ := Prod.mk.inj hplace
      obtain rfl : sender = index := by
        cases sender
        cases index
        cases hindex
        rfl
      rw [Window.used_after]
      split_ifs with hgrants
      · rw [Finset.mem_insert, or_comm]
        simp [hgrants, eq_comm]
      · simp [hgrants]
    · have hmessage : MessageSlot.mk index secretType generation ≠
          ⟨sender, secretType', generation'⟩ := by
        rintro ⟨⟩
        exact hplace rfl
      simp [hmessage]

/-- A request adds the message it is granted. -/
theorem used_after_iff (request : SecretRequest) :
    (table.after size own request).Used own message ↔
      table.Used own message ∨ table.slot size own request = some message := by
  cases request with
  | encrypt index secretType =>
    rw [after, slot]
    split_ifs with h
    · obtain ⟨-, rfl, hmax⟩ := h
      rw [used_send_iff, Option.some_inj]
    · simp
  | decrypt index secretType generation configuration =>
    rw [after, slot]
    by_cases h : index.u32 < size.leafCount ∧ index ≠ own
    · rw [if_pos h, used_setWindow_iff h.2, Option.ite_none_right_eq_some, Option.some_inj,
        ← and_assoc, and_iff_right h]
    · rw [if_neg h, if_neg fun h' => h ⟨h'.1, h'.2.1⟩]
      simp

/-- What is granted was not granted before. -/
theorem not_used_of_slot {request : SecretRequest}
    (hslot : table.slot size own request = some message) :
    ¬ table.Used own message ∧ message.sender.u32 < size.leafCount := by
  cases request with
  | encrypt index secretType =>
    rw [slot, Option.ite_none_right_eq_some] at hslot
    obtain ⟨⟨hi, rfl, -⟩, hmessage⟩ := hslot
    obtain rfl := Option.some.inj hmessage
    rw [used_own]
    exact ⟨lt_irrefl _, hi⟩
  | decrypt index secretType generation configuration =>
    rw [slot, Option.ite_none_right_eq_some] at hslot
    obtain ⟨⟨hi, hne, hgrants⟩, hmessage⟩ := hslot
    obtain rfl := Option.some.inj hmessage
    rw [used_other hne]
    exact ⟨hgrants.not_mem_used, hi⟩

theorem used_afterAll (requests : List SecretRequest) (hused : table.Used own message) :
    (table.afterAll size own requests).Used own message := by
  induction requests generalizing table with
  | nil => exact hused
  | cons request requests ih => exact ih ((used_after_iff request).mpr (.inl hused))

/-- What is granted in a run is granted once, was not before, and is used after the run. -/
theorem granted_used (requests : List SecretRequest) :
    (table.granted size own requests).reduceOption.Nodup ∧
      ∀ message ∈ (table.granted size own requests).reduceOption,
        ¬ table.Used own message ∧ message.sender.u32 < size.leafCount ∧
          (table.afterAll size own requests).Used own message := by
  induction requests generalizing table with
  | nil => exact ⟨List.nodup_nil, by simp [granted]⟩
  | cons request requests ih =>
    obtain ⟨hnodup, hlater⟩ := ih
    have hlater' : ∀ message ∈
        ((table.after size own request).granted size own requests).reduceOption,
        ¬ table.Used own message ∧ message.sender.u32 < size.leafCount ∧
          (table.afterAll size own (request :: requests)).Used own message := by
      intro message hmem
      obtain ⟨hunused, hrest⟩ := hlater message hmem
      exact ⟨fun h => hunused ((used_after_iff request).mpr (.inl h)), hrest⟩
    rw [granted]
    cases hslot : table.slot size own request with
    | none =>
      rw [List.reduceOption_cons_of_none]
      exact ⟨hnodup, hlater'⟩
    | some message =>
      have hused : (table.after size own request).Used own message :=
        (used_after_iff request).mpr (.inr hslot)
      rw [List.reduceOption_cons_of_some]
      refine ⟨List.nodup_cons.mpr ⟨fun hmem => (hlater message hmem).1 hused, hnodup⟩, ?_⟩
      rintro m hm
      rcases List.mem_cons.mp hm with rfl | hm
      · obtain ⟨hunused, hi⟩ := not_used_of_slot hslot
        exact ⟨hunused, hi, used_afterAll requests hused⟩
      · exact hlater' m hm

end SecretTable

/-! ### Ideal derivation -/

/-- Secrets by their derivation, for a ciphersuite with some lengths. -/
inductive DerivedSecret (aeadNonceLength aeadKeyLength hashLength : ℕ)
  | encryptionSecret
  | expandLabel (secret : DerivedSecret aeadNonceLength aeadKeyLength hashLength) (label : String)
      (context : Bytes) (length : ℕ)
  deriving DecidableEq

instance (aeadNonceLength aeadKeyLength hashLength : ℕ) :
    TreeKdf (DerivedSecret aeadNonceLength aeadKeyLength hashLength) where
  expandLabel := .expandLabel
  aeadNonceLength := aeadNonceLength
  aeadKeyLength := aeadKeyLength
  hashLength := hashLength

/-- What follows from some secrets. -/
inductive Derivable {S : Type*} [TreeKdf S] (known : Set S) : S → Prop
  | known {s : S} (h : s ∈ known) : Derivable known s
  | expandLabel {s : S} (h : Derivable known s) (label : String) (context : Bytes) (length : ℕ) :
    Derivable known (TreeKdf.expandLabel s label context length)

namespace DerivedSecret

variable {n k h : ℕ} {s : DerivedSecret n k h} {known : Set (DerivedSecret n k h)}

/-- The label of the last step. -/
def label : DerivedSecret n k h → Option String
  | .encryptionSecret => none
  | .expandLabel _ label _ _ => some label

theorem derivable_expandLabel_iff {label : String} {context : Bytes} {length : ℕ} :
    Derivable known (TreeKdf.expandLabel s label context length) ↔
      TreeKdf.expandLabel s label context length ∈ known ∨ Derivable known s := by
  constructor
  · generalize hd : TreeKdf.expandLabel s label context length = d
    intro h
    cases h with
    | known hmem => exact .inl hmem
    | expandLabel h label context length =>
      cases hd
      exact .inr h
  · rintro (hmem | h)
    · exact .known hmem
    · exact h.expandLabel _ _ _

theorem derivable_encryptionSecret_iff :
    Derivable known (.encryptionSecret : DerivedSecret n k h) ↔ .encryptionSecret ∈ known := by
  constructor
  · generalize hd : (.encryptionSecret : DerivedSecret n k h) = d
    intro h
    cases h with
    | known hmem => exact hmem
    | expandLabel => cases hd
  · exact .known

variable {size : TreeSize}

theorem expandLabel_inj {s' : DerivedSecret n k h} {label label' : String}
    {context context' : Bytes} {length length' : ℕ}
    (heq : TreeKdf.expandLabel s label context length =
      TreeKdf.expandLabel s' label' context' length') : s = s' ∧ label = label' ∧
        context = context' := by
  cases heq
  exact ⟨rfl, rfl, rfl⟩

/-- The secret of a node. -/
abbrev nodeAt (n k h depth place : ℕ) : DerivedSecret n k h :=
  nodeSecret deriveChildSecrets .encryptionSecret depth place

/-- The secret a ratchet starts from. -/
abbrev startAt (n k h : ℕ) (size : TreeSize) (i : ℕ) (secretType : SecretType) :
    DerivedSecret n k h :=
  ratchetStart .encryptionSecret size i secretType

/-- The step from a node to its child. -/
theorem nodeAt_succ (depth place : ℕ) : nodeAt n k h (depth + 1) place =
    TreeKdf.expandLabel (nodeAt n k h depth (place / 2)) "tree"
      (if place % 2 = 0 then strBytes "left" else strBytes "right") h := by
  rw [nodeAt, nodeSecret]
  split_ifs <;> rfl

theorem nodeAt_inj {depth place depth' place' : ℕ}
    (heq : nodeAt n k h depth place = nodeAt n k h depth' place')
    (hplace : place < 2 ^ depth) (hplace' : place' < 2 ^ depth') :
    depth = depth' ∧ place = place' := by
  induction depth generalizing place depth' place' with
  | zero =>
    cases depth' with
    | zero => exact ⟨rfl, by omega⟩
    | succ depth' =>
      rw [nodeAt_succ] at heq
      cases heq
  | succ depth ih =>
    cases depth' with
    | zero =>
      rw [nodeAt_succ] at heq
      cases heq
    | succ depth' =>
      rw [nodeAt_succ, nodeAt_succ] at heq
      obtain ⟨hparent, -, hside⟩ := expandLabel_inj heq
      rw [pow_succ] at hplace hplace'
      obtain ⟨rfl, hhalf⟩ := ih hparent (by omega) (by omega)
      have hparity : place % 2 = 0 ↔ place' % 2 = 0 := by
        have hne : strBytes "left" ≠ strBytes "right" := strBytes_injective.ne (by decide)
        split_ifs at hside <;> simp_all
      exact ⟨rfl, by omega⟩

theorem startAt_inj {i i' : ℕ} {secretType secretType' : SecretType}
    (heq : startAt n k h size i secretType = startAt n k h size i' secretType')
    (hi : i < size.leafCount) (hi' : i' < size.leafCount) : i = i' ∧ secretType = secretType' := by
  rw [size.leafCount_eq] at hi hi'
  have hnode : nodeAt n k h size.height i = nodeAt n k h size.height i' := by
    cases secretType <;> cases secretType' <;> exact (expandLabel_inj heq).1
  refine ⟨(nodeAt_inj hnode hi hi').2, ?_⟩
  cases secretType <;> cases secretType' <;>
    first | rfl | exact absurd (expandLabel_inj heq).2.1 (by decide)

/-! Nodes, ratchets and keys are told apart by the label of their last step. -/

theorem label_nodeAt (depth place : ℕ) :
    (nodeAt n k h depth place).label = none ∨ (nodeAt n k h depth place).label = some "tree" := by
  cases depth with
  | zero => exact .inl rfl
  | succ depth =>
    rw [nodeAt_succ]
    exact .inr rfl

variable (size) in
theorem label_startAt (i : ℕ) (secretType : SecretType) :
    (startAt n k h size i secretType).label = some "handshake" ∨
      (startAt n k h size i secretType).label = some "application" := by
  cases secretType
  · exact .inl rfl
  · exact .inr rfl

theorem label_chainSecret_succ (s : DerivedSecret n k h) (generation : ℕ) :
    (chainSecret s (generation + 1)).label = some "secret" := rfl

variable (size) in
theorem label_chainSecret (i : ℕ) (secretType : SecretType) (generation : ℕ) :
    (chainSecret (startAt n k h size i secretType) generation).label ∈
      [some "handshake", some "application", some "secret"] := by
  cases generation with
  | zero =>
    rcases label_startAt (n := n) (k := k) (h := h) size i secretType with hl | hl <;>
      simp [chainSecret, hl]
  | succ generation => simp [label_chainSecret_succ]

theorem label_key (s : DerivedSecret n k h) (generation : ℕ) :
    (chainKey s generation).key.label = some "key" := rfl

theorem label_nonce (s : DerivedSecret n k h) (generation : ℕ) :
    (chainKey s generation).nonce.label = some "nonce" := rfl

theorem chainSecret_inj {i i' : ℕ} {secretType secretType' : SecretType}
    {generation generation' : ℕ}
    (heq : chainSecret (startAt n k h size i secretType) generation =
      chainSecret (startAt n k h size i' secretType') generation')
    (hi : i < size.leafCount) (hi' : i' < size.leafCount) :
    i = i' ∧ secretType = secretType' ∧ generation = generation' := by
  induction generation generalizing generation' with
  | zero =>
    cases generation' with
    | zero =>
      obtain ⟨hleaf, htype⟩ := startAt_inj heq hi hi'
      exact ⟨hleaf, htype, rfl⟩
    | succ generation' =>
      have hlabel := congrArg label heq
      rw [label_chainSecret_succ, chainSecret] at hlabel
      rcases label_startAt (n := n) (k := k) (h := h) size i secretType with hl | hl <;>
        simp [hl] at hlabel
  | succ generation ih =>
    cases generation' with
    | zero =>
      have hlabel := congrArg label heq
      rw [label_chainSecret_succ, chainSecret] at hlabel
      rcases label_startAt (n := n) (k := k) (h := h) size i' secretType' with hl | hl <;>
        simp [hl] at hlabel
    | succ generation' =>
      obtain ⟨hleaf, htype, hgeneration⟩ := ih (expandLabel_inj heq).1
      exact ⟨hleaf, htype, congrArg Nat.succ hgeneration⟩

/-- A key and a nonce belong to one generation of one chain. -/
theorem chainSecret_eq_of_chainKey {start start' : DerivedSecret n k h} {generation generation' : ℕ}
    (hs : s = (chainKey start generation).key ∨ s = (chainKey start generation).nonce)
    (hs' : s = (chainKey start' generation').key ∨ s = (chainKey start' generation').nonce) :
    chainSecret start generation = chainSecret start' generation' := by
  rcases hs with rfl | rfl <;> rcases hs' with heq | heq
  · exact (expandLabel_inj heq).1
  · exact absurd (expandLabel_inj heq).2.1 (by decide)
  · exact absurd (expandLabel_inj heq).2.1 (by decide)
  · exact (expandLabel_inj heq).1

end DerivedSecret

/-! ### What a tree holds -/

section Secrets

variable {S : Type}

def SenderRatchet.secrets : SenderRatchet S → List S
  | .encryptionRatchet ratchet => [ratchet.secret]
  | .decryptionRatchet ratchet =>
    ratchet.ratchetHead.secret ::
      ratchet.pastSecrets.reduceOption.flatMap fun material => [material.key, material.nonce]

/-- The secrets a tree holds. -/
def SecretTree.secrets (tree : SecretTree S) : List S :=
  tree.leafNodes.reduceOption ++ tree.parentNodes.reduceOption ++
    (tree.handshakeSenderRatchets ++ tree.applicationSenderRatchets).reduceOption.flatMap
      SenderRatchet.secrets

/-- The keys and nonces of some answers. -/
def handedOutSecrets (answers : List (Except SecretTreeError (ℕ × RatchetKeyMaterial S))) :
    List S :=
  (answers.map Except.toOption).reduceOption.flatMap fun answer => [answer.2.key, answer.2.nonce]

variable [TreeKdf S] {size : TreeSize} {own : LeafNodeIndex} {nodes : ℕ → Option S}
variable {encryptionSecret s : S} {opened : Finset ℕ} {table : SecretTable}

/-- A node secret or a secret of a ratchet that is started. -/
theorem SecretTable.Represents.mem_secrets
    (hrep : SecretTable.Represents encryptionSecret size own table opened nodes)
    (hs : s ∈ (table.toTree encryptionSecret size own opened nodes).secrets) :
    (∃ k m, k ≤ size.height ∧ m < 2 ^ (size.height - k) ∧ nodes (node k m) = some s) ∨
      ∃ i secretType, i < size.leafCount ∧ i ∈ opened ∧
        s ∈ (table.senderRatchet own (i, secretType)
          (ratchetStart encryptionSecret size i secretType)).secrets := by
  have hcount := size.leafCount_eq
  rw [secrets, SecretTable.toTree, ofNodes] at hs
  simp only [List.mem_append, List.reduceOption_mem_iff, List.mem_map, List.mem_range,
    List.mem_flatMap] at hs
  -- a secret lies in a leaf node, in a parent node or in a ratchet
  rcases hs with (⟨i, hi, hnode⟩ | ⟨p, hp, hnode⟩) | ⟨ratchet, hratchet, hs⟩
  · rw [← node_zero] at hnode
    exact .inl ⟨0, i, Nat.zero_le _, by rwa [Nat.sub_zero, ← hcount], hnode⟩
  · -- the last place in the list of parents is above the root
    obtain ⟨k, m, hkm⟩ := exists_node (2 * p + 1)
    have hk : k ≤ size.height := by
      by_contra hk
      rw [← hkm, hrep.frontier.above k (not_le.mp hk)] at hnode
      exact Option.some_ne_none s hnode.symm
    have hlast : 2 * p + 1 ≠ 2 ^ (size.height + 1) - 1 := by
      intro hlast
      have htop : node (size.height + 1) 0 = 2 * p + 1 := by
        rw [node, zero_mul, zero_add, hlast]
      rw [← htop, hrep.frontier.above _ (Nat.lt_succ_self _)] at hnode
      exact Option.some_ne_none s hnode.symm
    refine .inl ⟨k, m, hk, (node_lt_iff hk).mp ?_, hkm ▸ hnode⟩
    rw [pow_succ] at hlast ⊢
    omega
  · have hplace : ∃ i secretType, i < size.leafCount ∧
        table.ratchets encryptionSecret size own opened (i, secretType) = some ratchet := by
      rcases hratchet with ⟨i, hi, hratchet⟩ | ⟨i, hi, hratchet⟩
      · exact ⟨i, _, hi, hratchet⟩
      · exact ⟨i, _, hi, hratchet⟩
    obtain ⟨i, secretType, hi, hratchet⟩ := hplace
    rw [SecretTable.ratchets, Option.ite_none_right_eq_some] at hratchet
    exact .inr ⟨i, secretType, hi, hratchet.1, Option.some.inj hratchet.2 ▸ hs⟩

/-- The secret of a ratchet is ahead of what was used, and its keys were not used. -/
theorem SecretTable.mem_secrets_senderRatchet {i : ℕ} {secretType : SecretType} {start : S}
    (hs : s ∈ (table.senderRatchet own (i, secretType) start).secrets) :
    (∃ generation, s = chainSecret start generation ∧
        ∀ generation', table.Used own ⟨⟨i⟩, secretType, generation'⟩ → generation' < generation) ∨
      ∃ generation, ¬ table.Used own ⟨⟨i⟩, secretType, generation⟩ ∧
        (s = (chainKey start generation).key ∨ s = (chainKey start generation).nonce) := by
  rw [senderRatchet] at hs
  by_cases hown : i = own.u32
  · subst hown
    rw [if_pos rfl, SenderRatchet.secrets, List.mem_singleton] at hs
    exact .inl ⟨_, hs, fun generation' hused => (used_own secretType generation').mp hused⟩
  · have hne : LeafNodeIndex.mk i ≠ own := fun heq => hown (congrArg LeafNodeIndex.u32 heq)
    rw [if_neg hown, SenderRatchet.secrets, List.mem_cons, List.mem_flatMap] at hs
    rcases hs with hhead | ⟨material, hpast, hs⟩
    · refine .inl ⟨_, hhead, fun generation' hused => ?_⟩
      exact Window.used_lt _ _ ((used_other hne secretType generation').mp hused)
    · rw [List.reduceOption_mem_iff, Window.toRatchet, List.mem_map] at hpast
      obtain ⟨d, -, hentry⟩ := hpast
      rw [Window.entry, Option.ite_none_left_eq_some] at hentry
      obtain ⟨hunused, hmaterial⟩ := hentry
      obtain rfl := Option.some.inj hmaterial
      refine .inr ⟨_, fun hused => hunused ((used_other hne secretType _).mp hused), ?_⟩
      simpa using hs

end Secrets

/-! ### Secrecy of what was used -/

section Secrecy

open DerivedSecret SecretTable

variable {n k h : ℕ} {size : TreeSize} {own : LeafNodeIndex} {table : SecretTable}
variable {opened : Finset ℕ} {nodes : ℕ → Option (DerivedSecret n k h)} {message : MessageSlot}

/-- A leaf of which a message was used is opened. -/
theorem SecretTable.Represents.mem_opened
    (hrep : Represents DerivedSecret.encryptionSecret size own table opened nodes)
    (hused : table.Used own message) : message.sender.u32 ∈ opened := by
  by_contra hnot
  rw [Used] at hused
  split_ifs at hused with hown
  · rw [hrep.sent (hown ▸ hnot)] at hused
    exact Nat.not_lt_zero _ hused
  · rw [hrep.windows _ hnot] at hused
    exact Finset.notMem_empty _ hused

variable (hrep : Represents DerivedSecret.encryptionSecret size own table opened nodes)
variable (hused : table.Used own message) (hi : message.sender.u32 < size.leafCount)

include hrep hused hi

/-- A secret that is left is none on the way to the leaf. -/
theorem nodeAt_notMem {depth : ℕ} (hdepth : depth ≤ size.height) :
    nodeAt n k h depth (message.sender.u32 / 2 ^ (size.height - depth)) ∉
      (table.toTree DerivedSecret.encryptionSecret size own opened nodes).secrets := by
  intro hmem
  have hlabel := label_nodeAt (n := n) (k := k) (h := h) depth
    (message.sender.u32 / 2 ^ (size.height - depth))
  rcases hrep.mem_secrets hmem with ⟨level, m, hlevel, hm, hnode⟩ | ⟨i, secretType, -, -, hratchet⟩
  · have hplace := div_lt hi (Nat.sub_le size.height depth)
    rw [Nat.sub_sub_self hdepth] at hplace
    obtain ⟨hsame, rfl⟩ := nodeAt_inj (hrep.frontier.eq_nodeSecret level m _ hlevel hnode) hplace hm
    obtain rfl : level = size.height - depth := by omega
    rw [hrep.frontier.blank _ (size.leafCount_eq ▸ hi) (hrep.mem_opened hused) _ hlevel] at hnode
    exact Option.some_ne_none _ hnode.symm
  · rcases mem_secrets_senderRatchet hratchet with ⟨generation, heq, -⟩ | ⟨generation, -, heq | heq⟩
    · have hchain := label_chainSecret (n := n) (k := k) (h := h) size i secretType
        generation
      rw [← heq] at hchain
      rcases hlabel with hl | hl <;> simp [hl] at hchain
    · rw [heq, label_key] at hlabel
      simp at hlabel
    · rw [heq, label_nonce] at hlabel
      simp at hlabel

/-- It is no secret of the chain up to the message. -/
theorem chainSecret_notMem {generation : ℕ} (hgeneration : generation ≤ message.generation) :
    chainSecret (startAt n k h size message.sender.u32 message.secretType) generation ∉
      (table.toTree DerivedSecret.encryptionSecret size own opened nodes).secrets := by
  intro hmem
  have hchain := label_chainSecret (n := n) (k := k) (h := h) size message.sender.u32
    message.secretType generation
  rcases hrep.mem_secrets hmem with
    ⟨level, m, hlevel, hm, hnode⟩ | ⟨i, secretType, hi', -, hratchet⟩
  · rw [hrep.frontier.eq_nodeSecret level m _ hlevel hnode] at hchain
    rcases label_nodeAt (n := n) (k := k) (h := h) (size.height - level) m with hl | hl <;>
      simp [hl] at hchain
  · rcases mem_secrets_senderRatchet hratchet with ⟨head, heq, hahead⟩ | ⟨g, -, heq | heq⟩
    · obtain ⟨rfl, rfl, rfl⟩ := chainSecret_inj heq hi hi'
      exact absurd (hahead message.generation hused) (not_lt.mpr hgeneration)
    · rw [heq, label_key] at hchain
      simp at hchain
    · rw [heq, label_nonce] at hchain
      simp at hchain

/-- It is not the key of the message and not the nonce. -/
theorem chainKey_notMem {s : DerivedSecret n k h}
    (hs : s = (chainKey (startAt n k h size message.sender.u32 message.secretType)
        message.generation).key ∨
      s = (chainKey (startAt n k h size message.sender.u32 message.secretType)
        message.generation).nonce) :
    s ∉ (table.toTree DerivedSecret.encryptionSecret size own opened nodes).secrets := by
  intro hmem
  have hlabel : s.label = some "key" ∨ s.label = some "nonce" := by
    rcases hs with rfl | rfl
    · exact .inl (label_key _ _)
    · exact .inr (label_nonce _ _)
  rcases hrep.mem_secrets hmem with
    ⟨level, m, hlevel, hm, hnode⟩ | ⟨i, secretType, hi', -, hratchet⟩
  · rw [hrep.frontier.eq_nodeSecret level m _ hlevel hnode] at hlabel
    rcases label_nodeAt (n := n) (k := k) (h := h) (size.height - level) m with hl | hl <;>
      simp [hl] at hlabel
  · rcases mem_secrets_senderRatchet hratchet with ⟨head, heq, -⟩ | ⟨generation, hunused, hs'⟩
    · have hchain := label_chainSecret (n := n) (k := k) (h := h) size i secretType head
      rw [← heq] at hchain
      rcases hlabel with hl | hl <;> simp [hl] at hchain
    · obtain ⟨hleaf, rfl, rfl⟩ := chainSecret_inj (chainSecret_eq_of_chainKey hs hs') hi hi'
      exact hunused (hleaf ▸ hused)

theorem not_derivable_nodeAt {depth : ℕ} (hdepth : depth ≤ size.height) :
    ¬ Derivable {s | s ∈ (table.toTree .encryptionSecret size own opened nodes).secrets}
      (nodeAt n k h depth (message.sender.u32 / 2 ^ (size.height - depth))) := by
  induction depth with
  | zero =>
    have hnot := nodeAt_notMem hrep hused hi hdepth
    rwa [nodeAt, nodeSecret, derivable_encryptionSecret_iff]
  | succ depth ih =>
    have hnot := nodeAt_notMem hrep hused hi hdepth
    rw [nodeAt_succ] at hnot ⊢
    rw [derivable_expandLabel_iff]
    rintro (hmem | hparent)
    · exact hnot hmem
    · rw [← div_two_pow_succ, show size.height - (depth + 1) + 1 = size.height - depth by omega]
        at hparent
      exact ih (Nat.le_of_succ_le hdepth) hparent

theorem not_derivable_chainSecret {generation : ℕ} (hgeneration : generation ≤ message.generation) :
    ¬ Derivable {s | s ∈ (table.toTree .encryptionSecret size own opened nodes).secrets}
      (chainSecret (startAt n k h size message.sender.u32 message.secretType) generation) := by
  induction generation with
  | zero =>
    have hnot := chainSecret_notMem hrep hused hi hgeneration
    have hleaf := not_derivable_nodeAt hrep hused hi le_rfl
    rw [Nat.sub_self, pow_zero, Nat.div_one] at hleaf
    rw [chainSecret] at hnot ⊢
    cases hkind : message.secretType <;> rw [hkind] at hnot <;>
      exact fun hd => (derivable_expandLabel_iff.mp hd).elim hnot hleaf
  | succ generation ih =>
    have hnot := chainSecret_notMem hrep hused hi hgeneration
    exact fun hd => (derivable_expandLabel_iff.mp hd).elim hnot (ih (Nat.le_of_succ_le hgeneration))

theorem not_derivable_chainKey {s : DerivedSecret n k h}
    (hs : s = (chainKey (startAt n k h size message.sender.u32 message.secretType)
        message.generation).key ∨
      s = (chainKey (startAt n k h size message.sender.u32 message.secretType)
        message.generation).nonce) :
    ¬ Derivable {s | s ∈ (table.toTree .encryptionSecret size own opened nodes).secrets} s := by
  have hnot := chainKey_notMem hrep hused hi hs
  have hchain := not_derivable_chainSecret hrep hused hi le_rfl
  rcases hs with rfl | rfl <;>
    exact fun hd => (derivable_expandLabel_iff.mp hd).elim hnot hchain

end Secrecy

section Runs

open DerivedSecret

variable (n k h : ℕ) (size : TreeSize) (own : LeafNodeIndex) (requests : List SecretRequest)

theorem handedOutSecrets_eq_granted {S : Type} [TreeKdf S] (encryptionSecret : S) :
    handedOutSecrets (run requests (SecretTree.new encryptionSecret size own)).1 =
      (SecretTable.new.granted size own requests).reduceOption.flatMap fun message =>
        [(messageKey encryptionSecret size message).2.key,
          (messageKey encryptionSecret size message).2.nonce] := by
  obtain ⟨nodes, htree, hrep⟩ := SecretTable.exists_toTree_new encryptionSecret size own
  obtain ⟨_, _, hrun, -⟩ := hrep.run_toTree requests
  have hanswers : (run requests (SecretTree.new encryptionSecret size own)).1.map Except.toOption =
      (SecretTable.new.granted size own requests).map
        (Option.map (messageKey encryptionSecret size)) := htree ▸ congrArg Prod.fst hrun
  rw [handedOutSecrets, hanswers, List.reduceOption_map, List.flatMap_map]

/-- No key and no nonce is handed out twice. -/
theorem handedOutSecrets_nodup : (handedOutSecrets (run requests
    (SecretTree.new (.encryptionSecret : DerivedSecret n k h) size own)).1).Nodup := by
  obtain ⟨hnodup, hgranted⟩ := SecretTable.new.granted_used requests
  rw [handedOutSecrets_eq_granted, List.nodup_flatMap]
  refine ⟨fun message _ => ?_, hnodup.imp_of_mem ?_⟩
  · have hne : (messageKey (.encryptionSecret : DerivedSecret n k h) size message).2.key ≠
        (messageKey (.encryptionSecret : DerivedSecret n k h) size message).2.nonce :=
      fun heq => absurd (expandLabel_inj heq).2.1 (by decide)
    simpa using hne
  · intro message message' hmem hmem' hne
    refine List.disjoint_left.mpr fun s hs hs' => ?_
    obtain ⟨-, hi, -⟩ := hgranted message hmem
    obtain ⟨-, hi', -⟩ := hgranted message' hmem'
    obtain ⟨hsender, htype, hgeneration⟩ := chainSecret_inj
      (chainSecret_eq_of_chainKey (List.mem_pair.mp hs) (List.mem_pair.mp hs')) hi hi'
    obtain ⟨⟨i⟩, secretType, generation⟩ := message
    obtain ⟨⟨i'⟩, secretType', generation'⟩ := message'
    subst hsender htype hgeneration
    exact hne rfl

/-- Nothing that was handed out follows from what is left in the tree. -/
theorem forward_secret :
    {s | s ∈ handedOutSecrets (run requests
      (SecretTree.new (.encryptionSecret : DerivedSecret n k h) size own)).1} ∩
    {s | Derivable {left | left ∈ (run requests
      (SecretTree.new (.encryptionSecret : DerivedSecret n k h) size own)).2.secrets} s} = ∅ := by
  obtain ⟨nodes, htree, hrep⟩ := SecretTable.exists_toTree_new
    (.encryptionSecret : DerivedSecret n k h) size own
  obtain ⟨opened', nodes', hrun, hrep'⟩ := hrep.run_toTree requests
  obtain ⟨-, hgranted⟩ := SecretTable.new.granted_used requests
  have hleft :
      (run requests (SecretTree.new (.encryptionSecret : DerivedSecret n k h) size own)).2 =
      (SecretTable.new.afterAll size own requests).toTree
        .encryptionSecret size own opened' nodes' :=
    htree ▸ congrArg Prod.snd hrun
  rw [handedOutSecrets_eq_granted, hleft]
  refine Set.eq_empty_iff_forall_notMem.mpr fun s hs => ?_
  obtain ⟨message, hmem, hkey⟩ := List.mem_flatMap.mp hs.1
  obtain ⟨-, hi, hused⟩ := hgranted message hmem
  exact not_derivable_chainKey hrep' hused hi (List.mem_pair.mp hkey) hs.2

end Runs

end SafeHub
