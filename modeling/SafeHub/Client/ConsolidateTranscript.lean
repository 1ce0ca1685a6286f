import SafeHub.Client.Consolidate

/-!
# What the consolidation signature covers

The transcript of a receipt lists the epochs' commitments without their number, with the
checkpoint behind them. An entry has 88 bytes, and the bytes of a checkpoint and of its
absence leave different remainders by 88, so the length of a transcript still tells how many
entries there are and whether a checkpoint follows.

## Main definitions

* `epochEntry`, `checkpointBytes` — the two parts of variable length
* `ConsolidationReceipt.unsigned` — a receipt without its signature

## Main results

* `consolidationMessage_eq_iff` — the transcript determines all but the signature
-/

namespace SafeHub.Consolidate

open FixedWidth

variable {D : Type} [Sha512 D]

/-- The receipt without its signature: what the admin signs. -/
def ConsolidationReceipt.unsigned (receipt : ConsolidationReceipt D) : ConsolidationReceipt D :=
  { receipt with adminSig := [] }

/-- The bytes of one epoch's commitment. -/
def epochEntry (entry : UInt64 × UInt64 × UInt64 × HeadHash D) : Bytes :=
  u64LE entry.1 ++ (u64LE entry.2.1 ++ (u64LE entry.2.2.1 ++ Sha512.toBytes entry.2.2.2))

/-- The bytes of an optional checkpoint. -/
def bindingBytes : Option (CheckpointBinding D) → Bytes
  | none => [0]
  | some cp => 1 :: (u64LE cp.atSeq ++ (Sha512.toBytes cp.anchorHead ++
      (Sha512.toBytes cp.refsDigest ++ Sha512.toBytes cp.bundleRoot)))

/-- The transcript: fixed fields, the epochs' entries, the checkpoint. -/
theorem consolidationMessage_eq_fields (receipt : ConsolidationReceipt D) :
    consolidationMessage receipt = labelBytes "consolidation" ++ (receipt.repoId.toList ++
      (u64LE receipt.epoch ++ (u64LE receipt.fromSeq ++ (u64LE receipt.toSeq ++
      (Sha512.toBytes receipt.logicalRoot ++
      (receipt.epochCommitments.toList.flatMap epochEntry ++
        bindingBytes receipt.checkpoint)))))) := by
  rw [consolidationMessage]
  cases receipt.checkpoint with
  | none =>
    simp only [bindingBytes, List.append_assoc]
    rfl
  | some cp =>
    simp only [bindingBytes, List.append_assoc]
    rfl

variable [DigestBytes D]

theorem length_epochEntry (entry : UInt64 × UInt64 × UInt64 × HeadHash D) :
    (epochEntry entry).length = 88 := by
  simp [epochEntry]

theorem epochEntry_injective : Function.Injective (epochEntry (D := D)) := by
  intro entry entry' h
  obtain ⟨hepoch, hafter⟩ := List.append_inj h (by simp)
  obtain ⟨hlo, hafter⟩ := List.append_inj hafter (by simp)
  obtain ⟨hhi, hdigest⟩ := List.append_inj hafter (by simp)
  ext1
  · exact u64LE_injective hepoch
  · exact Prod.ext (u64LE_injective hlo)
      (Prod.ext (u64LE_injective hhi) (toBytes_injective hdigest))

theorem length_bindingBytes (checkpoint : Option (CheckpointBinding D)) :
    (bindingBytes checkpoint).length = if checkpoint.isSome then 201 else 1 := by
  cases checkpoint <;> simp [bindingBytes]

theorem bindingBytes_injective : Function.Injective (bindingBytes (D := D)) := by
  intro checkpoint checkpoint' h
  cases checkpoint with
  | none =>
    cases checkpoint' with
    | none => rfl
    | some cp => cases (List.cons.inj h).1
  | some cp =>
    cases checkpoint' with
    | none => cases (List.cons.inj h).1
    | some cp' =>
      obtain ⟨hseq, hafter⟩ := List.append_inj (List.cons.inj h).2 (by simp)
      obtain ⟨hanchor, hafter⟩ := List.append_inj hafter (by simp)
      obtain ⟨hrefs, hroot⟩ := List.append_inj hafter (by simp)
      cases cp
      cases cp'
      simp only [Option.some.injEq, CheckpointBinding.mk.injEq]
      exact ⟨u64LE_injective hseq, toBytes_injective hanchor, toBytes_injective hrefs,
        toBytes_injective hroot⟩

/-- With and without a checkpoint, the bytes behind the entries leave different remainders. -/
theorem length_bindingBytes_eq_of_mod {checkpoint checkpoint' : Option (CheckpointBinding D)}
    (h : (bindingBytes checkpoint).length % 88 = (bindingBytes checkpoint').length % 88) :
    (bindingBytes checkpoint).length = (bindingBytes checkpoint').length := by
  rw [length_bindingBytes, length_bindingBytes] at h ⊢
  split_ifs at h ⊢ <;> first | rfl | cases h

/-- Two receipts have one transcript exactly when they agree on all but the signature. -/
theorem consolidationMessage_eq_iff {r₁ r₂ : ConsolidationReceipt D} :
    consolidationMessage r₁ = consolidationMessage r₂ ↔ r₁.unsigned = r₂.unsigned := by
  constructor
  · intro h
    rw [consolidationMessage_eq_fields, consolidationMessage_eq_fields] at h
    obtain ⟨hrepo, hafter⟩ := List.append_inj (List.append_cancel_left h) (by simp)
    obtain ⟨hepoch, hafter⟩ := List.append_inj hafter (by simp)
    obtain ⟨hfrom, hafter⟩ := List.append_inj hafter (by simp)
    obtain ⟨hto, hafter⟩ := List.append_inj hafter (by simp)
    obtain ⟨hroot, hafter⟩ := List.append_inj hafter (by simp)
    obtain ⟨hentries, hbinding⟩ := flatMap_append_inj (by decide) epochEntry_injective
      length_epochEntry length_bindingBytes_eq_of_mod hafter
    simp only [ConsolidationReceipt.unsigned, ConsolidationReceipt.mk.injEq, and_true]
    exact ⟨Vector.toList_inj.mp hrepo, u64LE_injective hepoch, u64LE_injective hfrom,
      u64LE_injective hto, toBytes_injective hroot, Std.ExtTreeMap.toList_inj.mp hentries,
      bindingBytes_injective hbinding⟩
  · intro h
    -- the transcript does not read the signature
    have hmessage := congrArg consolidationMessage h
    exact hmessage

end SafeHub.Consolidate
