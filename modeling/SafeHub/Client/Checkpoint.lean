import SafeHub.Client.Policy

/-!
# Checkpoints

The exportable view of one client's head chain: the entries inside its window, a
witness for each epoch it holds the keys of, and a digest that binds them.

## Main definitions

* `ChainEntry`, `RefCheckpoint` — the exported view
* `bindCheckpoint`, `RefCheckpoint.rebind` — the digest over it
* `RefCheckpoint.fromHeadsWindowed`, `RefCheckpoint.withEpochWitness` — building one
* `RefCheckpoint.Exported` — the checkpoints these build

## Main results

* `sameExport_of_checkpointBytes_eq` — what the bound bytes determine
-/

namespace SafeHub

open FixedWidth
open Std (ExtTreeMap)

/-- One accepted head in a client's observed chain. -/
structure ChainEntry (D : Type) where
  seq : UInt64
  /-- Digest of the head. -/
  hash : HeadHash D
  /-- Predecessor's digest, zero for the first head. -/
  prev : HeadHash D
  /-- The epoch that sealed the head. -/
  epoch : UInt64
  deriving DecidableEq, Repr

/-- Witness per epoch. -/
abbrev EpochWitnesses := ExtTreeMap UInt64 Bytes compare

/-- Exportable checkpoint for gossip. -/
structure RefCheckpoint (D : Type) where
  repoId : RepoId
  /-- Chain entries inside this view's window. -/
  chain : List (ChainEntry D)
  /-- Inclusive epoch from which this view is authorized to hold heads. -/
  windowFrom : UInt64
  epochWitnesses : EpochWitnesses
  /-- Digest over the window, the chain and the witnesses. -/
  tipBinding : HeadHash D

variable {D : Type}

/-- Tip sequence, if any. -/
def RefCheckpoint.tipSeq (cp : RefCheckpoint D) : Option UInt64 :=
  cp.chain.getLast?.map ChainEntry.seq

/-- Every witness has the length of a truncated MAC. -/
def StandardWitnesses (cp : RefCheckpoint D) : Prop :=
  ∀ witness ∈ cp.epochWitnesses.toList, witness.2.length = 32

/-- Two checkpoints with the same repository, window, chain and witnesses. -/
structure SameExport (cp other : RefCheckpoint D) : Prop where
  repoId : cp.repoId = other.repoId
  windowFrom : cp.windowFrom = other.windowFrom
  chain : cp.chain = other.chain
  epochWitnesses : cp.epochWitnesses = other.epochWitnesses

theorem SameExport.tipSeq {cp other : RefCheckpoint D} (h : SameExport cp other) :
    cp.tipSeq = other.tipSeq := by
  rw [RefCheckpoint.tipSeq, RefCheckpoint.tipSeq, h.chain]

variable [Sha512 D]

/-- Bytes of a chain entry under the binding. -/
def entryBytes (entry : ChainEntry D) : Bytes :=
  u64LE entry.seq ++ Sha512.toBytes entry.hash ++ Sha512.toBytes entry.prev ++ u64LE entry.epoch

/-- Bytes of an epoch's witness under the binding. -/
def witnessBytes (witness : UInt64 × Bytes) : Bytes := u64LE witness.1 ++ witness.2

/-- The bytes that are hashed into the binding. -/
def checkpointBytes (cp : RefCheckpoint D) : Bytes :=
  strBytes "safehub-v1:checkpoint" ++ u64LE cp.windowFrom ++ cp.chain.flatMap entryBytes ++
    cp.epochWitnesses.toList.flatMap witnessBytes

/-- Digest binding a checkpoint. -/
def bindCheckpoint (cp : RefCheckpoint D) : HeadHash D := Sha512.digest (checkpointBytes cp)

namespace RefCheckpoint

/-- Recompute the tip binding. -/
def rebind (cp : RefCheckpoint D) : RefCheckpoint D := { cp with tipBinding := bindCheckpoint cp }

/-- A checkpoint restricted to the epochs from `windowFrom` on. -/
def fromHeadsWindowed (repoId : RepoId) (heads : List (RefHead D)) (windowFrom : UInt64) :
    RefCheckpoint D :=
  let chain := (heads.filter fun head => windowFrom ≤ head.mlsEpoch).map fun head =>
    { seq := head.seq, hash := head.hash, prev := head.prevHeadHash, epoch := head.mlsEpoch }
  rebind {
    repoId := repoId
    chain := chain
    windowFrom := windowFrom
    epochWitnesses := ∅
    tipBinding := Sha512.zero }

/-- A full-history checkpoint. -/
def fromHeads (repoId : RepoId) (heads : List (RefHead D)) : RefCheckpoint D :=
  fromHeadsWindowed repoId heads 0

end RefCheckpoint

section Witnesses

variable [HashPrimitives]

/-- MAC of an epoch under its refs key. -/
def epochWitnessBytes (refsMac : Bytes) (repo : RepoId) (epoch : UInt64) : Bytes :=
  (HashPrimitives.hmacSha512 refsMac
    (labelBytes "epoch-witness" ++ repo.toList ++ u64LE epoch)).take 32

/-- Attach the witness of an epoch the exporter holds the keys of. -/
def RefCheckpoint.withEpochWitness (cp : RefCheckpoint D) (epoch : UInt64) (refsMac : Bytes) :
    RefCheckpoint D :=
  let witness := epochWitnessBytes refsMac cp.repoId epoch
  { cp with epochWitnesses := cp.epochWitnesses.insert epoch witness }.rebind

/-- A checkpoint as a client builds it for export. -/
inductive RefCheckpoint.Exported : RefCheckpoint D → Prop
  | fromHeadsWindowed (repoId : RepoId) (heads : List (RefHead D)) (windowFrom : UInt64) :
    Exported (.fromHeadsWindowed repoId heads windowFrom)
  | withEpochWitness {cp : RefCheckpoint D} (epoch : UInt64) (refsMac : Bytes) :
    Exported cp → Exported (cp.withEpochWitness epoch refsMac)

end Witnesses

section Lemmas

variable {cp other : RefCheckpoint D}

/-- The binding does not cover the repository. -/
theorem checkpointBytes_eq_of_sameExport (h : SameExport cp other) :
    checkpointBytes cp = checkpointBytes other := by
  rw [checkpointBytes, checkpointBytes, h.windowFrom, h.chain, h.epochWitnesses]

/-- A rebound checkpoint binds itself. -/
@[simp] theorem tipBinding_rebind (cp : RefCheckpoint D) :
    cp.rebind.tipBinding = bindCheckpoint cp.rebind := rfl

theorem RefCheckpoint.Exported.tipBinding_eq [HashPrimitives] (h : cp.Exported) :
    cp.tipBinding = bindCheckpoint cp := by
  cases h <;> exact tipBinding_rebind _

theorem length_epochWitnessBytes [HashPrimitives] (refsMac : Bytes) (repo : RepoId)
    (epoch : UInt64) : (epochWitnessBytes refsMac repo epoch).length = 32 := by
  rw [epochWitnessBytes, List.length_take, HashPrimitives.length_hmacSha512]
  rfl

theorem RefCheckpoint.Exported.standardWitnesses [HashPrimitives] (h : cp.Exported) :
    StandardWitnesses cp := by
  induction h with
  | fromHeadsWindowed =>
    intro witness hmem
    have hget := ExtTreeMap.mem_toList_iff_getElem?_eq_some.mp hmem
    exact absurd hget (by simp [RefCheckpoint.fromHeadsWindowed, RefCheckpoint.rebind])
  | @withEpochWitness cp epoch refsMac _ ih =>
    intro witness hmem
    change witness ∈ (cp.epochWitnesses.insert epoch _).toList at hmem
    rw [ExtTreeMap.mem_toList_iff_getElem?_eq_some, ExtTreeMap.getElem?_insert] at hmem
    split_ifs at hmem with hepoch
    · rw [← Option.some_inj.mp hmem]
      exact length_epochWitnessBytes refsMac cp.repoId epoch
    · exact ih witness (ExtTreeMap.mem_toList_iff_getElem?_eq_some.mpr hmem)

variable [DigestBytes D]

@[simp] theorem length_entryBytes (entry : ChainEntry D) : (entryBytes entry).length = 144 := by
  simp [entryBytes]

theorem entryBytes_injective : Function.Injective (entryBytes : ChainEntry D → Bytes) := by
  intro a b h
  have hfields : [u64LE a.seq, Sha512.toBytes a.hash, Sha512.toBytes a.prev, u64LE a.epoch] =
      [u64LE b.seq, Sha512.toBytes b.hash, Sha512.toBytes b.prev, u64LE b.epoch] := by
    rw [List.eq_iff_flatten_eq]
    constructor
    · simpa [entryBytes] using h
    · simp
  simp only [List.cons.injEq] at hfields
  obtain ⟨hseq, hhash, hprev, hepoch, _⟩ := hfields
  cases a
  cases b
  rw [ChainEntry.mk.injEq]
  exact ⟨u64LE_injective hseq, toBytes_injective hhash, toBytes_injective hprev,
    u64LE_injective hepoch⟩

theorem witnessBytes_injective : Function.Injective witnessBytes := by
  intro a b h
  have hlength : (u64LE a.1).length = (u64LE b.1).length := by
    rw [length_u64LE, length_u64LE]
  obtain ⟨hepoch, hwitness⟩ := List.append_inj h hlength
  exact Prod.ext (u64LE_injective hepoch) hwitness

/-- The bound bytes determine the export among checkpoints of one repository with as many
chain entries and with standard witnesses. -/
theorem sameExport_of_checkpointBytes_eq (h : checkpointBytes cp = checkpointBytes other)
    (hrepo : cp.repoId = other.repoId) (hchain : cp.chain.length = other.chain.length)
    (hcp : StandardWitnesses cp) (hother : StandardWitnesses other) : SameExport cp other := by
  have hentries (cp : RefCheckpoint D) :
      (cp.chain.flatMap entryBytes).length = cp.chain.length * 144 :=
    length_flatMap_of_forall _ fun entry _ => length_entryBytes entry
  have hwitness {cp : RefCheckpoint D} (hstandard : StandardWitnesses cp) :
      ∀ witness ∈ cp.epochWitnesses.toList, (witnessBytes witness).length = 40 := by
    intro witness hmem
    rw [witnessBytes, List.length_append, length_u64LE, hstandard witness hmem]
  rw [checkpointBytes, checkpointBytes] at h
  obtain ⟨hfront, htail⟩ := List.append_inj h (by simp [hentries, hchain])
  obtain ⟨hhead, hmiddle⟩ := List.append_inj hfront (by simp)
  have hwindow := (List.append_inj hhead rfl).2
  exact {
    repoId := hrepo
    windowFrom := u64LE_injective hwindow
    chain := flatMap_injective_of_forall (by decide : 0 < 144) entryBytes_injective
      (fun entry _ => length_entryBytes entry) (fun entry _ => length_entryBytes entry) hmiddle
    epochWitnesses := ExtTreeMap.toList_inj.mp
      (flatMap_injective_of_forall (by decide : 0 < 40) witnessBytes_injective (hwitness hcp)
        (hwitness hother) htail) }

end Lemmas

end SafeHub
