import SafeHub.Client.Compare

/-!
# What the binding of a checkpoint covers

The binding is a digest over the window, the chain entries and the witnesses, one after the other.
It leaves out the repository, and neither the number of entries nor the lengths of the witnesses
are in it, so the same bytes can be read with the borders drawn elsewhere.

## Main definitions

* `Recut`, `RepoChanged` — the exports that a binding does not tell apart

## Main results

* `checkpointBytes_eq_iff` — which exports have the same bytes
* `Recut.standard` — what a recut moves when the witnesses have the length of a MAC
* `bindCheckpoint_covers_iff` — which alterations are noticed
-/

namespace SafeHub

open FixedWidth
open Std (ExtTreeMap)

section CheckpointRecut

variable {D : Type} [Sha512 D] [DigestBytes D]

/-- The entries by which a chain is longer stand in the other export's witnesses: the border
between chain and witnesses, or one between witnesses, is drawn elsewhere. -/
structure Recut (cp other : RefCheckpoint D) : Prop where
  windowFrom : cp.windowFrom = other.windowFrom
  bytes : ∃ extra, other.chain = cp.chain ++ extra ∧
    cp.epochWitnesses.toList.flatMap witnessBytes =
      extra.flatMap entryBytes ++ other.epochWitnesses.toList.flatMap witnessBytes
  moved : cp.chain ≠ other.chain ∨ cp.epochWitnesses ≠ other.epochWitnesses

/-- Two exports are the same but for the repository they name. -/
structure RepoChanged (cp other : RefCheckpoint D) : Prop where
  repoId : cp.repoId ≠ other.repoId
  windowFrom : cp.windowFrom = other.windowFrom
  chain : cp.chain = other.chain
  epochWitnesses : cp.epochWitnesses = other.epochWitnesses

variable {cp other : RefCheckpoint D}

omit [Sha512 D] [DigestBytes D] in
theorem RepoChanged.symm (h : RepoChanged cp other) : RepoChanged other cp where
  repoId := h.repoId.symm
  windowFrom := h.windowFrom.symm
  chain := h.chain.symm
  epochWitnesses := h.epochWitnesses.symm

/-- The bytes of two exports of which one has no longer a chain. -/
theorem checkpointBytes_eq_iff_of_le (hle : cp.chain.length ≤ other.chain.length) :
    checkpointBytes cp = checkpointBytes other ↔ cp.windowFrom = other.windowFrom ∧
      ∃ extra, other.chain = cp.chain ++ extra ∧
        cp.epochWitnesses.toList.flatMap witnessBytes =
          extra.flatMap entryBytes ++ other.epochWitnesses.toList.flatMap witnessBytes := by
  have hbytes : ∀ cp : RefCheckpoint D, checkpointBytes cp =
      strBytes "safehub-v1:checkpoint" ++ u64LE cp.windowFrom ++
        (cp.chain.flatMap entryBytes ++ cp.epochWitnesses.toList.flatMap witnessBytes) :=
    fun _ => List.append_assoc ..
  rw [← flatMap_append_eq_iff entryBytes_injective length_entryBytes hle, hbytes, hbytes]
  constructor
  · intro h
    obtain ⟨hhead, hrest⟩ := List.append_inj h (by simp)
    exact ⟨u64LE_injective (List.append_inj hhead rfl).2, hrest⟩
  · rintro ⟨hwindow, hrest⟩
    rw [hwindow, hrest]

/-- Exports with the same bytes are the same but for the repository, or one is a recut of the
other. -/
theorem checkpointBytes_eq_iff :
    checkpointBytes cp = checkpointBytes other ↔
      cp.windowFrom = other.windowFrom ∧ cp.chain = other.chain ∧
        cp.epochWitnesses = other.epochWitnesses ∨ Recut cp other ∨ Recut other cp := by
  constructor
  · intro h
    by_cases hsame : cp.chain = other.chain ∧ cp.epochWitnesses = other.epochWitnesses
    · obtain ⟨hwindow, -⟩ := (checkpointBytes_eq_iff_of_le (by rw [hsame.1])).mp h
      exact .inl ⟨hwindow, hsame⟩
    · rw [Classical.not_and_iff_not_or_not] at hsame
      rcases Nat.le_total cp.chain.length other.chain.length with hle | hle
      · obtain ⟨hwindow, hextra⟩ := (checkpointBytes_eq_iff_of_le hle).mp h
        exact .inr (.inl ⟨hwindow, hextra, hsame⟩)
      · obtain ⟨hwindow, hextra⟩ := (checkpointBytes_eq_iff_of_le hle).mp h.symm
        exact .inr (.inr ⟨hwindow, hextra, hsame.imp Ne.symm Ne.symm⟩)
  · have hrecut : ∀ {cp other : RefCheckpoint D}, Recut cp other →
        checkpointBytes cp = checkpointBytes other := by
      intro cp other h
      obtain ⟨extra, hchain, -⟩ := h.bytes
      have hle : cp.chain.length ≤ other.chain.length := by
        rw [hchain, List.length_append]
        omega
      exact (checkpointBytes_eq_iff_of_le hle).mpr ⟨h.windowFrom, h.bytes⟩
    rintro (⟨hwindow, hchain, hwitnesses⟩ | h | h)
    · rw [checkpointBytes, checkpointBytes, hwindow, hchain, hwitnesses]
    · exact hrecut h
    · exact (hrecut h).symm

/-- Between witnesses of the standard length and chain entries only five entries at a time can
change sides, against eighteen witnesses. -/
theorem Recut.standard (h : Recut cp other) (hcp : StandardWitnesses cp)
    (hother : StandardWitnesses other) :
    ∃ k > 0, other.chain.length = cp.chain.length + 5 * k ∧
      cp.epochWitnesses.toList.length = other.epochWitnesses.toList.length + 18 * k := by
  have hwidth : ∀ {cp : RefCheckpoint D}, StandardWitnesses cp →
      ∀ witness ∈ cp.epochWitnesses.toList, (witnessBytes witness).length = 40 := by
    intro cp hstandard witness hmem
    rw [witnessBytes, List.length_append, length_u64LE, hstandard witness hmem]
  obtain ⟨extra, hchain, hbytes⟩ := h.bytes
  have hlength := congrArg List.length hbytes
  rw [List.length_append, length_flatMap_of_forall _ (hwidth hcp),
    length_flatMap_of_forall _ (hwidth hother),
    length_flatMap_of_forall extra fun entry _ => length_entryBytes entry] at hlength
  rw [hchain, List.length_append]
  refine ⟨extra.length / 5, ?_, by omega, by omega⟩
  -- a recut that moves no entry moves nothing
  by_contra hnone
  have hempty : extra = [] := List.length_eq_zero_iff.mp (by omega)
  rw [hempty, List.append_nil] at hchain
  rw [hempty, List.flatMap_nil, List.nil_append] at hbytes
  have hwitnesses := ExtTreeMap.toList_inj.mp (flatMap_injective_of_forall (by decide : 0 < 40)
    witnessBytes_injective (hwidth hcp) (hwidth hother) hbytes)
  exact h.moved.elim (fun hne => hne hchain.symm) (fun hne => hne hwitnesses)

variable [DecidableEq D]

/-- With a hash that does not collide on two exports, their bindings differ when a field does, and
an altered export with the binding of the original is refused, exactly when they are not the same
but for the repository and neither is a recut of the other. -/
theorem bindCheckpoint_covers_iff
    (hinj : Set.InjOn (Sha512.digest : Bytes → D) {checkpointBytes cp, checkpointBytes other}) :
    ((bindCheckpoint cp = bindCheckpoint other → SameExport cp other) ∧
        (cp.tipBinding = bindCheckpoint cp → other.tipBinding = cp.tipBinding →
          ¬ SameExport cp other → ∀ peer result,
            compareCheckpoints other peer ≠ .ok result ∧
              compareCheckpoints peer other ≠ .ok result)) ↔
      ¬ RepoChanged cp other ∧ ¬ Recut cp other ∧ ¬ Recut other cp := by
  have hbinding : bindCheckpoint cp = bindCheckpoint other ↔
      checkpointBytes cp = checkpointBytes other :=
    ⟨hinj (Set.mem_insert _ _) (Set.mem_insert_of_mem _ rfl), congrArg Sha512.digest⟩
  constructor
  · rintro ⟨hcovers, -⟩
    -- each of the three changes leaves the bytes as they are
    rw [hbinding, checkpointBytes_eq_iff] at hcovers
    refine ⟨fun h => ?_, fun h => ?_, fun h => ?_⟩
    · exact h.repoId (hcovers (.inl ⟨h.windowFrom, h.chain, h.epochWitnesses⟩)).repoId
    · have hsame := hcovers (.inr (.inl h))
      exact h.moved.elim (fun hne => hne hsame.chain) (fun hne => hne hsame.epochWitnesses)
    · have hsame := hcovers (.inr (.inr h))
      exact h.moved.elim (fun hne => hne hsame.chain.symm)
        (fun hne => hne hsame.epochWitnesses.symm)
  · rintro ⟨hrepo, hrecut, hrecut'⟩
    have hcovers : bindCheckpoint cp = bindCheckpoint other → SameExport cp other := by
      intro heq
      rcases checkpointBytes_eq_iff.mp (hbinding.mp heq) with
        ⟨hwindow, hchain, hwitnesses⟩ | h | h
      · refine ⟨?_, hwindow, hchain, hwitnesses⟩
        by_contra hne
        exact hrepo ⟨hne, hwindow, hchain, hwitnesses⟩
      · exact absurd h hrecut
      · exact absurd h hrecut'
    -- a comparison checks the binding of both sides, so a copied one is noticed
    refine ⟨hcovers, fun hbound hcopied haltered peer result => ⟨fun hok => ?_, fun hok => ?_⟩⟩
    · have hother := (compareCheckpoints_eq_ok_iff.mp hok).1.boundA
      exact haltered (hcovers ((hother.trans (hcopied.trans hbound)).symm))
    · have hother := (compareCheckpoints_eq_ok_iff.mp hok).1.boundB
      exact haltered (hcovers ((hother.trans (hcopied.trans hbound)).symm))

end CheckpointRecut

section Sample

attribute [local instance] leadingSha512 leadingDigestBytes transparentHash

/-- A bound export whose only chain entry was moved into its witnesses. -/
def movedEntry : RefCheckpoint Digest :=
  { viewUnder 1 [1] with
    chain := []
    epochWitnesses := .ofList ((viewUnder 1 [1]).chain.map fun entry =>
      (entry.seq, (entryBytes entry).drop 8)) compare }

/-- A bound export that is presented for another repository. -/
def renamedView : RefCheckpoint Digest := { viewUnder 1 [1] with repoId := Vector.replicate 32 6 }

/-- An export keeps its bytes when its entry is moved into its witnesses or its repository is
replaced, and is still compared. -/
theorem bindCheckpoint_not_covers :
    checkpointBytes movedEntry = checkpointBytes (viewUnder 1 [1]) ∧
      movedEntry.chain ≠ (viewUnder 1 [1]).chain ∧
      (∃ result, compareCheckpoints movedEntry (viewUnder 1 [1]) = .ok result) ∧
      checkpointBytes renamedView = checkpointBytes (viewUnder 1 [1]) ∧
      renamedView.repoId ≠ (viewUnder 1 [1]).repoId ∧
      ∃ result, compareCheckpoints renamedView renamedView = .ok result := by
  have hview := comparable_viewUnder
  have hmoved : checkpointBytes movedEntry = checkpointBytes (viewUnder 1 [1]) := by
    decide +kernel
  have hbound : bindCheckpoint movedEntry = movedEntry.tipBinding :=
    (congrArg Sha512.digest hmoved).trans hview.boundA
  refine ⟨hmoved, by decide +kernel, ⟨_, compareCheckpoints_eq_ok_iff.mpr ⟨?_, rfl⟩⟩, rfl,
    by decide +kernel, ⟨_, compareCheckpoints_eq_ok_iff.mpr ⟨?_, rfl⟩⟩⟩
  · exact {
      repoId := rfl
      boundA := hbound
      boundB := hview.boundA
      validA := .nil
      validB := hview.validA
      inWindowA := fun _ hentry => absurd hentry List.not_mem_nil
      inWindowB := hview.inWindowA }
  · exact {
      repoId := rfl
      boundA := hview.boundA
      boundB := hview.boundA
      validA := hview.validA
      validB := hview.validA
      inWindowA := hview.inWindowA
      inWindowB := hview.inWindowA }

/-- A bound export with the hash of its entry replaced. -/
def tamperedView : RefCheckpoint Digest :=
  { viewUnder 1 [1] with
    chain := (viewUnder 1 [1]).chain.map fun entry => { entry with hash := .replicate 64 0x55 } }

/-- Altering the hash of an entry is noticed. -/
theorem bindCheckpoint_covers_iff_tamperedView :
    ((bindCheckpoint (viewUnder 1 [1]) = bindCheckpoint tamperedView →
          SameExport (viewUnder 1 [1]) tamperedView) ∧
        ((viewUnder 1 [1]).tipBinding = bindCheckpoint (viewUnder 1 [1]) →
          tamperedView.tipBinding = (viewUnder 1 [1]).tipBinding →
          ¬ SameExport (viewUnder 1 [1]) tamperedView → ∀ peer result,
            compareCheckpoints tamperedView peer ≠ .ok result ∧
              compareCheckpoints peer tamperedView ≠ .ok result)) ↔
      ¬ RepoChanged (viewUnder 1 [1]) tamperedView ∧ ¬ Recut (viewUnder 1 [1]) tamperedView ∧
        ¬ Recut tamperedView (viewUnder 1 [1]) := by
  have hdiffer : bindCheckpoint (viewUnder 1 [1]) ≠ bindCheckpoint tamperedView := by
    decide +kernel
  exact bindCheckpoint_covers_iff (Set.injOn_pair.mpr fun h => absurd h hdiffer)

end Sample

end SafeHub
