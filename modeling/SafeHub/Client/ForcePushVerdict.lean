import SafeHub.Client.Heads

/-!
# Verdicts on ref updates

The classification of a ref update stops at the first ref that refutes it and only remembers
the refs that it could not decide. Each ref has a verdict of its own, and the verdict on the
update is the worst of them, in whatever order the refs are visited. A refuted update needs the
admin's co-signature; a bundle of several is never taken for one.

## Main definitions

* `ObjectDb` — an object store whose ancestry queries succeed
* `Refuted`, `Undecided` — what speaks against an update, and what leaves it open
* `entryStatus`, `worstStatus` — the verdict on one ref and on several
* `classifyVisiting` — the classification with its order of visits given

## Main results

* `classifyFf_exact` — each verdict of the classification, and that no order changes it
* `quorumCosig_rejected` — the policy rejects every bundle of co-signatures
-/

namespace SafeHub

open SignerCount
open Std (ExtTreeMap)

/-! ### The verdict on one ref -/

/-- A local object store whose ancestry queries raise no error. -/
structure ObjectDb where
  hasObject : String → Bool
  isAncestor : String → String → Bool

/-- The store as the classification queries it. -/
def ObjectDb.dag (db : ObjectDb) : GitDag where
  hasObject := db.hasObject
  isAncestor old new := .ok (db.isAncestor old new)

/-- A ref is in both maps, with different object ids. -/
structure RefMoved (oldRefs newRefs : RefMap) (name oldOid newOid : String) : Prop where
  old : oldRefs[name]? = some oldOid
  new : newRefs[name]? = some newOid
  ne : oldOid ≠ newOid

/-- What speaks against an update. -/
inductive Refuted (db : Option ObjectDb) (oldRefs newRefs : RefMap) : Prop
  /-- A ref is gone. -/
  | dropped (name : String) (hold : name ∈ oldRefs) (hnew : name ∉ newRefs)
  /-- A tag has moved. -/
  | movedTag (name oldOid newOid : String) (hchanged : RefMoved oldRefs newRefs name oldOid newOid)
      (htag : isTag name = true)
  /-- A branch has moved to an object that does not descend from the one it was at. -/
  | diverged (name oldOid newOid : String) (git : ObjectDb)
      (hchanged : RefMoved oldRefs newRefs name oldOid newOid) (htag : isTag name = false)
      (hdb : db = some git) (hpresent : absentOid oldOid = false)
      (hold : holdsObject git.dag oldOid = true) (hnew : holdsObject git.dag newOid = true)
      (hancestor : git.isAncestor oldOid newOid = false)

/-- A ref other than a tag has moved, and there is no store or the store lacks one of its
objects. -/
def Undecided (db : Option ObjectDb) (oldRefs newRefs : RefMap) : Prop :=
  ∃ name oldOid newOid, RefMoved oldRefs newRefs name oldOid newOid ∧ isTag name = false ∧
    ∀ git, db = some git →
      ¬ (holdsObject git.dag oldOid = true ∧ holdsObject git.dag newOid = true)

/-- The verdict on a ref that has moved. -/
def movedStatus (db : Option ObjectDb) (name oldOid newOid : String) : FfStatus :=
  if isTag name then .nonFastForward
  else
    match db with
    | none => .unverifiable
    | some git =>
      if holdsObject git.dag oldOid && holdsObject git.dag newOid then
        if absentOid oldOid || git.isAncestor oldOid newOid then .fastForward
        else .nonFastForward
      else .unverifiable

/-- The verdict on one entry of the new refs. -/
def entryStatus (db : Option ObjectDb) (oldRefs : RefMap) (entry : String × String) : FfStatus :=
  match oldRefs[entry.1]? with
  | none => .fastForward
  | some oldOid =>
    if oldOid = entry.2 then .fastForward else movedStatus db entry.1 oldOid entry.2

/-- The worst of several verdicts. -/
def worstStatus (statuses : List FfStatus) : FfStatus :=
  if .nonFastForward ∈ statuses then .nonFastForward
  else if .unverifiable ∈ statuses then .unverifiable
  else .fastForward

section Entries

variable {db : Option ObjectDb} {oldRefs newRefs : RefMap} {name oldOid newOid : String}
variable {status : FfStatus} {statuses statuses' : List FfStatus}

/-- Only the two bad verdicts count. -/
theorem worstStatus_congr (hnon : .nonFastForward ∈ statuses ↔ .nonFastForward ∈ statuses')
    (hopen : .unverifiable ∈ statuses ↔ .unverifiable ∈ statuses') :
    worstStatus statuses = worstStatus statuses' := by
  simp only [worstStatus, hnon, hopen]

theorem worstStatus_eq_nonFastForward_iff :
    worstStatus statuses = .nonFastForward ↔ .nonFastForward ∈ statuses := by
  rw [worstStatus]
  split_ifs with hnon hopen <;> simp [hnon]

theorem worstStatus_eq_unverifiable_iff :
    worstStatus statuses = .unverifiable ↔
      .nonFastForward ∉ statuses ∧ .unverifiable ∈ statuses := by
  rw [worstStatus]
  split_ifs with hnon hopen
  · simp [hnon]
  · simp [hnon, hopen]
  · simp [hnon, hopen]

theorem worstStatus_eq_fastForward_iff :
    worstStatus statuses = .fastForward ↔
      .nonFastForward ∉ statuses ∧ .unverifiable ∉ statuses := by
  rw [worstStatus]
  split_ifs with hnon hopen
  · simp [hnon]
  · simp [hnon, hopen]
  · simp [hnon, hopen]

theorem movedStatus_eq_nonFastForward_iff :
    movedStatus db name oldOid newOid = .nonFastForward ↔
      isTag name = true ∨ isTag name = false ∧ ∃ git, db = some git ∧
        absentOid oldOid = false ∧ holdsObject git.dag oldOid = true ∧
        holdsObject git.dag newOid = true ∧ git.isAncestor oldOid newOid = false := by
  unfold movedStatus
  cases isTag name with
  | true => simp
  | false =>
    cases db with
    | none => simp
    | some git =>
      -- an ancestry query needs both objects and an old id that is not zero
      cases hold : holdsObject git.dag oldOid <;> cases hnew : holdsObject git.dag newOid <;>
        cases habsent : absentOid oldOid <;> cases hanc : git.isAncestor oldOid newOid <;>
        simp [hold, hnew, hanc]

theorem movedStatus_eq_unverifiable_iff :
    movedStatus db name oldOid newOid = .unverifiable ↔
      isTag name = false ∧ ∀ git, db = some git →
        ¬ (holdsObject git.dag oldOid = true ∧ holdsObject git.dag newOid = true) := by
  unfold movedStatus
  cases isTag name with
  | true => simp
  | false =>
    cases db with
    | none => simp
    | some git =>
      cases hold : holdsObject git.dag oldOid <;> cases hnew : holdsObject git.dag newOid <;>
        cases habsent : absentOid oldOid <;> cases hanc : git.isAncestor oldOid newOid <;>
        simp [hold, hnew, hanc]

/-- A verdict other than the good one is that of a ref that has moved. -/
theorem mem_map_entryStatus_iff (hstatus : status ≠ .fastForward) :
    status ∈ newRefs.toList.map (entryStatus db oldRefs) ↔
      ∃ name oldOid newOid, RefMoved oldRefs newRefs name oldOid newOid ∧
        movedStatus db name oldOid newOid = status := by
  rw [List.mem_map]
  constructor
  · rintro ⟨⟨name, newOid⟩, hentry, heq⟩
    rw [entryStatus] at heq
    cases hold : oldRefs[name]? with
    | none =>
      rw [hold] at heq
      exact absurd heq.symm hstatus
    | some oldOid =>
      simp only [hold] at heq
      split_ifs at heq with hsame
      · exact absurd heq.symm hstatus
      · exact ⟨name, oldOid, newOid,
          ⟨hold, ExtTreeMap.mem_toList_iff_getElem?_eq_some.mp hentry, hsame⟩, heq⟩
  · rintro ⟨name, oldOid, newOid, hchanged, heq⟩
    refine ⟨(name, newOid), ExtTreeMap.mem_toList_iff_getElem?_eq_some.mpr hchanged.new, ?_⟩
    simp only [entryStatus, hchanged.old, if_neg hchanged.ne, heq]

/-! ### The loop -/

/-- A ref that has moved is followed by the rest of the loop, unless it ends it. -/
theorem classifyLoop_cons_of_moved {rest : List (String × String)} {unverifiable : Bool}
    (hold : oldRefs[name]? = some oldOid) (hne : oldOid ≠ newOid) :
    classifyLoop (db.map ObjectDb.dag) oldRefs ((name, newOid) :: rest) unverifiable =
      match movedStatus db name oldOid newOid with
      | .nonFastForward => .ok .nonFastForward
      | .unverifiable => classifyLoop (db.map ObjectDb.dag) oldRefs rest true
      | .fastForward => classifyLoop (db.map ObjectDb.dag) oldRefs rest unverifiable := by
  simp only [classifyLoop, hold, if_neg hne, movedStatus]
  cases isTag name with
  | true => rfl
  | false =>
    cases db with
    | none => rfl
    | some git =>
      simp only [Option.map_some, Bool.false_eq_true, if_false]
      by_cases hheld : (holdsObject git.dag oldOid && holdsObject git.dag newOid) = true
      · -- the ancestry query is asked only about an object id that is not zero
        have hforward : isFastForward git.dag oldOid newOid =
            .ok (absentOid oldOid || git.isAncestor oldOid newOid) := by
          rw [isFastForward, if_neg hne]
          cases absentOid oldOid <;> rfl
        rw [if_pos hheld, if_pos hheld, hforward]
        cases absentOid oldOid || git.isAncestor oldOid newOid <;> rfl
      · rw [if_neg hheld, if_neg hheld]

/-- The loop computes the worst verdict on the refs it visits. -/
theorem classifyLoop_eq_worstStatus (entries : List (String × String)) (unverifiable : Bool) :
    classifyLoop (db.map ObjectDb.dag) oldRefs entries unverifiable =
      .ok (worstStatus ((if unverifiable then FfStatus.unverifiable else .fastForward) ::
        entries.map (entryStatus db oldRefs))) := by
  induction entries generalizing unverifiable with
  | nil => cases unverifiable <;> rfl
  | cons entry rest ih =>
    obtain ⟨name, newOid⟩ := entry
    -- a ref that is new or has not moved leaves the verdict to the rest
    have hskip (h : entryStatus db oldRefs (name, newOid) = .fastForward) :
        worstStatus ((if unverifiable then FfStatus.unverifiable else .fastForward) ::
            ((name, newOid) :: rest).map (entryStatus db oldRefs)) =
          worstStatus ((if unverifiable then FfStatus.unverifiable else .fastForward) ::
            rest.map (entryStatus db oldRefs)) := by
      rw [List.map_cons, h]
      exact worstStatus_congr (by simp) (by simp)
    cases hold : oldRefs[name]? with
    | none =>
      have hstatus : entryStatus db oldRefs (name, newOid) = .fastForward := by
        simp only [entryStatus, hold]
      rw [hskip hstatus, ← ih]
      simp only [classifyLoop, hold]
    | some oldOid =>
      by_cases hsame : oldOid = newOid
      · have hstatus : entryStatus db oldRefs (name, newOid) = .fastForward := by
          simp only [entryStatus, hold, if_pos hsame]
        rw [hskip hstatus, ← ih]
        simp only [classifyLoop, hold, if_pos hsame]
      · have hstatus : entryStatus db oldRefs (name, newOid) =
            movedStatus db name oldOid newOid := by
          simp only [entryStatus, hold, if_neg hsame]
        rw [classifyLoop_cons_of_moved hold hsame]
        cases hmoved : movedStatus db name oldOid newOid with
        | fastForward =>
          rw [hmoved] at hstatus
          rw [hskip hstatus, ← ih]
        | nonFastForward =>
          rw [hmoved] at hstatus
          rw [List.map_cons, hstatus]
          simp [worstStatus]
        | unverifiable =>
          rw [hmoved] at hstatus
          simp only [ih, if_true, List.map_cons, hstatus]
          -- from here on the verdict is open, as it is with the flag set
          exact congrArg Except.ok (worstStatus_congr (by cases unverifiable <;> simp) (by simp))

end Entries

/-! ### The verdict on the update -/

/-- The classification, visiting the old names and the new entries in the given order. -/
def classifyVisiting (dag : Option GitDag) (oldRefs newRefs : RefMap) (oldNames : List String)
    (newEntries : List (String × String)) : Except ClientError FfStatus :=
  if oldNames.any fun name => !newRefs.contains name then .ok .nonFastForward
  else classifyLoop dag oldRefs newEntries false

theorem classifyFf_eq_visiting (dag : Option GitDag) (oldRefs newRefs : RefMap) :
    classifyFf dag oldRefs newRefs =
      classifyVisiting dag oldRefs newRefs oldRefs.keys newRefs.toList :=
  rfl

/-- The verdict on one of the old names. -/
def keptStatus (newRefs : RefMap) (name : String) : FfStatus :=
  if newRefs.contains name then .fastForward else .nonFastForward

/-- The verdicts on all that is visited. -/
def visitedStatuses (db : Option ObjectDb) (oldRefs newRefs : RefMap) (oldNames : List String)
    (newEntries : List (String × String)) : List FfStatus :=
  oldNames.map (keptStatus newRefs) ++ newEntries.map (entryStatus db oldRefs)

section Verdict

variable {db : Option ObjectDb} {oldRefs newRefs : RefMap}

theorem nonFastForward_mem_map_keptStatus_iff {names : List String} :
    .nonFastForward ∈ names.map (keptStatus newRefs) ↔ ∃ name ∈ names, name ∉ newRefs := by
  have hkept (name : String) : keptStatus newRefs name = .nonFastForward ↔ name ∉ newRefs := by
    rw [keptStatus, ← ExtTreeMap.contains_iff_mem]
    cases newRefs.contains name <;> simp
  simp only [List.mem_map, hkept]

theorem unverifiable_not_mem_map_keptStatus {names : List String} :
    .unverifiable ∉ names.map (keptStatus newRefs) := by
  intro hmem
  obtain ⟨name, -, h⟩ := List.mem_map.mp hmem
  rw [keptStatus] at h
  split_ifs at h

/-- The classification is the worst verdict on what it visits. -/
theorem classifyVisiting_eq_worstStatus (names : List String) (entries : List (String × String)) :
    classifyVisiting (db.map ObjectDb.dag) oldRefs newRefs names entries =
      .ok (worstStatus (visitedStatuses db oldRefs newRefs names entries)) := by
  have hany : (names.any fun name => !newRefs.contains name) = true ↔
      .nonFastForward ∈ names.map (keptStatus newRefs) := by
    simp only [nonFastForward_mem_map_keptStatus_iff, List.any_eq_true, Bool.not_eq_true',
      ← Bool.not_eq_true, ExtTreeMap.contains_iff_mem]
  rw [classifyVisiting]
  split_ifs with hdropped
  · -- a name that is gone ends the classification before the loop
    have hmem := List.mem_append_left (entries.map (entryStatus db oldRefs)) (hany.mp hdropped)
    rw [worstStatus, visitedStatuses, if_pos hmem]
  · rw [hany] at hdropped
    rw [classifyLoop_eq_worstStatus, if_neg Bool.false_ne_true, visitedStatuses]
    refine congrArg Except.ok (worstStatus_congr ?_ ?_)
    · rw [List.mem_append, or_iff_right hdropped, List.mem_cons, or_iff_right (by decide)]
    · rw [List.mem_append, or_iff_right unverifiable_not_mem_map_keptStatus, List.mem_cons,
        or_iff_right (by decide)]

/-- A verdict against the update is that a ref is gone, a tag moved or a branch diverged. -/
theorem nonFastForward_mem_visitedStatuses_iff :
    .nonFastForward ∈ visitedStatuses db oldRefs newRefs oldRefs.keys newRefs.toList ↔
      Refuted db oldRefs newRefs := by
  simp only [visitedStatuses, List.mem_append, nonFastForward_mem_map_keptStatus_iff,
    mem_map_entryStatus_iff (show FfStatus.nonFastForward ≠ .fastForward by decide),
    movedStatus_eq_nonFastForward_iff, ExtTreeMap.mem_keys]
  constructor
  · rintro (⟨name, hold, hnew⟩ | ⟨name, oldOid, newOid, hchanged, htag | hdiverged⟩)
    · exact .dropped name hold hnew
    · exact .movedTag name oldOid newOid hchanged htag
    · obtain ⟨htag, git, hdb, hpresent, hold, hnew, hancestor⟩ := hdiverged
      exact .diverged name oldOid newOid git hchanged htag hdb hpresent hold hnew hancestor
  · intro hrefuted
    cases hrefuted with
    | dropped name hold hnew => exact .inl ⟨name, hold, hnew⟩
    | movedTag name oldOid newOid hchanged htag =>
      exact .inr ⟨name, oldOid, newOid, hchanged, .inl htag⟩
    | diverged name oldOid newOid git hchanged htag hdb hpresent hold hnew hancestor =>
      exact .inr ⟨name, oldOid, newOid, hchanged,
        .inr ⟨htag, git, hdb, hpresent, hold, hnew, hancestor⟩⟩

theorem unverifiable_mem_visitedStatuses_iff :
    .unverifiable ∈ visitedStatuses db oldRefs newRefs oldRefs.keys newRefs.toList ↔
      Undecided db oldRefs newRefs := by
  rw [visitedStatuses, List.mem_append, or_iff_right unverifiable_not_mem_map_keptStatus,
    mem_map_entryStatus_iff (by decide)]
  simp only [movedStatus_eq_unverifiable_iff, Undecided]

end Verdict

/-- Each verdict of the classification is given exactly when it should be, and visiting the refs
in another order gives the same one. -/
theorem classifyFf_exact (db : Option ObjectDb) (oldRefs newRefs : RefMap) :
    (classifyFf (db.map ObjectDb.dag) oldRefs newRefs = .ok .nonFastForward ↔
      Refuted db oldRefs newRefs) ∧
    (classifyFf (db.map ObjectDb.dag) oldRefs newRefs = .ok .unverifiable ↔
      ¬ Refuted db oldRefs newRefs ∧ Undecided db oldRefs newRefs) ∧
    (classifyFf (db.map ObjectDb.dag) oldRefs newRefs = .ok .fastForward ↔
      ¬ Refuted db oldRefs newRefs ∧ ¬ Undecided db oldRefs newRefs) ∧
    ∀ (names : List String) (entries : List (String × String)), names.Perm oldRefs.keys →
      entries.Perm newRefs.toList →
      classifyVisiting (db.map ObjectDb.dag) oldRefs newRefs names entries =
        classifyFf (db.map ObjectDb.dag) oldRefs newRefs := by
  have hverdict : classifyFf (db.map ObjectDb.dag) oldRefs newRefs =
      .ok (worstStatus (visitedStatuses db oldRefs newRefs oldRefs.keys newRefs.toList)) := by
    rw [classifyFf_eq_visiting, classifyVisiting_eq_worstStatus]
  rw [hverdict, ← nonFastForward_mem_visitedStatuses_iff, ← unverifiable_mem_visitedStatuses_iff,
    Except.ok.injEq, Except.ok.injEq, Except.ok.injEq]
  refine ⟨worstStatus_eq_nonFastForward_iff, worstStatus_eq_unverifiable_iff,
    worstStatus_eq_fastForward_iff, fun names entries hnames hentries => ?_⟩
  have hsame := (hnames.map (keptStatus newRefs)).append (hentries.map (entryStatus db oldRefs))
  rw [classifyVisiting_eq_worstStatus]
  exact congrArg Except.ok (worstStatus_congr hsame.mem_iff hsame.mem_iff)

/-! ### A bundle where one co-signature is expected -/

section Bundle

variable {D : Type} [Sha512 D] [MlDsa87]

/-- The key pairs and thresholds from which a bundle comes. -/
theorem adminQuorumSign_eq_ok {admins : List MlDsa87KeyPair} {m : UInt8} {repo : RepoId}
    {epoch seq : UInt64} {op : String} {prevHead newRefsDigest rosterDigest : D}
    (hlen : ∀ seed message : Bytes, seed.length = mldsa87SeedLen →
      (MlDsa87.sign seed message).length = mldsa87SigLen)
    (hseeds : ∀ admin ∈ admins, admin.seed.length = mldsa87SeedLen) (hm : m ≠ 0)
    (hle : m.toNat ≤ admins.length) (hcount : admins.length ≤ 255) :
    adminQuorumSign admins m repo epoch op seq prevHead newRefsDigest rosterDigest =
      .ok (quorumBytes m (admins.map fun admin => MlDsa87.sign admin.seed (adminCosigMessage repo
        epoch op seq prevHead newRefsDigest rosterDigest adminCosigPolicyVersion))) := by
  set message := adminCosigMessage repo epoch op seq prevHead newRefsDigest rosterDigest
    adminCosigPolicyVersion with hmessage
  refine bind_eq_ok_iff.mpr ⟨admins.map fun admin => MlDsa87.sign admin.seed message, ?_, ?_⟩
  · refine mapM_eq_ok_iff.mpr (List.forall₂_map_right_iff.mpr (List.forall₂_same.mpr ?_))
    intro admin hadmin
    rw [adminCosigSign, orOther_eq_ok_iff, MlDsa87KeyPair.sign, signWithSeed,
      if_pos (hseeds admin hadmin)]
  · refine encodeAdminQuorum_eq_ok_iff.mpr ⟨⟨hm, ?_, ?_⟩, ?_, rfl⟩
    · rwa [List.length_map]
    · rwa [List.length_map]
    · intro sig hsig
      obtain ⟨admin, hadmin, rfl⟩ := List.mem_map.mp hsig
      rw [hlen _ _ (hseeds admin hadmin)]
      decide

/-- A bundle is never as long as one signature. -/
theorem length_ne_of_adminQuorumSign {admins : List MlDsa87KeyPair} {m : UInt8} {repo : RepoId}
    {epoch seq : UInt64} {op : String} {prevHead newRefsDigest rosterDigest : D} {bundle : Bytes}
    (hlen : ∀ seed message : Bytes, seed.length = mldsa87SeedLen →
      (MlDsa87.sign seed message).length = mldsa87SigLen)
    (h : adminQuorumSign admins m repo epoch op seq prevHead newRefsDigest rosterDigest =
      .ok bundle) : bundle.length ≠ mldsa87SigLen := by
  obtain ⟨sigs, hsigs, hencode⟩ := bind_eq_ok_iff.mp h
  obtain ⟨-, -, rfl⟩ := encodeAdminQuorum_eq_ok_iff.mp hencode
  have hall : ∀ sig ∈ sigs, sig.length = mldsa87SigLen := by
    intro sig hsig
    obtain ⟨admin, -, hsign⟩ := exists_of_forall₂_mem_right (mapM_eq_ok_iff.mp hsigs) hsig
    rw [adminCosigSign, orOther_eq_ok_iff, MlDsa87KeyPair.sign, signWithSeed] at hsign
    split_ifs at hsign with hseed
    obtain rfl := Except.ok.inj hsign
    exact hlen _ _ hseed
  rw [length_quorumBytes_of_forall hall, mldsa87SigLen]
  omega

variable [RefsCodec]

/-- A head whose co-signature is a bundle is rejected under every admin key. -/
theorem verifyForcePushPolicyScoped_bundle {head : RefHead D} {claimedNonFf : Bool}
    {status : FfStatus} {scope : AncestryScope} {adminVk : Option Bytes}
    {newRefs : EncryptedRefsMap} {roster : List Bytes} {bundle : Bytes}
    (hstatus : status ≠ .fastForward) (hbundle : bundle.length ≠ mldsa87SigLen) :
    verifyForcePushPolicyScoped { head with adminCosig := some bundle } claimedNonFf status scope
      adminVk newRefs roster ≠ .ok () := by
  rw [ne_eq, verifyForcePushPolicyScoped_eq_ok_iff, or_iff_right hstatus]
  rintro ⟨-, cosig, vk, hcosig, -, hverify⟩
  obtain rfl := Option.some.inj hcosig
  -- the one verifier of the policy takes a single signature only
  have hvalid : mldsaValid vk (pushCosigMessage { head with adminCosig := some bundle } newRefs
      roster) bundle = true := by
    rw [mldsaValid, hverify]
    rfl
  exact hbundle (length_of_mldsaValid hvalid)

/-- The policy lets no head pass for a bundle of co-signatures on its update, whoever made it. -/
theorem quorumCosig_rejected
    (hlen : ∀ seed message : Bytes, seed.length = mldsa87SeedLen →
      (MlDsa87.sign seed message).length = mldsa87SigLen)
    (head : RefHead D) (roster : List Bytes) (newRefs : EncryptedRefsMap)
    (admins : List MlDsa87KeyPair) (m : UInt8) (claimedNonFf : Bool) (status : FfStatus)
    (hstatus : status ≠ .fastForward) (scope : AncestryScope) (adminVk : Option Bytes) :
    ¬ ∃ bundle, adminQuorumSign admins m head.repoId head.mlsEpoch "push" head.seq
        head.prevHeadHash (refsDigest newRefs) (rosterDigest roster) = .ok bundle ∧
      verifyForcePushPolicyScoped { head with adminCosig := some bundle } claimedNonFf status scope
        adminVk newRefs roster = .ok () := by
  rintro ⟨bundle, hsign, hpass⟩
  exact verifyForcePushPolicyScoped_bundle hstatus (length_ne_of_adminQuorumSign hlen hsign) hpass

end Bundle

section Sample

attribute [local instance] transparentSha512 transparentMlDsa87 framedRefsCodec

/-- A head that moves a ref and is yet to be co-signed. -/
def sampleForced : RefHead Bytes where
  repoId := Vector.replicate 32 0
  seq := 2
  encRefs := []
  bundleRoot := []
  dekWrap := []
  prevHeadHash := [1]
  mlsEpoch := 0
  epochTag := []
  nonFf := true
  pusherSig := []
  adminCosig := none

/-- The refs of the head. -/
def sampleForcedRefs : EncryptedRefsMap := ⟨∅, none, "", []⟩

/-- The admin with a flat seed. -/
def seededAdmin (b : UInt8) : MlDsa87KeyPair := ⟨flatSeed b, paddedKey (flatSeed b)⟩

theorem length_clearSig {seed : Bytes} (message : Bytes) (h : seed.length = mldsa87SeedLen) :
    (MlDsa87.sign seed message).length = mldsa87SigLen := by
  have htake : ((message ++ List.replicate 4595 0).take 4595).length = 4595 := by
    rw [List.length_take, List.length_append, List.length_replicate]
    omega
  change (clearSig seed message).length = _
  rw [clearSig, List.length_append, h, htake]
  rfl

/-- The one admin of a repository signs a bundle of one. It verifies as a bundle, and the same
admin's plain co-signature passes the policy; the bundle does not. -/
theorem quorumCosig_rejected_one :
    ∃ bundle cosig,
      adminQuorumSign [seededAdmin 1] 1 sampleForced.repoId sampleForced.mlsEpoch "push"
        sampleForced.seq sampleForced.prevHeadHash (refsDigest sampleForcedRefs)
        (rosterDigest []) = .ok bundle ∧
      adminQuorumVerify [paddedKey (flatSeed 1)] sampleForced.repoId sampleForced.mlsEpoch "push"
        sampleForced.seq sampleForced.prevHeadHash (refsDigest sampleForcedRefs)
        (rosterDigest []) bundle = .ok () ∧
      adminCosigSign (seededAdmin 1) sampleForced.repoId sampleForced.mlsEpoch "push"
        sampleForced.seq sampleForced.prevHeadHash (refsDigest sampleForcedRefs)
        (rosterDigest []) = .ok cosig ∧
      verifyForcePushPolicyScoped { sampleForced with adminCosig := some cosig } true
        .nonFastForward .full (some (paddedKey (flatSeed 1))) sampleForcedRefs [] = .ok () ∧
      verifyForcePushPolicyScoped { sampleForced with adminCosig := some bundle } true
        .nonFastForward .full (some (paddedKey (flatSeed 1))) sampleForcedRefs [] ≠ .ok () := by
  set message := pushCosigMessage sampleForced sampleForcedRefs [] with hmessage
  have hsign : adminQuorumSign [seededAdmin 1] 1 sampleForced.repoId sampleForced.mlsEpoch "push"
      sampleForced.seq sampleForced.prevHeadHash (refsDigest sampleForcedRefs) (rosterDigest []) =
        .ok (quorumBytes 1 [clearSig (flatSeed 1) message]) :=
    adminQuorumSign_eq_ok (fun seed message h => length_clearSig message h)
      (by simp [seededAdmin]) (by decide) (by decide) (by decide)
  have hdecode : decodeAdminQuorum (quorumBytes 1 [clearSig (flatSeed 1) message]) =
      some (1, [clearSig (flatSeed 1) message]) :=
    decodeAdminQuorum_flatSigs 1 message (show [(1 : UInt8)].length ≤ 255 by decide)
  -- the bundle has the same signature in it, but it is longer than one
  refine ⟨_, clearSig (flatSeed 1) message, hsign, ?_, ?_, ?_, ?_⟩
  · refine (adminQuorumVerify_eq_ok_iff hdecode).mpr ⟨by decide, ?_⟩
    have hcount : alignedCount (mldsaValid · message) [paddedKey (flatSeed 1)]
        [clearSig (flatSeed 1) message] = 1 := by
      simp [alignedCount]
    exact (show (1 : UInt8).toNat = 1 by decide).trans_le hcount.ge
  · rw [adminCosigSign, orOther_eq_ok_iff, MlDsa87KeyPair.sign, signWithSeed,
      if_pos (show (seededAdmin 1).seed.length = mldsa87SeedLen from length_flatSeed 1)]
    rfl
  · refine verifyForcePushPolicyScoped_eq_ok_iff.mpr (.inr ⟨fun _ => rfl, ?_⟩)
    exact ⟨_, _, rfl, rfl, mldsaVerify_of_valid ((mldsaValid_flatSeed 1 1 message).trans rfl)⟩
  · refine verifyForcePushPolicyScoped_bundle (by decide) ?_
    exact length_ne_of_adminQuorumSign (fun seed message h => length_clearSig message h) hsign

/-- Two admins sign a bundle with threshold two, and the policy rejects it. -/
theorem quorumCosig_rejected_sample :
    ¬ ∃ bundle, adminQuorumSign [seededAdmin 1, seededAdmin 2] 2 sampleForced.repoId
        sampleForced.mlsEpoch "push" sampleForced.seq sampleForced.prevHeadHash
        (refsDigest sampleForcedRefs) (rosterDigest []) = .ok bundle ∧
      verifyForcePushPolicyScoped { sampleForced with adminCosig := some bundle } true
        .nonFastForward .full (some (paddedKey (flatSeed 1))) sampleForcedRefs [] = .ok () :=
  quorumCosig_rejected (fun _ message h => length_clearSig message h) sampleForced []
    sampleForcedRefs [seededAdmin 1, seededAdmin 2] 2 true .nonFastForward (by decide) .full _

end Sample

end SafeHub
