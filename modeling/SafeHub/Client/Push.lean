import SafeHub.Client.Fetch
import SafeHub.Lib.TreeMaps

/-!
# Pushing a bundle

A push reads the tip it plans against, then reads the tip again for every attempt, merges its
refs into those of the tip, seals and signs a head for the next sequence number, uploads the
chunks and appends the head. An append that loses the race is tried again on a fresh tip. What
the host answers to each request is arbitrary.

## Main definitions

* `pushedRefs`, `recomputedNonFf` — the refs a push asks for and its fast-forward check
* `reconcileRefsForCas` — merging them into the refs of a tip
* `PushPhase`, `PushArgs.next` — a push between two requests, and what an answer makes of it
* `RefPush.decide` — the command before its first request

## Main results

* `reconcileRefsForCas_eq_ok_iff` — which merges pass, and what they hold
* `Built` — what an attempt's head was made from, kept along a push
-/

namespace SafeHub

open Std (ExtTreeMap)

/-! ### The refs of a push -/

/-- Add the entries of a map whose names are not there yet. -/
def orInsert (refs more : RefMap) : RefMap :=
  more.toList.foldl (fun refs entry => refs.insertIfNew entry.1 entry.2) refs

/-- The refs a push asks for: those of the remote, with its destination at its object id. -/
def pushedRefs (dst oid : String) (remote : RefMap) : RefMap :=
  (orInsert ((∅ : RefMap).insert dst oid) remote).insert dst oid

/-- The fast-forward check of a push; what cannot be verified counts as not forward. -/
def recomputedNonFf (dag : Option GitDag) (remote gitRefs : RefMap) : Bool :=
  match classifyNonFf dag remote gitRefs with
  | .ok nonFf => nonFf
  | .error _ => true

/-- The entries of the caller's map that are not in the baseline. -/
def intendedRefs (baseline caller : RefMap) : List (String × String) :=
  caller.toList.filter fun entry => baseline[entry.1]? != some entry.2

/-- The names of the baseline that the caller's map lacks. -/
def deletedRefs (baseline caller : RefMap) : List String :=
  baseline.keys.filter fun name => !caller.contains name

/-- Whether the remote has moved a ref to something else than the caller's value. -/
def remoteMoved (baseline remote : RefMap) (entry : String × String) : Bool :=
  match remote[entry.1]? with
  | none => false
  | some oid => baseline[entry.1]? != some oid && oid != entry.2

/-- Merge the refs of a push into those of the tip it is appended to. -/
def reconcileRefsForCas (baseline caller remote : RefMap) (allowNonFf : Bool) :
    Except ClientError RefMap :=
  let intended := intendedRefs baseline caller
  let deleted := deletedRefs baseline caller
  if !allowNonFf && intended.any (remoteMoved baseline remote) then
    .error (.other ("the remote advanced while this push was in flight; run " ++
      "`sit pull` to merge, then push again"))
  else
    let merged := remote.insertMany intended
    .ok (if allowNonFf then deleted.foldl (fun refs name => refs.erase name) merged else merged)

/-! ### The push as a sequence of requests -/

/-- What a push is called with. -/
structure PushArgs where
  repo : RepoId
  bundle : Bytes
  gitRefs : RefMap
  headSymref : Option String
  material : EpochMaterial Bytes Bytes
  keys : LocalKeys
  nonFf : Bool
  maxRetries : ℕ

/-- How often a push is tried again. -/
def defaultCasRetries : ℕ := 16

/-- One attempt: the tip it was planned on, its random bytes, and the head that came of it. -/
structure Attempt (D : Type) where
  tip : Option (RefHead D)
  random : PushRandom
  head : RefHead D
  refs : EncryptedRefsMap

/-- Result of an accepted push. -/
structure PushResult (D : Type) where
  head : RefHead D
  headHash : HeadHash D
  refs : EncryptedRefsMap

/-- A push between two requests: what it asks for next. -/
inductive PushPhase (D : Type)
  /-- The tip to plan against. -/
  | start
  /-- The tip for the next attempt. -/
  | tip (baseline : RefMap) (attempt : ℕ)
  /-- The upload of the chunks. -/
  | upload (baseline : RefMap) (attempt : ℕ) (chunks : List (EncryptedChunk D)) (made : Attempt D)
  /-- The append of the head. -/
  | append (baseline : RefMap) (attempt : ℕ) (made : Attempt D)
  | done (result : Except ClientError (PushResult D))

/-- An answer of the host. -/
inductive HostReply (D : Type)
  | headTip (reply : Except ClientError (Option (RefHead D)))
  | putBlob (reply : EncryptedChunk D → Except ClientError Unit)
  | appendHead (reply : Except ClientError (HeadHash D))

section Requests

variable {D : Type} [Sha512 D] [HashPrimitives] [MlDsa87] [RefsCodec] [HexCodec D]

/-- The refs of a tip; there are none without a tip. -/
def tipRefs (material : EpochMaterial Bytes Bytes) (draws : RefHead D → Draws Bytes) :
    Option (RefHead D) → Except ClientError RefMap
  | some head => (openRefsMap material (draws head) head).map EncryptedRefsMap.refs
  | none => .ok ∅

/-- The hash and the number that the head after a tip has to carry. -/
def nextHead : Option (RefHead D) → HeadHash D × UInt64
  | some head => (head.hash, head.seq + 1)
  | none => (Sha512.zero, 1)

/-- One attempt on a tip: open its refs, merge, and plan the head after it. -/
def PushArgs.plan (args : PushArgs) (draws : RefHead D → Draws Bytes) (random : PushRandom)
    (baseline : RefMap) (tip : Option (RefHead D)) :
    Except ClientError (List (EncryptedChunk D) × Attempt D) := do
  let (prev, nextSeq) := nextHead tip
  let remote ← tipRefs args.material draws tip
  let merged ← reconcileRefsForCas baseline args.gitRefs remote args.nonFf
  let (plan, head, refs) ← planPushReader args.repo args.bundle merged args.headSymref
    args.material prev nextSeq args.nonFf args.keys random
  return (plan.chunks, ⟨tip, random, head, refs⟩)

/-- What becomes of an attempt whose append is answered. -/
def PushArgs.settle (args : PushArgs) (baseline : RefMap) (attempt : ℕ) (made : Attempt D) :
    Except ClientError (HeadHash D) → PushPhase D
  | .ok hash => .done (.ok ⟨made.head, hash, made.refs⟩)
  | .error e =>
    if e.isCasConflict then
      -- a retry keeps the baseline of the first tip
      if attempt < args.maxRetries then .tip baseline (attempt + 1)
      else
        .done (.error (.other (s!"push lost the compare-and-swap race {args.maxRetries} times: " ++
          "another device is pushing concurrently. Your commits are safe locally; run " ++
          "`sit pull` and push again.")))
    else .done (.error e)

/-- What an answer makes of a push. An answer to another request than the one it is waiting for
does not arrive. -/
def PushArgs.next (args : PushArgs) (draws : RefHead D → Draws Bytes) (random : PushRandom) :
    PushPhase D → HostReply D → Option (PushPhase D)
  | .start, .headTip reply =>
    match reply >>= tipRefs args.material draws with
    | .error e => some (.done (.error e))
    | .ok baseline => some (.tip baseline 0)
  | .tip baseline attempt, .headTip reply =>
    match reply >>= args.plan draws random baseline with
    | .error e => some (.done (.error e))
    | .ok (chunks, made) => some (.upload baseline attempt chunks made)
  | .upload baseline attempt chunks made, .putBlob reply =>
    match chunks.forM reply with
    | .error e => some (.done (.error e))
    | .ok () => some (.append baseline attempt made)
  | .append baseline attempt made, .appendHead reply =>
    some (args.settle baseline attempt made reply)
  | _, _ => none

end Requests

/-! ### The command -/

/-- A destination as a full ref name. -/
def dstRef (dst : String) : String :=
  if "refs/".toList.isPrefixOf dst.toList then dst else "refs/heads/" ++ dst

/-- A push command with the device and the local repository it runs in. -/
structure RefPush (D : Type) where
  repo : RepoId
  dst : String
  force : Bool
  /-- The object id that the source resolves to. -/
  oid : String
  /-- The bundle that git makes when it leaves out what these object ids reach. -/
  bundle : List String → Bytes
  dag : Option GitDag
  material : EpochMaterial Bytes Bytes
  keys : LocalKeys
  /-- The random bytes drawn when the refs of a tip are opened. -/
  draws : RefHead D → Draws Bytes

/-- What a push command does once it has the tip. -/
inductive PushDecision
  /-- The tip cannot be read, so a fast-forward cannot be proven. -/
  | unverified (error : ClientError)
  | upToDate
  /-- The remote contains work that is not here. -/
  | rejected
  /-- Go on, with the refs that the fast-forward check was made against. -/
  | push (checked : RefMap) (args : PushArgs)

section Command

variable {D : Type} [Sha512 D] [HashPrimitives] [MlDsa87] [RefsCodec] [HexCodec D]

/-- Download and decrypt the tip. -/
def fetchTip (repo : RepoId) (material : EpochMaterial Bytes Bytes) (host : HostReplies D)
    (draws : RefHead D → OpenDraws) : Except ClientError (Option (FetchResult D)) := do
  match ← host.headTip with
  | none => return none
  | some head => (fetchHeadBundle repo material host draws head).map some

/-- Decide on a push from the tip that was read. An unreadable tip stops it, unless it is forced. -/
def RefPush.decide (push : RefPush D) (tip : Except ClientError (Option (FetchResult D))) :
    PushDecision :=
  -- a forced push goes on without the refs of an unreadable tip
  match (if push.force then .ok (tip.toOption.getD none) else tip) with
  | .error e => .unverified e
  | .ok tip =>
    let remote := (tip.map fun fetched => fetched.refs.refs).getD ∅
    let dst := dstRef push.dst
    if remote[dst]? = some push.oid then .upToDate
    else
      let gitRefs := pushedRefs dst push.oid remote
      let nonFf := recomputedNonFf push.dag remote gitRefs
      if nonFf && !push.force then .rejected
      else
        -- forced pushes are labelled even when they are fast-forwards
        .push remote {
          repo := push.repo
          bundle := push.bundle remote.values
          gitRefs := gitRefs
          headSymref := some ("ref: " ++ dst)
          material := push.material
          keys := push.keys
          nonFf := nonFf || push.force
          maxRetries := defaultCasRetries }

end Command

/-! ### What a merge holds -/

section Merge

variable {refs more baseline caller remote merged : RefMap} {name dst oid : String} {nonFf : Bool}

theorem getElem?_foldl_insertIfNew {entries : List (String × String)} :
    (entries.foldl (fun refs entry => refs.insertIfNew entry.1 entry.2) refs)[name]? =
      refs[name]?.or ((entries.find? (compare ·.1 name == .eq)).map Prod.snd) := by
  induction entries generalizing refs with
  | nil => simp
  | cons entry entries ih =>
    rw [List.foldl_cons, ih, ExtTreeMap.getElem?_insertIfNew]
    by_cases hname : entry.1 = name
    · subst hname
      by_cases hmem : entry.1 ∈ refs
      · simp [hmem]
      · simp [hmem]
    · simp [hname]

/-- What a map holds after those of another were added. -/
theorem getElem?_orInsert : (orInsert refs more)[name]? = refs[name]?.or more[name]? := by
  rw [orInsert, getElem?_foldl_insertIfNew]
  congr 1
  cases hmore : more[name]? with
  | none =>
    have hmem : ¬ name ∈ more := fun hmem => by
      rw [ExtTreeMap.mem_iff_isSome_getElem?, hmore] at hmem
      cases hmem
    rw [ExtTreeMap.find?_toList_eq_none_iff_not_mem.mpr hmem, Option.map_none]
  | some value =>
    have hmem : name ∈ more := ExtTreeMap.mem_iff_isSome_getElem?.mpr (by rw [hmore]; rfl)
    have hkey : more.getKey? name = some name := ExtTreeMap.getKey?_eq_some hmem
    rw [ExtTreeMap.find?_toList_eq_some_iff_getKey?_eq_some_and_getElem?_eq_some.mpr ⟨hkey, hmore⟩,
      Option.map_some]

/-- A push asks for the refs of the remote, all but its destination. -/
theorem pushedRefs_eq : pushedRefs dst oid remote = remote.insert dst oid := by
  ext1 name
  rw [pushedRefs, ExtTreeMap.getElem?_insert, ExtTreeMap.getElem?_insert, getElem?_orInsert,
    ExtTreeMap.getElem?_insert]
  split_ifs with hname
  · rfl
  · simp

theorem mem_intendedRefs_iff {entry : String × String} :
    entry ∈ intendedRefs baseline caller ↔
      caller[entry.1]? = some entry.2 ∧ baseline[entry.1]? ≠ some entry.2 := by
  rw [intendedRefs, List.mem_filter, bne_iff_ne]
  exact and_congr_left fun _ => ExtTreeMap.mem_toList_iff_getElem?_eq_some

theorem remoteMoved_eq_false_iff {entry : String × String} :
    remoteMoved baseline remote entry = false ↔
      remote[entry.1]? = none ∨ remote[entry.1]? = baseline[entry.1]? ∨
        remote[entry.1]? = some entry.2 := by
  rw [remoteMoved]
  cases hremote : remote[entry.1]? with
  | none => simp
  | some value =>
    rw [Bool.and_eq_false_iff, bne_eq_false_iff_eq, bne_eq_false_iff_eq, Option.some_inj]
    simp only [reduceCtorEq, false_or]
    exact or_congr_left eq_comm

/-- A merge overlays what the caller meant to change. -/
theorem getElem?_insertMany_intendedRefs :
    (remote.insertMany (intendedRefs baseline caller))[name]? =
      if caller[name]? = baseline[name]? then remote[name]?
      else caller[name]?.or remote[name]? := by
  have hdistinct : (intendedRefs baseline caller).Pairwise
      fun a b => ¬ compare a.1 b.1 = .eq := ExtTreeMap.distinct_keys_toList.filter _
  -- either the caller meant to change this name, or the tip decides it
  by_cases hintended : ∃ value, (name, value) ∈ intendedRefs baseline caller
  · obtain ⟨value, hmem⟩ := hintended
    obtain ⟨hcaller, hbaseline⟩ := mem_intendedRefs_iff.mp hmem
    rw [ExtTreeMap.getElem?_insertMany_list_of_mem Std.ReflCmp.compare_self hdistinct hmem, hcaller,
      if_neg (Ne.symm hbaseline), Option.some_or]
  · have hnone : ((intendedRefs baseline caller).map Prod.fst).contains name = false := by
      rw [Bool.eq_false_iff, ne_eq, List.contains_iff_mem, List.mem_map]
      intro ⟨entry, hmem, hname⟩
      exact hintended ⟨entry.2, hname ▸ hmem⟩
    rw [ExtTreeMap.getElem?_insertMany_list_of_contains_eq_false hnone]
    split_ifs with hsame
    · rfl
    · cases hcaller : caller[name]? with
      | none => rw [Option.none_or]
      | some value =>
        rw [hcaller] at hsame
        exact absurd ⟨value, mem_intendedRefs_iff.mpr ⟨hcaller, Ne.symm hsame⟩⟩ hintended

theorem mem_deletedRefs_iff :
    name ∈ deletedRefs baseline caller ↔ baseline[name]? ≠ none ∧ caller[name]? = none :=
  TreeMaps.mem_removed_iff

/-- Where the caller has what the baseline has, a merge leaves the tip alone. Elsewhere the caller
decides, and a push that may not drop refs keeps those that the caller lacks. -/
theorem getElem?_merged (h : reconcileRefsForCas baseline caller remote nonFf = .ok merged) :
    merged[name]? = if caller[name]? = baseline[name]? then remote[name]?
      else if nonFf then caller[name]? else caller[name]?.or remote[name]? := by
  rw [reconcileRefsForCas] at h
  dsimp only at h
  split_ifs at h with hmoved hdrops
  · obtain rfl := Except.ok.inj h
    rw [TreeMaps.getElem?_foldl_erase, getElem?_insertMany_intendedRefs, if_pos hdrops]
    by_cases hsame : caller[name]? = baseline[name]?
    · have hkept : name ∉ deletedRefs baseline caller := by
        rw [mem_deletedRefs_iff]
        rintro ⟨hsome, hnone⟩
        exact hsome (hsame ▸ hnone)
      rw [if_neg hkept, if_pos hsame, if_pos hsame]
    · -- the caller's value is written, and a name that it lacks is erased
      rw [if_neg hsame, if_neg hsame]
      cases hcaller : caller[name]? with
      | none =>
        rw [hcaller] at hsame
        rw [if_pos (mem_deletedRefs_iff.mpr ⟨Ne.symm hsame, hcaller⟩)]
      | some value =>
        have hkept : name ∉ deletedRefs baseline caller := by
          rw [mem_deletedRefs_iff, hcaller]
          rintro ⟨-, hnone⟩
          cases hnone
        rw [if_neg hkept, Option.some_or]
  · obtain rfl := Except.ok.inj h
    rw [getElem?_insertMany_intendedRefs, if_neg hdrops]

/-- The remote has moved no ref that the caller moves elsewhere. -/
def Mergeable (baseline caller remote : RefMap) : Prop :=
  ∀ (name oid : String), caller[name]? = some oid → baseline[name]? ≠ some oid →
    remote[name]? = none ∨ remote[name]? = baseline[name]? ∨ remote[name]? = some oid

theorem any_remoteMoved_iff :
    (intendedRefs baseline caller).any (remoteMoved baseline remote) = true ↔
      ¬ Mergeable baseline caller remote := by
  rw [← Bool.not_eq_false, not_iff_not, List.any_eq_false]
  constructor
  · intro h name oid hcaller hbaseline
    have hmoved := h (name, oid) (mem_intendedRefs_iff.mpr ⟨hcaller, hbaseline⟩)
    exact remoteMoved_eq_false_iff.mp (Bool.eq_false_iff.mpr hmoved)
  · intro h entry hmem
    obtain ⟨hcaller, hbaseline⟩ := mem_intendedRefs_iff.mp hmem
    rw [Bool.not_eq_true, remoteMoved_eq_false_iff]
    exact h entry.1 entry.2 hcaller hbaseline

/-- Which fast-forward merges pass, and what they hold. -/
theorem reconcileRefsForCas_eq_ok_iff :
    reconcileRefsForCas baseline caller remote false = .ok merged ↔
      Mergeable baseline caller remote ∧
        remote.insertMany (intendedRefs baseline caller) = merged := by
  simp only [reconcileRefsForCas, Bool.not_false, Bool.true_and, Bool.false_eq_true, if_false]
  split_ifs with hmoved
  · exact iff_of_false nofun fun h => any_remoteMoved_iff.mp hmoved h.1
  · rw [Except.ok.injEq, and_iff_right]
    exact not_not.mp fun h => hmoved (any_remoteMoved_iff.mpr h)

end Merge

/-! ### What an attempt is made of -/

section Attempts

variable {D : Type} [Sha512 D] [HashPrimitives] [MlDsa87] [RefsCodec] [HexCodec D]
variable {args : PushArgs} {draws : RefHead D → Draws Bytes} {random : PushRandom}
variable {baseline : RefMap} {tip : Option (RefHead D)} {made : Attempt D}
variable {chunks : List (EncryptedChunk D)}

/-- The head of an attempt holds the merge of its push into the refs of its tip, sealed for the
number after the tip's. -/
def Attempt.Built (made : Attempt D) (args : PushArgs) (draws : RefHead D → Draws Bytes)
    (baseline : RefMap) : Prop :=
  ∃ remote merged epochKey, tipRefs args.material draws made.tip = .ok remote ∧
    reconcileRefsForCas baseline args.gitRefs remote args.nonFf = .ok merged ∧
    Planned args.repo args.bundle merged args.material (nextHead made.tip).1 (nextHead made.tip).2
      args.nonFf made.random epochKey made.head made.refs

theorem built_of_plan (h : args.plan draws random baseline tip = .ok (chunks, made)) :
    made.Built args draws baseline ∧ made.tip = tip ∧ made.random = random := by
  obtain ⟨remote, hremote, h⟩ := bind_eq_ok_iff.mp h
  obtain ⟨merged, hmerged, h⟩ := bind_eq_ok_iff.mp h
  obtain ⟨⟨plan, head, refs⟩, hplan, h⟩ := bind_eq_ok_iff.mp h
  obtain ⟨-, rfl⟩ := Prod.mk.inj (Except.ok.inj h)
  obtain ⟨epochKey, hplanned⟩ := planned_of_buildPushPlan hplan
  exact ⟨⟨remote, merged, epochKey, hremote, hmerged, hplanned⟩, rfl, rfl⟩

/-- The first tip that opens is the baseline. -/
theorem PushArgs.next_start (htip : tipRefs args.material draws tip = .ok baseline) :
    args.next draws random .start (.headTip (.ok tip)) = some (.tip baseline 0) := by
  have hread : (Except.ok tip >>= tipRefs args.material draws) = .ok baseline := htip
  simp only [PushArgs.next, hread]

/-- A tip that an attempt can be planned on has it uploaded. -/
theorem PushArgs.next_tip {attempt : ℕ}
    (hplan : args.plan draws random baseline tip = .ok (chunks, made)) :
    args.next draws random (.tip baseline attempt) (.headTip (.ok tip)) =
      some (.upload baseline attempt chunks made) := by
  have hread : (Except.ok tip >>= args.plan draws random baseline) = .ok (chunks, made) := hplan
  simp only [PushArgs.next, hread]

/-- Once its chunks are stored an attempt is appended. -/
theorem PushArgs.next_upload {attempt : ℕ} :
    args.next draws random (.upload baseline attempt chunks made) (.putBlob fun _ => .ok ()) =
      some (.append baseline attempt made) := by
  have hput : chunks.forM (fun _ => (.ok () : Except ClientError Unit)) = .ok () :=
    forM_eq_ok_iff.mpr fun _ _ => rfl
  simp only [PushArgs.next, hput]

/-- The attempt that a push is about to upload or to append, with the baseline it merged from. -/
def PushPhase.pending : PushPhase D → Option (RefMap × Attempt D)
  | .upload baseline _ _ made => some (baseline, made)
  | .append baseline _ made => some (baseline, made)
  | _ => none

/-- The first tip makes no attempt. -/
theorem pending_of_next_start {next : PushPhase D} {reply : HostReply D}
    (h : args.next draws random .start reply = some next) : next.pending = none := by
  cases reply with
  | headTip reply =>
    simp only [PushArgs.next] at h
    cases hread : reply >>= tipRefs args.material draws with
    | error e =>
      rw [hread] at h
      exact Option.some.inj h ▸ rfl
    | ok baseline =>
      rw [hread] at h
      exact Option.some.inj h ▸ rfl
  | putBlob reply => cases h
  | appendHead reply => cases h

omit [Sha512 D] [HashPrimitives] [MlDsa87] [RefsCodec] [HexCodec D] in
/-- An answer to the append ends the attempt, in a retry as well. -/
theorem pending_settle {attempt : ℕ} {reply : Except ClientError (HeadHash D)} :
    (args.settle baseline attempt made reply).pending = none := by
  cases reply with
  | ok hash => rfl
  | error e =>
    rw [PushArgs.settle]
    split_ifs <;> rfl

/-- An attempt that a push holds after an answer is the one it held before, or is planned on the
tip that was answered. -/
theorem pending_of_next {phase next : PushPhase D} {reply : HostReply D}
    (h : args.next draws random phase reply = some next)
    (hmade : next.pending = some (baseline, made)) :
    phase.pending = some (baseline, made) ∨
      ∃ tip, reply = .headTip (.ok tip) ∧ made.tip = tip ∧ made.random = random ∧
        made.Built args draws baseline := by
  cases phase with
  | start =>
    rw [pending_of_next_start h] at hmade
    cases hmade
  | tip baseline' attempt =>
    cases reply with
    | headTip reply =>
      simp only [PushArgs.next] at h
      cases hread : reply >>= args.plan draws random baseline' with
      | error e =>
        rw [hread] at h
        obtain rfl := Option.some.inj h
        cases hmade
      | ok planned =>
        rw [hread] at h
        obtain rfl := Option.some.inj h
        -- a new attempt, planned on the tip that has just come
        obtain ⟨tip, htip, hplan⟩ := bind_eq_ok_iff.mp hread
        obtain ⟨rfl, rfl⟩ := Prod.mk.inj (Option.some.inj hmade)
        obtain ⟨hbuilt, hfrom, hrandom⟩ := built_of_plan hplan
        exact .inr ⟨tip, by rw [htip], hfrom, hrandom, hbuilt⟩
    | putBlob reply => cases h
    | appendHead reply => cases h
  | upload baseline' attempt chunks made' =>
    cases reply with
    | headTip reply => cases h
    | putBlob reply =>
      simp only [PushArgs.next] at h
      cases hput : chunks.forM reply with
      | error e =>
        rw [hput] at h
        obtain rfl := Option.some.inj h
        cases hmade
      | ok =>
        rw [hput] at h
        obtain rfl := Option.some.inj h
        -- uploading leaves the attempt as it is
        exact .inl hmade
    | appendHead reply => cases h
  | append baseline' attempt made' =>
    cases reply with
    | headTip reply => cases h
    | putBlob reply => cases h
    | appendHead reply =>
      obtain rfl := Option.some.inj h
      rw [pending_settle] at hmade
      cases hmade
  | done result => cases reply <;> cases h

/-- What a push that goes on asks for. -/
structure RefPush.Asks (push : RefPush D) (checked : RefMap) (args : PushArgs) : Prop where
  material : args.material = push.material
  gitRefs : args.gitRefs = pushedRefs (dstRef push.dst) push.oid checked
  forward : args.nonFf = false → FastForwardUpdate push.dag checked args.gitRefs

omit [HashPrimitives] [MlDsa87] [RefsCodec] in
theorem recomputedNonFf_eq_false_iff {dag : Option GitDag} {remote gitRefs : RefMap} :
    recomputedNonFf dag remote gitRefs = false ↔ FastForwardUpdate dag remote gitRefs := by
  rw [← classifyFf_eq_fastForward_iff, recomputedNonFf, classifyNonFf]
  cases classifyFf dag remote gitRefs with
  | error e => simp [Except.map]
  | ok status => cases status <;> simp [Except.map, FfStatus.isNonFf]

omit [Sha512 D] [HexCodec D] [HashPrimitives] [MlDsa87] [RefsCodec] in
theorem asks_of_decide {push : RefPush D} {tip : Except ClientError (Option (FetchResult D))}
    {checked : RefMap} (h : push.decide tip = .push checked args) : push.Asks checked args := by
  unfold RefPush.decide at h
  split at h
  · cases h
  · dsimp only at h
    split_ifs at h with hsame hrejected
    obtain ⟨rfl, rfl⟩ := PushDecision.push.inj h
    refine ⟨rfl, rfl, fun hforward => ?_⟩
    exact recomputedNonFf_eq_false_iff.mp (Bool.or_eq_false_iff.mp hforward).1

end Attempts

/-! ### Pushes of the device -/

section Sample

attribute [local instance] transparentSha512 transparentHash transparentMlDsa87 framedRefsCodec
  plainHexCodec

/-- A push of the device that has to be a fast-forward. -/
def deviceArgs (gitRefs : RefMap) (headSymref : Option String) : PushArgs where
  repo := Vector.replicate 32 1
  bundle := [1]
  gitRefs := gitRefs
  headSymref := headSymref
  material := deviceMaterial
  keys := deviceKeys
  nonFf := false
  maxRetries := defaultCasRetries

/-- What the device draws when it opens a head. -/
def flatDraws (_ : RefHead Bytes) : Draws Bytes := ⟨[], []⟩

/-- The epoch key of the device. -/
def deviceEpochKey : Bytes := SeedKdf.expand (List.replicate 48 1 : Bytes) (dkrEpochInfo 0)

theorem deviceMaterial_epochKey (draws : Draws Bytes) :
    deviceMaterial.epochKey draws = .ok deviceEpochKey :=
  deviceMaterial_epochKeyAt draws

/-- The device plans a head on every tip that it can open and merge with, and can open it. -/
theorem exists_devicePlan {gitRefs baseline remote merged : RefMap}
    {tip : Option (RefHead Bytes)} (headSymref : Option String) (random : PushRandom)
    (htip : tipRefs deviceMaterial flatDraws tip = .ok remote)
    (hmerged : reconcileRefsForCas baseline gitRefs remote false = .ok merged) :
    ∃ chunks made,
      (deviceArgs gitRefs headSymref).plan flatDraws random baseline tip = .ok (chunks, made) ∧
      made.tip = tip ∧ made.random = random ∧
      Planned (Vector.replicate 32 1) [1] merged deviceMaterial (nextHead tip).1 (nextHead tip).2
        false random deviceEpochKey made.head made.refs ∧
      made.refs.head = headSymref ∧ made.head.adminCosig = none ∧
      made.head.pusherSig.length = mldsa87SigLen := by
  obtain ⟨plan, head, refs, hplan, hhead, hcosig, hsig⟩ := exists_buildPushPlan
    (Vector.replicate 32 1) [1] merged headSymref (nextHead tip).1 (nextHead tip).2
    (deviceMaterial_epochKey random.epoch) (rfl : deviceKeys.group = .ok _) (length_flatSeed 7)
  obtain ⟨epochKey, hplanned⟩ := planned_of_buildPushPlan hplan
  obtain rfl := Except.ok.inj ((deviceMaterial_epochKey random.epoch).symm.trans hplanned.key)
  refine ⟨plan.chunks, ⟨tip, random, head, refs⟩, ?_, rfl, rfl, hplanned, hhead, hcosig, ?_⟩
  · refine bind_eq_ok_iff.mpr ⟨remote, htip, bind_eq_ok_iff.mpr ⟨merged, hmerged, ?_⟩⟩
    exact bind_eq_ok_iff.mpr ⟨(plan, head, refs), hplan, rfl⟩
  · rw [hsig]
    exact length_clearSig_flatSeed 7 _

theorem tipRefs_of_devicePlanned {repo : RepoId} {bundle : Bytes} {merged : RefMap} {prev : Bytes}
    {nextSeq : UInt64} {nonFf : Bool} {random : PushRandom} {head : RefHead Bytes}
    {refs : EncryptedRefsMap} (h : Planned repo bundle merged deviceMaterial prev nextSeq nonFf
      random deviceEpochKey head refs) :
    tipRefs deviceMaterial flatDraws (some head) = .ok merged := by
  have hopen : openRefsMap deviceMaterial (flatDraws head) head = .ok refs := by
    apply h.openRefsMap
    rw [h.mlsEpoch]
    exact deviceMaterial_epochKeyAt _
  rw [tipRefs, hopen]
  exact congrArg Except.ok h.gitRefs

end Sample

end SafeHub
