import SafeHub.Client.RefPush
import SafeHub.Lib.Run

/-!
# Replaying a log

The bundle of a head holds what its push found to be missing at the remote, so a reader
replays the bundles of all heads in order. A run of pushes, deletions, forks and pushes of the
remote helper appends to the logs of several repositories; between the call of the client and
the append of its head a push is in flight.

## Main definitions

* `LoggedHead`, `covered` — a head as a replay sees it, and the objects of a log
* `ReplayClosed` — every head's refs and prerequisites lie in the bundles up to it
* `replay`, `Builds` — importing the bundles of a log in order, and when that goes through
* `AppendOp`, `LogsState.step` — the operations that append heads
* `ForkStandsAlone` — a fork is taken of a tip whose bundle needs no other

## Main results

* `replayClosed_of_run` — logs are closed when all forks stand alone
* `replayClosed_fork_iff` — when the log of a fork is closed
-/

namespace SafeHub

open Reachability Run
open Std (ExtTreeMap)

/-- The objects of a bundle. -/
def GitBundle.objects (links : String → String → Prop) (bundle : GitBundle) : Set String :=
  delta links {oid | oid ∈ bundle.tips} {oid | oid ∈ bundle.excluded}

/-- The payload of a head that updates refs without adding objects. -/
def GitBundle.refOnly : GitBundle := ⟨[], []⟩

/-- A head as a replay sees it. -/
structure LoggedHead where
  refs : RefMap
  bundle : GitBundle

/-- The objects in the bundles of a log. -/
def covered (links : String → String → Prop) (log : List LoggedHead) : Set String :=
  {oid | ∃ head ∈ log, oid ∈ head.bundle.objects links}

/-- What the refs of a head reach lies in a set of objects. -/
def RefsWithin (links : String → String → Prop) (refs : RefMap) (objects : Set String) : Prop :=
  ∀ name oid : String, refs[name]? = some oid → reach links {oid} ⊆ objects

/-- The next head of a log names objects of the log and its own bundle, and its bundle
builds on objects of the log. -/
def ClosedHead (links : String → String → Prop) (log : List LoggedHead) (head : LoggedHead) :
    Prop :=
  RefsWithin links head.refs (covered links (log ++ [head])) ∧
    ∀ ex ∈ head.bundle.excluded, ex ∈ covered links log

/-- What any ref of a head reaches lies in the bundles up to that head, and what a bundle
leaves out lies in the bundles before it. -/
def ReplayClosed (links : String → String → Prop) (log : List LoggedHead) : Prop :=
  ∀ front head back, log = front ++ head :: back → ClosedHead links front head

open Classical in
/-- Import the bundles of a log in order into a store of objects. A bundle needs the objects it
leaves out. -/
noncomputable def replay (links : String → String → Prop) (store : Set String) :
    List LoggedHead → Option (Set String)
  | [] => some store
  | head :: rest =>
    if ∀ ex ∈ head.bundle.excluded, ex ∈ store then
      replay links (store ∪ head.bundle.objects links) rest
    else none

/-- What every bundle of a log leaves out lies in a store of objects or in the bundles before
it. -/
def Builds (links : String → String → Prop) (store : Set String) (log : List LoggedHead) : Prop :=
  ∀ front head back, log = front ++ head :: back →
    ∀ ex ∈ head.bundle.excluded, ex ∈ store ∪ covered links front

/-! ### Closed logs -/

section Logs

variable {links : String → String → Prop} {log more : List LoggedHead} {head : LoggedHead}
variable {refs : RefMap} {objects objects' store : Set String}

@[simp] theorem covered_nil : covered links [] = ∅ := by
  ext oid
  simp [covered]

theorem covered_append : covered links (log ++ more) = covered links log ∪ covered links more := by
  ext oid
  simp [covered, or_and_right, exists_or]

@[simp] theorem covered_singleton : covered links [head] = head.bundle.objects links := by
  ext oid
  simp [covered]

@[simp] theorem objects_refOnly : GitBundle.refOnly.objects links = ∅ := by
  ext oid
  simp [GitBundle.objects, GitBundle.refOnly, delta, reach]

theorem RefsWithin.mono (h : RefsWithin links refs objects) (hsub : objects ⊆ objects') :
    RefsWithin links refs objects' := fun name oid hoid => (h name oid hoid).trans hsub

theorem replayClosed_nil : ReplayClosed links [] := by
  intro front head back heq
  simp at heq

theorem replayClosed_concat_iff :
    ReplayClosed links (log ++ [head]) ↔ ReplayClosed links log ∧ ClosedHead links log head := by
  constructor
  · intro h
    refine ⟨fun front other back heq => ?_, h log head [] rfl⟩
    exact h front other (back ++ [head]) (by rw [heq, List.append_assoc, List.cons_append])
  · rintro ⟨hlog, hhead⟩ front other back heq
    rcases List.eq_nil_or_concat back with rfl | ⟨back, last, rfl⟩
    · obtain ⟨rfl, hlast⟩ := List.append_inj' heq rfl
      obtain rfl := List.singleton_inj.mp hlast
      exact hhead
    · rw [List.concat_eq_append, ← List.cons_append, ← List.append_assoc] at heq
      exact hlog front other back (List.append_inj' heq rfl).1

/-- The log of one head is closed when its bundle stands alone. -/
theorem replayClosed_singleton_iff :
    ReplayClosed links [head] ↔
      head.bundle.excluded = [] ∧ RefsWithin links head.refs (head.bundle.objects links) := by
  rw [← List.nil_append [head], replayClosed_concat_iff, ClosedHead, and_iff_right replayClosed_nil,
    List.nil_append, covered_singleton, covered_nil, and_comm]
  simp [List.eq_nil_iff_forall_not_mem]

/-- The refs of a closed log's last head lie in its bundles. -/
theorem ReplayClosed.refsWithin_getLast (h : ReplayClosed links log)
    (hlast : log.getLast? = some head) : RefsWithin links head.refs (covered links log) := by
  obtain ⟨front, rfl⟩ := List.getLast?_eq_some_iff.mp hlast
  exact (h front head [] rfl).1

theorem builds_cons_iff :
    Builds links store (head :: log) ↔
      (∀ ex ∈ head.bundle.excluded, ex ∈ store) ∧
        Builds links (store ∪ head.bundle.objects links) log := by
  have hcovered (front : List LoggedHead) : store ∪ covered links (head :: front) =
      store ∪ head.bundle.objects links ∪ covered links front := by
    rw [← List.singleton_append, covered_append, covered_singleton, Set.union_assoc]
  constructor
  · intro h
    refine ⟨fun ex hex => ?_, fun front other back heq ex hex => ?_⟩
    · have hfirst := h [] head log rfl ex hex
      rwa [covered_nil, Set.union_empty] at hfirst
    · rw [← hcovered]
      exact h (head :: front) other back (by rw [heq, List.cons_append]) ex hex
  · rintro ⟨hfirst, hrest⟩ front other back heq ex hex
    cases front with
    | nil =>
      obtain ⟨rfl, -⟩ := List.cons.inj heq
      exact .inl (hfirst ex hex)
    | cons first front =>
      obtain ⟨rfl, hback⟩ := List.cons.inj heq
      rw [hcovered]
      exact hrest front other back hback ex hex

/-- What a replay needs and what it leaves. -/
theorem replay_eq_some_iff :
    replay links store log = some objects ↔
      Builds links store log ∧ objects = store ∪ covered links log := by
  induction log generalizing store with
  | nil =>
    have hbuilds : Builds links store [] := fun front head back heq => by simp at heq
    rw [replay, Option.some_inj, covered_nil, Set.union_empty, and_iff_right hbuilds]
    exact eq_comm
  | cons head rest ih =>
    have hcovered : store ∪ covered links (head :: rest) =
        store ∪ head.bundle.objects links ∪ covered links rest := by
      rw [← List.singleton_append, covered_append, covered_singleton, Set.union_assoc]
    rw [replay, builds_cons_iff, hcovered, and_assoc, ← ih]
    split_ifs with hneeded
    · rw [and_iff_right hneeded]
    · exact iff_of_false nofun fun h => hneeded h.1

/-- A closed log can be replayed from the start. -/
theorem ReplayClosed.replay (h : ReplayClosed links log) :
    replay links ∅ log = some (covered links log) := by
  have hbuilds : Builds links ∅ log := fun front head back heq ex hex =>
    .inr ((h front head back heq).2 ex hex)
  rw [replay_eq_some_iff, Set.empty_union]
  exact ⟨hbuilds, rfl⟩

end Logs

/-! ### Operations that append heads -/

/-- A push from the call of the client on. -/
structure Flight where
  repo : RepoId
  /-- The refs the client is called with. -/
  caller : RefMap
  bundle : GitBundle
  nonFf : Bool
  /-- The refs of the tip the client has read first. -/
  baseline : Option RefMap

/-- The logs of all repositories, and the pushes in flight. -/
structure LogsState where
  logs : RepoId → List LoggedHead
  flights : ℕ → Option Flight

/-- No heads and no pushes. -/
def LogsState.initial : LogsState := ⟨fun _ => [], fun _ => none⟩

/-- An operation that appends a head, up to its call of the client, or a step of the client. -/
inductive AppendOp
  /-- The push command, which may be unable to read the tip. -/
  | push (pid : ℕ) (repo : RepoId) (git : LocalGit) (dag : Option GitDag) (src dst : String)
    (force : Bool) (tipError : Option ClientError)
  /-- The deletion of a ref. -/
  | delete (pid : ℕ) (repo : RepoId) (dst : String)
  /-- The push of the source's tip as the first head of a new repository. -/
  | fork (pid : ℕ) (source created : RepoId)
  /-- A push by the remote helper, which goes on without a tip it cannot read. -/
  | helperPush (pid : ℕ) (repo : RepoId) (git : LocalGit) (src dst : String) (force : Bool)
    (readable : Bool)
  /-- A deletion by the remote helper. -/
  | helperDelete (pid : ℕ) (repo : RepoId) (dst : String) (readable : Bool)
  /-- The client reads the tip it merges against. -/
  | baseline (pid : ℕ)
  /-- An attempt of the client is appended to the tip it was planned on. -/
  | append (pid : ℕ)

namespace LogsState

/-- The refs of a repository's tip. -/
def tipRefs (s : LogsState) (repo : RepoId) : Option RefMap :=
  (s.logs repo).getLast?.map LoggedHead.refs

/-- A push calls the client. -/
def launch (s : LogsState) (pid : ℕ) (flight : Flight) : Option LogsState :=
  if s.flights pid = none then
    some { s with flights := Function.update s.flights pid (some flight) }
  else none

/-- Remove a ref from those of the tip, in a head of its own. -/
def launchDelete (s : LogsState) (pid : ℕ) (repo : RepoId) (refs : RefMap) (dst : String) :
    Option LogsState :=
  if (refs[dstRef dst]?).isSome then
    s.launch pid ⟨repo, refs.erase (dstRef dst), .refOnly, true, none⟩
  else none

/-- An operation; none where it ends without calling the client, or cannot be taken. -/
def step (s : LogsState) : AppendOp → Option LogsState
  | .push pid repo git dag src dst force tipError =>
    let tip := match tipError with
      | some e => .error e
      | none => .ok (s.tipRefs repo)
    match runWithForce git dag src dst force tip with
    | .push bundle gitRefs _ nonFf => s.launch pid ⟨repo, gitRefs, bundle, nonFf, none⟩
    | _ => none
  | .delete pid repo dst => s.launchDelete pid repo ((s.tipRefs repo).getD ∅) dst
  | .fork pid source created =>
    match (s.logs source).getLast?, s.logs created with
    | some tip, [] => s.launch pid ⟨created, tip.refs, tip.bundle, false, none⟩
    | _, _ => none
  | .helperPush pid repo git src dst force readable =>
    let refs := if readable then (s.tipRefs repo).getD ∅ else ∅
    match git.revParse src with
    | .error _ => none
    | .ok oid =>
      if git.bundleCreate src [] then
        s.launch pid ⟨repo, refs.insert (dstRef dst) oid, ⟨[oid], []⟩, force, none⟩
      else none
  | .helperDelete pid repo dst readable =>
    s.launchDelete pid repo (if readable then (s.tipRefs repo).getD ∅ else ∅) dst
  | .baseline pid =>
    match s.flights pid with
    | some ⟨repo, caller, bundle, nonFf, none⟩ =>
      let flight := ⟨repo, caller, bundle, nonFf, some ((s.tipRefs repo).getD ∅)⟩
      some { s with flights := Function.update s.flights pid (some flight) }
    | _ => none
  | .append pid =>
    match s.flights pid with
    | some ⟨repo, caller, bundle, nonFf, some baseline⟩ =>
      match reconcileRefsForCas baseline caller ((s.tipRefs repo).getD ∅) nonFf with
      | .error _ => none
      | .ok merged => some {
          logs := Function.update s.logs repo (s.logs repo ++ [⟨merged, bundle⟩])
          flights := Function.update s.flights pid none }
    | _ => none

end LogsState

/-- A fork is taken of a tip whose bundle leaves nothing out and holds all that its refs
reach. -/
def ForkStandsAlone (links : String → String → Prop) (s : LogsState) : AppendOp → Prop
  | .fork _ source _ => ∀ tip, (s.logs source).getLast? = some tip →
    tip.bundle.excluded = [] ∧ RefsWithin links tip.refs (tip.bundle.objects links)
  | _ => True

/-! ### Runs -/

section Merge

variable {baseline caller remote merged : RefMap} {nonFf : Bool} {name oid : String}

/-- A merge takes its values from the caller and from the tip. -/
theorem getElem?_of_reconcile (h : reconcileRefsForCas baseline caller remote nonFf = .ok merged)
    (hoid : merged[name]? = some oid) : caller[name]? = some oid ∨ remote[name]? = some oid := by
  rw [getElem?_merged h] at hoid
  split_ifs at hoid
  · exact .inr hoid
  · exact .inl hoid
  · exact Option.or_eq_some_iff.mp hoid |>.imp id And.right

end Merge

section Runs

variable {links : String → String → Prop} {s t : LogsState} {op : AppendOp} {pid : ℕ}
variable {flight : Flight} {repo : RepoId} {refs : RefMap} {dst oid : String}
variable {objects : Set String}

/-- The refs and the prerequisites of a push in flight are objects of its repository, or of
its bundle. -/
structure Flight.Sound (links : String → String → Prop) (logs : RepoId → List LoggedHead)
    (flight : Flight) : Prop where
  refs : RefsWithin links flight.caller
    (covered links (logs flight.repo) ∪ flight.bundle.objects links)
  needed : ∀ ex ∈ flight.bundle.excluded, ex ∈ covered links (logs flight.repo)

/-- All logs are closed, and pushes in flight keep them so. -/
structure LogsState.Closed (links : String → String → Prop) (s : LogsState) : Prop where
  logs : ∀ repo, ReplayClosed links (s.logs repo)
  flights : ∀ pid flight, s.flights pid = some flight → flight.Sound links s.logs

theorem refsWithin_empty : RefsWithin links ∅ objects := by
  intro name oid h
  simp at h

theorem RefsWithin.insert (h : RefsWithin links refs objects) (hoid : reach links {oid} ⊆ objects) :
    RefsWithin links (refs.insert dst oid) objects := by
  intro name value hvalue
  rw [ExtTreeMap.getElem?_insert] at hvalue
  split_ifs at hvalue
  · rwa [← Option.some.inj hvalue]
  · exact h name value hvalue

theorem RefsWithin.erase (h : RefsWithin links refs objects) :
    RefsWithin links (refs.erase dst) objects := by
  intro name value hvalue
  rw [ExtTreeMap.getElem?_erase] at hvalue
  split_ifs at hvalue
  exact h name value hvalue

/-- Object ids that are left out of a push are those of refs. -/
theorem reach_subset_of_values {excluded : List String} (h : RefsWithin links refs objects)
    (hvalues : ∀ ex ∈ excluded, ex ∈ refOids refs) :
    reach links {ex | ex ∈ excluded} ⊆ objects := by
  refine reach_subset_iff.mpr fun ex hex => ?_
  obtain ⟨name, hname⟩ := mem_refOids_iff.mp (hvalues ex hex)
  exact h name ex hname

theorem LogsState.closed_initial : LogsState.initial.Closed links where
  logs := fun _ => replayClosed_nil
  flights := fun _ _ h => nomatch h

/-- The refs of a tip lie in the log. -/
theorem LogsState.Closed.refsWithin_tip (h : s.Closed links) :
    RefsWithin links ((s.tipRefs repo).getD ∅) (covered links (s.logs repo)) := by
  rw [LogsState.tipRefs]
  cases htip : (s.logs repo).getLast? with
  | none => exact refsWithin_empty
  | some tip => exact (h.logs repo).refsWithin_getLast htip

/-- A push that is sound may take off. -/
theorem LogsState.Closed.launch (h : s.Closed links) (hflight : flight.Sound links s.logs)
    (hlaunch : s.launch pid flight = some t) : t.Closed links := by
  rw [LogsState.launch] at hlaunch
  split_ifs at hlaunch
  obtain rfl := Option.some.inj hlaunch
  refine ⟨h.logs, fun pid' flight' hflight' => ?_⟩
  change Function.update s.flights pid (some flight) pid' = _ at hflight'
  rw [Function.update_apply] at hflight'
  split_ifs at hflight'
  · obtain rfl := Option.some.inj hflight'
    exact hflight
  · exact h.flights pid' flight' hflight'

theorem LogsState.Closed.launchDelete (h : s.Closed links)
    (hrefs : RefsWithin links refs (covered links (s.logs repo)))
    (hlaunch : s.launchDelete pid repo refs dst = some t) : t.Closed links := by
  rw [LogsState.launchDelete] at hlaunch
  split_ifs at hlaunch
  refine h.launch ⟨hrefs.erase.mono Set.subset_union_left, ?_⟩ hlaunch
  intro ex hex
  cases hex

/-- The push command leaves out refs of the tip it has read, and sends the rest of what its
source reaches. -/
theorem Flight.sound_push {logs : RepoId → List LoggedHead} {git : LocalGit} {dag : Option GitDag}
    {src : String} {force nonFf : Bool} {tip : Except ClientError (Option RefMap)}
    {bundle : GitBundle} {headSymref : Option String} {gitRefs : RefMap}
    (hremote : ∀ remote, remoteRefs force tip = .ok remote →
      RefsWithin links remote (covered links (logs repo)))
    (hpush : runWithForce git dag src dst force tip = .push bundle gitRefs headSymref nonFf) :
    Flight.Sound links logs ⟨repo, gitRefs, bundle, nonFf, none⟩ := by
  obtain ⟨remote, oid, hread, rfl, rfl⟩ := eq_of_runWithForce_push hpush
  have hwithin := hremote remote hread
  have hneeded : reach links {ex | ex ∈ git.negatives oid (refOids remote)} ⊆
      covered links (logs repo) :=
    reach_subset_of_values hwithin fun ex hex => (mem_negatives_iff.mp hex).1
  constructor
  · rw [pushedRefs_eq]
    refine (hwithin.mono Set.subset_union_left).insert ?_
    -- what the source reaches is in the bundle, or reached from what it leaves out
    intro y hy
    have hsplit : y ∈ delta links {oid} {ex | ex ∈ git.negatives oid (refOids remote)} ∪
        reach links {ex | ex ∈ git.negatives oid (refOids remote)} := reach_subset_delta_union hy
    rcases hsplit with hsent | hheld
    · refine .inr ?_
      simpa [GitBundle.objects] using hsent
    · exact .inl (hneeded hheld)
  · intro ex hex
    exact hneeded (subset_reach hex)

/-- A push of the remote helper sends all that its source reaches. -/
theorem Flight.sound_helperPush {logs : RepoId → List LoggedHead} {nonFf : Bool}
    (hrefs : RefsWithin links refs (covered links (logs repo))) :
    Flight.Sound links logs ⟨repo, refs.insert dst oid, ⟨[oid], []⟩, nonFf, none⟩ := by
  constructor
  · refine (hrefs.mono Set.subset_union_left).insert ?_
    intro y hy
    refine .inr ?_
    simpa [GitBundle.objects] using hy
  · intro ex hex
    cases hex

/-- A fork that stands alone is sound in a repository without heads. -/
theorem Flight.sound_fork {logs : RepoId → List LoggedHead} {tip : LoggedHead} {nonFf : Bool}
    (hexcluded : tip.bundle.excluded = [])
    (hrefs : RefsWithin links tip.refs (tip.bundle.objects links)) :
    Flight.Sound links logs ⟨repo, tip.refs, tip.bundle, nonFf, none⟩ := by
  constructor
  · exact hrefs.mono Set.subset_union_right
  · intro ex hex
    rw [hexcluded] at hex
    cases hex

/-- An attempt appended to the tip of its repository keeps the logs closed. -/
theorem LogsState.Closed.append {caller baseline merged : RefMap} {bundle : GitBundle}
    {nonFf : Bool} (h : s.Closed links)
    (hflight : s.flights pid = some ⟨repo, caller, bundle, nonFf, some baseline⟩)
    (hmerged : reconcileRefsForCas baseline caller ((s.tipRefs repo).getD ∅) nonFf = .ok merged) :
    LogsState.Closed links {
      logs := Function.update s.logs repo (s.logs repo ++ [⟨merged, bundle⟩])
      flights := Function.update s.flights pid none } := by
  obtain ⟨hrefs, hneeded⟩ := h.flights pid _ hflight
  have hgrow : covered links (s.logs repo) ∪ bundle.objects links =
      covered links (s.logs repo ++ [⟨merged, bundle⟩]) := by
    rw [covered_append, covered_singleton]
  have hhead : ClosedHead links (s.logs repo) ⟨merged, bundle⟩ := by
    refine ⟨fun name oid hoid => ?_, hneeded⟩
    rw [← hgrow]
    rcases getElem?_of_reconcile hmerged hoid with hcaller | hremote
    · exact hrefs name oid hcaller
    · exact (h.refsWithin_tip name oid hremote).trans Set.subset_union_left
  constructor
  · intro repo'
    dsimp only
    by_cases hrepo : repo' = repo
    · subst hrepo
      rw [Function.update_self]
      exact replayClosed_concat_iff.mpr ⟨h.logs _, hhead⟩
    · rw [Function.update_of_ne hrepo]
      exact h.logs repo'
  · intro pid' flight' hflight'
    simp only [Function.update_apply] at hflight'
    split_ifs at hflight'
    obtain ⟨hrefs', hneeded'⟩ := h.flights pid' flight' hflight'
    -- what lay in the log still does
    have hmono : covered links (s.logs flight'.repo) ⊆
        covered links (Function.update s.logs repo (s.logs repo ++ [⟨merged, bundle⟩])
          flight'.repo) := by
      by_cases hrepo : flight'.repo = repo
      · rw [hrepo, Function.update_self, ← hgrow]
        exact Set.subset_union_left
      · rw [Function.update_of_ne hrepo]
    exact ⟨hrefs'.mono (Set.union_subset_union_left _ hmono), fun ex hex => hmono (hneeded' ex hex)⟩

/-- Every operation keeps the logs closed, a fork if it stands alone. -/
theorem LogsState.Closed.step (h : s.Closed links) (hfork : ForkStandsAlone links s op)
    (hstep : s.step op = some t) : t.Closed links := by
  cases op with
  | push pid repo git dag src dst force tipError =>
    simp only [LogsState.step] at hstep
    split at hstep
    next bundle gitRefs headSymref nonFf hpush =>
      refine h.launch (Flight.sound_push (fun remote hread => ?_) hpush) hstep
      -- the refs of the tip, or none when it cannot be read
      cases tipError with
      | none =>
        obtain rfl := Except.ok.inj hread
        exact h.refsWithin_tip
      | some e =>
        simp only [remoteRefs] at hread
        split_ifs at hread
        obtain rfl := Except.ok.inj hread
        exact refsWithin_empty
    next => cases hstep
  | delete pid repo dst => exact h.launchDelete h.refsWithin_tip hstep
  | fork pid source created =>
    simp only [LogsState.step] at hstep
    split at hstep
    next tip htip hnew =>
      obtain ⟨hexcluded, hrefs⟩ := hfork tip htip
      exact h.launch (Flight.sound_fork hexcluded hrefs) hstep
    next => cases hstep
  | helperPush pid repo git src dst force readable =>
    simp only [LogsState.step] at hstep
    split at hstep
    next => cases hstep
    next oid hsrc =>
      split_ifs at hstep with hbundle hreadable
      · exact h.launch (Flight.sound_helperPush h.refsWithin_tip) hstep
      · exact h.launch (Flight.sound_helperPush refsWithin_empty) hstep
  | helperDelete pid repo dst readable =>
    refine h.launchDelete ?_ hstep
    split_ifs
    · exact h.refsWithin_tip
    · exact refsWithin_empty
  | baseline pid =>
    simp only [LogsState.step] at hstep
    split at hstep
    next repo caller bundle nonFf hflight =>
      obtain rfl := Option.some.inj hstep
      refine ⟨h.logs, fun pid' flight' hflight' => ?_⟩
      simp only [Function.update_apply] at hflight'
      split_ifs at hflight'
      · obtain rfl := Option.some.inj hflight'
        obtain ⟨hrefs, hneeded⟩ := h.flights pid _ hflight
        exact ⟨hrefs, hneeded⟩
      · exact h.flights pid' flight' hflight'
    next => cases hstep
  | append pid =>
    simp only [LogsState.step] at hstep
    split at hstep
    next repo caller bundle nonFf baseline hflight =>
      split at hstep
      next => cases hstep
      next merged hmerged =>
        obtain rfl := Option.some.inj hstep
        exact h.append hflight hmerged
    next => cases hstep

/-- In a run whose forks stand alone every log is closed, so that a replay of it from the
start succeeds. -/
theorem replayClosed_of_run {ops : List AppendOp}
    (hrun : run LogsState.step .initial ops = some s)
    (hforks : Along LogsState.step (ForkStandsAlone links) .initial ops) (repo : RepoId) :
    ReplayClosed links (s.logs repo) ∧
      replay links ∅ (s.logs repo) = some (covered links (s.logs repo)) := by
  have hclosed : s.Closed links := hforks.invariant
    (fun s op t hs hop hstep => LogsState.Closed.step hs hop hstep) LogsState.closed_initial hrun
  exact ⟨hclosed.logs repo, (hclosed.logs repo).replay⟩

/-- Into a repository without heads a merge takes the caller's refs as they are. -/
theorem reconcile_empty {caller : RefMap} : reconcileRefsForCas ∅ caller ∅ false = .ok caller := by
  refine reconcileRefsForCas_eq_ok_iff.mpr ⟨fun name oid _ _ => .inl (by simp), ?_⟩
  ext1 name
  rw [getElem?_insertMany_intendedRefs]
  split_ifs with hsame
  · exact hsame.symm
  · simp

/-- The log of a fork is closed exactly when the fork stands alone. -/
theorem replayClosed_fork_iff {source created : RepoId} {tip : LoggedHead}
    (htip : (s.logs source).getLast? = some tip) (hnew : s.logs created = [])
    (hidle : s.flights pid = none) :
    ∃ t, run LogsState.step s [.fork pid source created, .baseline pid, .append pid] = some t ∧
      (ReplayClosed links (t.logs created) ↔
        ForkStandsAlone links s (.fork pid source created)) := by
  refine ⟨{
    logs := Function.update s.logs created [⟨tip.refs, tip.bundle⟩]
    flights := Function.update s.flights pid none }, ?_, ?_⟩
  · simp [run_cons, LogsState.step, LogsState.launch, LogsState.tipRefs, htip, hnew, hidle,
      reconcile_empty]
  · dsimp only
    rw [Function.update_self, replayClosed_singleton_iff, ForkStandsAlone, htip]
    simp

end Runs

section Sample

/-- A repository and a fork of it. -/
def forkedRepo : RepoId := Vector.replicate 32 1

def createdRepo : RepoId := Vector.replicate 32 2

/-- A push of one of two branches, up to its append. -/
def pushBranch (pid : ℕ) (branch : String) : List AppendOp :=
  [.push pid forkedRepo twoCommits (some ⟨fun _ => true, fun _ _ => .ok true⟩) branch "main" false
    none, .baseline pid, .append pid]

/-- Two branches are pushed one after the other. -/
def pushBoth : List AppendOp := pushBranch 0 "old" ++ pushBranch 1 "main"

/-- After both pushes the repository is forked. -/
def forkAfterTwo : List AppendOp :=
  pushBoth ++ [.fork 2 forkedRepo createdRepo, .baseline 2, .append 2]

/-- The first head of the fork leaves out a commit that no bundle of it holds, so that no
replay of it succeeds. -/
theorem not_replayClosed_forkAfterTwo :
    ∃ s, run LogsState.step .initial forkAfterTwo = some s ∧
      ¬ ReplayClosed twoCommitsParents (s.logs createdRepo) ∧
      replay twoCommitsParents ∅ (s.logs createdRepo) = none := by
  have hlog : ((run LogsState.step .initial forkAfterTwo).map fun s =>
      (s.logs createdRepo).map LoggedHead.bundle) = some [⟨["b"], ["a"]⟩] := by decide +kernel
  obtain ⟨s, hrun, hbundles⟩ := Option.map_eq_some_iff.mp hlog
  obtain ⟨head, hlog, hbundle⟩ : ∃ head, s.logs createdRepo = [head] ∧
      head.bundle = ⟨["b"], ["a"]⟩ := by
    obtain ⟨head, rest, hlog, hbundle, hrest⟩ := List.map_eq_cons_iff.mp hbundles
    exact ⟨head, by rw [hlog, List.map_eq_nil_iff.mp hrest], hbundle⟩
  refine ⟨s, hrun, ?_, ?_⟩
  · rw [hlog, replayClosed_singleton_iff, hbundle]
    simp
  · simp [hlog, replay, hbundle]

/-- Without the fork all is well. -/
theorem replayClosed_of_run_pushes :
    ∃ s, run LogsState.step .initial pushBoth = some s ∧
      ReplayClosed twoCommitsParents (s.logs forkedRepo) ∧
      replay twoCommitsParents ∅ (s.logs forkedRepo) =
        some (covered twoCommitsParents (s.logs forkedRepo)) := by
  have hsome : (run LogsState.step .initial pushBoth).isSome = true := by decide +kernel
  obtain ⟨s, hrun⟩ := Option.isSome_iff_exists.mp hsome
  have hforks : Along LogsState.step (ForkStandsAlone twoCommitsParents) .initial
      pushBoth := by
    simp [pushBoth, pushBranch, Along, ForkStandsAlone]
  exact ⟨s, hrun, replayClosed_of_run hrun hforks forkedRepo⟩

end Sample

end SafeHub
