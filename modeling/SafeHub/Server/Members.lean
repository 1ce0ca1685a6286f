import SafeHub.Lib.Linearization

/-!
# Collaborators

The host keeps a record of the members of each repository in one file. A request to invite or
remove a collaborator reads the record for its check, reads it again, edits it and writes it back;
nothing is held over these steps. File contents are the records they hold, reads and writes of
the file are single steps, and the clock is part of a request.

## Main definitions

* `RepoMembers`, `loadMembers`, `isMember` — the record
* `CollabRequest`, `collabStep` — the requests, one file access at a time
* `serveCollab` — a request that runs alone
* `UpToDate` — what a request has read is still what is stored

## Main results

* `collab_linearized` — requests that save over what they read are linearized
* `collab_lost_update` — a removed collaborator who comes back
-/

namespace SafeHub

open Run

/-- Status of a response. -/
inductive StatusCode
  | badRequest
  | forbidden
  | notFound
  | conflict
  | internalServerError
  deriving DecidableEq, Repr

/-- An error response and its text. -/
structure HttpError where
  status : StatusCode
  message : String
  deriving DecidableEq, Repr

structure MemberEntry where
  user : String
  /-- `full` or `forward_only`. -/
  history : String
  invitedAt : String
  deriving DecidableEq, Repr

structure RepoMembers where
  owner : String
  members : List MemberEntry
  deriving DecidableEq, Repr

/-- The members record, which names the owner alone while there is no file. -/
def loadMembers (owner now : String) (file : Option RepoMembers) : RepoMembers :=
  match file with
  | none => { owner := owner, members := [{ user := owner, history := "full", invitedAt := now }] }
  | some m => m

def isMember (m : RepoMembers) (user : String) : Bool :=
  m.owner == user || m.members.any fun e => e.user == user

/-- What a request asks of the collaborators. -/
inductive CollabEdit
  /-- The history is `full` unless the body says otherwise. -/
  | invite (user : String) (history : Option String)
  | remove (target : String)
  deriving DecidableEq, Repr

/-- A request of an authenticated user, with the clock at the steps that read it. -/
structure CollabRequest where
  caller : String
  edit : CollabEdit
  /-- When the record is read for the check. -/
  checkedAt : String
  /-- When it is read again. -/
  loadedAt : String
  invitedAt : String
  deriving DecidableEq, Repr

def defaultFull : String := "full"

/-- The history that is recorded for an invited user. -/
def normalHistory (history : String) : String :=
  if history = "forward_only" ∨ history = "forward-only" then "forward_only" else "full"

namespace CollabRequest

/-- The text a refusal of this request carries; a removal is answered by a status alone. -/
def text (r : CollabRequest) (message : String) : String :=
  match r.edit with
  | .invite _ _ => message
  | .remove _ => ""

/-- Whether a request may go on, by the record read for the check. -/
def authorize (owner : String) (r : CollabRequest) (seen : RepoMembers) : Except HttpError Unit :=
  if isMember seen r.caller = false then .error ⟨.forbidden, r.text "forbidden"⟩
  else if r.caller ≠ owner then .error ⟨.forbidden, r.text "only owner can invite"⟩
  else .ok ()

/-- The record with the edit of a request. -/
def edited (r : CollabRequest) (m : RepoMembers) : RepoMembers :=
  match r.edit with
  | .invite user history =>
    if m.members.any fun e => e.user == user then m
    else { m with members := m.members ++ [{
        user := user
        history := normalHistory (history.getD defaultFull)
        invitedAt := r.invitedAt }] }
  | .remove target => { m with members := m.members.filter fun e => e.user ≠ target }

end CollabRequest

/-- How far a request has come. -/
inductive CollabPhase
  | arrived
  /-- The check has passed on the record it read. -/
  | checked (seen : RepoMembers)
  /-- The record has been read again. -/
  | loaded (seen m : RepoMembers)
  | finished (reply : Except HttpError RepoMembers)
  deriving DecidableEq, Repr

/-- The members file of a repository and the requests on it. -/
structure CollabState (ι : Type) where
  file : Option RepoMembers
  phase : ι → CollabPhase

variable {ι : Type} [DecidableEq ι]

def CollabState.start (file : Option RepoMembers) : CollabState ι := ⟨file, fun _ => .arrived⟩

/-- Move a request to its next phase. -/
def CollabState.setPhase (s : CollabState ι) (i : ι) (phase : CollabPhase) : CollabState ι :=
  { s with phase := Function.update s.phase i phase }

/-- The next file access of a request. -/
def collabStep (owner : String) (req : ι → CollabRequest) (s : CollabState ι) (i : ι) :
    Option (CollabState ι) :=
  match s.phase i with
  | .arrived =>
    let seen := loadMembers owner (req i).checkedAt s.file
    match (req i).authorize owner seen with
    | .error e => some (s.setPhase i (.finished (.error e)))
    | .ok () => some (s.setPhase i (.checked seen))
  | .checked seen => some (s.setPhase i (.loaded seen (loadMembers owner (req i).loadedAt s.file)))
  | .loaded _ m =>
    let m := (req i).edited m
    some ({ s with file := some m }.setPhase i (.finished (.ok m)))
  | .finished _ => none

/-- The reply to a request, once it has one. -/
def CollabState.reply (s : CollabState ι) (i : ι) : Option (Except HttpError RepoMembers) :=
  match s.phase i with
  | .finished reply => some reply
  | _ => none

/-- A request that runs alone. -/
def serveCollab (owner : String) (req : ι → CollabRequest) (i : ι) (file : Option RepoMembers) :
    Option RepoMembers × Except HttpError RepoMembers :=
  match (req i).authorize owner (loadMembers owner (req i).checkedAt file) with
  | .error e => (file, .error e)
  | .ok () =>
    let m := (req i).edited (loadMembers owner (req i).loadedAt file)
    (some m, .ok m)

/-- A request that is about to save has read what is still stored. -/
def UpToDate (owner : String) (req : ι → CollabRequest) (s : CollabState ι) (i : ι) : Prop :=
  match s.phase i with
  | .loaded seen m =>
    loadMembers owner (req i).checkedAt s.file = seen ∧
      loadMembers owner (req i).loadedAt s.file = m
  | _ => True

instance (owner : String) (req : ι → CollabRequest) (s : CollabState ι) (i : ι) :
    Decidable (UpToDate owner req s i) :=
  match h : s.phase i with
  | .loaded seen m =>
    decidable_of_iff (loadMembers owner (req i).checkedAt s.file = seen ∧
      loadMembers owner (req i).loadedAt s.file = m) (by rw [UpToDate, h])
  | .arrived | .checked _ | .finished _ => .isTrue (by rw [UpToDate, h]; trivial)

/-- Requests have passed the check before they read again. -/
def Authorized (owner : String) (req : ι → CollabRequest) (s : CollabState ι) : Prop :=
  ∀ i, match s.phase i with
  | .checked seen => (req i).authorize owner seen = .ok ()
  | .loaded seen _ => (req i).authorize owner seen = .ok ()
  | _ => True

variable {owner : String} {req : ι → CollabRequest} {s t : CollabState ι} {i : ι}

/-! ### Requests run as if alone -/

@[simp] theorem CollabState.phase_setPhase (phase : CollabPhase) :
    (s.setPhase i phase).phase = Function.update s.phase i phase := rfl

@[simp] theorem CollabState.file_setPhase (phase : CollabPhase) :
    (s.setPhase i phase).file = s.file := rfl

/-- A request that is not finished by a step has no reply after it. -/
theorem CollabState.reply_setPhase (phase : CollabPhase) (file : Option RepoMembers) :
    ({ s with file := file }.setPhase i phase).reply =
      Function.update s.reply i (match phase with
        | .finished reply => some reply
        | _ => none) := by
  funext j
  by_cases hj : j = i
  · subst hj
    simp only [CollabState.reply, CollabState.phase_setPhase, Function.update_self]
  · simp only [CollabState.reply, CollabState.phase_setPhase, Function.update_of_ne hj]

theorem Authorized.setPhase (h : Authorized owner req s) (file : Option RepoMembers)
    (phase : CollabPhase) (hphase : ∀ seen m, phase = .checked seen ∨ phase = .loaded seen m →
      (req i).authorize owner seen = .ok ()) :
    Authorized owner req ({ s with file := file }.setPhase i phase) := by
  intro j
  by_cases hj : j = i
  · subst hj
    rw [CollabState.phase_setPhase, Function.update_self]
    cases phase with
    | checked seen => exact hphase seen seen (.inl rfl)
    | loaded seen m => exact hphase seen m (.inr rfl)
    | _ => trivial
  · rw [CollabState.phase_setPhase, Function.update_of_ne hj]
    exact h j

/-- A step has no effect on the record and on the replies, or a request takes effect in it. -/
theorem collabStep_point (hs : Authorized owner req s) (hcurrent : UpToDate owner req s i)
    (h : collabStep owner req s i = some t) :
    Authorized owner req t ∧ (t.file = s.file ∧ t.reply = s.reply ∨
      Point (serveCollab owner req) s.file t.file s.reply t.reply) := by
  have hauth := hs i
  rw [collabStep] at h
  rw [UpToDate] at hcurrent
  have hreply : ∀ phase, s.phase i = phase → (∀ reply, phase ≠ .finished reply) →
      s.reply i = none := by
    intro phase hphase hne
    rw [CollabState.reply, hphase]
    cases phase with
    | finished reply => exact absurd rfl (hne reply)
    | _ => rfl
  have hquiet : s.reply i = none → ∀ phase, (∀ reply, phase ≠ .finished reply) →
      (s.setPhase i phase).reply = s.reply := by
    intro hnone phase hne
    rw [show s.setPhase i phase = { s with file := s.file }.setPhase i phase from rfl,
      CollabState.reply_setPhase]
    cases phase with
    | finished reply => exact absurd rfl (hne reply)
    | _ => exact Function.update_eq_self_iff.mpr hnone.symm
  cases hphase : s.phase i with
  | arrived =>
    have hnone := hreply _ hphase (by simp)
    simp only [hphase] at h
    cases hcheck : (req i).authorize owner (loadMembers owner (req i).checkedAt s.file) with
    | error e =>
      rw [hcheck] at h
      obtain rfl := Option.some.inj h
      refine ⟨hs.setPhase s.file _ (by simp), .inr ⟨i, hnone, ?_, ?_⟩⟩
      · rw [serveCollab, hcheck]
        rfl
      · rw [serveCollab, hcheck]
        exact CollabState.reply_setPhase ..
    | ok =>
      rw [hcheck] at h
      obtain rfl := Option.some.inj h
      refine ⟨hs.setPhase s.file _ ?_, .inl ⟨rfl, hquiet hnone _ (by simp)⟩⟩
      rintro seen m (hseen | hseen)
      · rw [← CollabPhase.checked.inj hseen]
        exact hcheck
      · cases hseen
  | checked seen =>
    have hnone := hreply _ hphase (by simp)
    simp only [hphase] at h hauth
    obtain rfl := Option.some.inj h
    refine ⟨hs.setPhase s.file _ ?_, .inl ⟨rfl, hquiet hnone _ (by simp)⟩⟩
    rintro seen' m (hseen | hseen)
    · cases hseen
    · rw [← (CollabPhase.loaded.inj hseen).1]
      exact hauth
  | loaded seen m =>
    have hnone := hreply _ hphase (by simp)
    simp only [hphase] at h hauth hcurrent
    obtain rfl := Option.some.inj h
    -- the request saves what it would save alone now
    have hserve : serveCollab owner req i s.file =
        (some ((req i).edited m), .ok ((req i).edited m)) := by
      rw [serveCollab, hcurrent.1, hauth, hcurrent.2]
    refine ⟨hs.setPhase _ _ (by simp), .inr ⟨i, hnone, ?_, ?_⟩⟩
    · rw [hserve]
      rfl
    · rw [hserve]
      exact CollabState.reply_setPhase ..
  | finished reply => simp [hphase] at h

/-! ### What invitations and removals leave -/

/-- A record lists a user as a collaborator. -/
def Lists (user : String) (file : Option RepoMembers) : Prop :=
  ∃ m, file = some m ∧ ∃ entry ∈ m.members, entry.user = user

/-- A record is there and does not list a user. -/
def Omits (user : String) (file : Option RepoMembers) : Prop :=
  ∃ m, file = some m ∧ ∀ entry ∈ m.members, entry.user ≠ user

/-- A request invites a user, with any history. -/
def CollabRequest.Invites (r : CollabRequest) (user : String) : Prop :=
  ∃ history, r.edit = .invite user history

variable {user : String} {file : Option RepoMembers} {r : CollabRequest} {m : RepoMembers}

theorem CollabRequest.Invites.listed (h : r.Invites user) :
    ∃ entry ∈ (r.edited m).members, entry.user = user := by
  obtain ⟨history, hedit⟩ := h
  rw [CollabRequest.edited, hedit]
  dsimp only
  split_ifs with hin
  · obtain ⟨entry, hentry, heq⟩ := List.any_eq_true.mp hin
    exact ⟨entry, hentry, beq_iff_eq.mp heq⟩
  · exact ⟨_, List.mem_append_right _ (List.mem_singleton_self _), rfl⟩

theorem CollabRequest.not_listed_of_remove (h : r.edit = .remove user) :
    ∀ entry ∈ (r.edited m).members, entry.user ≠ user := by
  intro entry hentry
  rw [CollabRequest.edited, h] at hentry
  exact of_decide_eq_true (List.mem_filter.mp hentry).2

/-- An edit lists a user that was listed or that it invites. -/
theorem CollabRequest.listed_edited {entry : MemberEntry} (hentry : entry ∈ (r.edited m).members) :
    entry ∈ m.members ∨ r.Invites entry.user := by
  rw [CollabRequest.edited] at hentry
  split at hentry
  next user history hedit =>
    split_ifs at hentry with hin
    · exact .inl hentry
    · rcases List.mem_append.mp hentry with hold | hnew
      · exact .inl hold
      · rw [List.mem_singleton.mp hnew]
        exact .inr ⟨history, hedit⟩
  next target hedit => exact .inl (List.mem_filter.mp hentry).1

/-- An edit keeps the users that it does not remove. -/
theorem CollabRequest.mem_edited {entry : MemberEntry} (hentry : entry ∈ m.members)
    (hkeep : r.edit ≠ .remove entry.user) : entry ∈ (r.edited m).members := by
  rw [CollabRequest.edited]
  split
  next user history hedit =>
    split_ifs
    · exact hentry
    · exact List.mem_append_left _ hentry
  next target hedit =>
    refine List.mem_filter.mpr ⟨hentry, decide_eq_true fun heq => hkeep ?_⟩
    rw [hedit, heq]

omit [DecidableEq ι] in
/-- What a request that is not refused leaves. -/
theorem serveCollab_cases (owner : String) (req : ι → CollabRequest) (i : ι)
    (file : Option RepoMembers) : (serveCollab owner req i file).1 = file ∨
    ∃ m, (serveCollab owner req i file).1 = some ((req i).edited m) ∧
      ∀ stored, file = some stored → m = stored := by
  rw [serveCollab]
  split
  · exact .inl rfl
  · exact .inr ⟨_, rfl, fun stored hstored => by rw [hstored]; rfl⟩

omit [DecidableEq ι] in
theorem Omits.serveCollab (h : Omits user file) (hinvite : ¬ (req i).Invites user) :
    Omits user (serveCollab owner req i file).1 := by
  obtain ⟨stored, hstored, homit⟩ := h
  rcases serveCollab_cases owner req i file with hsame | ⟨m, hserve, hm⟩
  · exact ⟨stored, hsame.trans hstored, homit⟩
  · refine ⟨_, hserve, fun entry hentry huser => ?_⟩
    rcases CollabRequest.listed_edited hentry with hold | hnew
    · exact homit entry (hm stored hstored ▸ hold) huser
    · exact hinvite (huser ▸ hnew)

omit [DecidableEq ι] in
theorem Lists.serveCollab (h : Lists user file) (hremove : (req i).edit ≠ .remove user) :
    Lists user (serveCollab owner req i file).1 := by
  obtain ⟨stored, hstored, entry, hentry, rfl⟩ := h
  rcases serveCollab_cases owner req i file with hsame | ⟨m, hserve, hm⟩
  · exact ⟨stored, hsame.trans hstored, entry, hentry, rfl⟩
  · exact ⟨_, hserve, entry, CollabRequest.mem_edited (hm stored hstored ▸ hentry) hremove, rfl⟩

variable {v : Option RepoMembers} {order pre post : List ι}
variable {reply : ι → Option (Except HttpError RepoMembers)}

omit [DecidableEq ι] in
/-- A request that was not refused saved its edit at its place in the order. -/
theorem exists_edited_of_linearized (h : Linearized (serveCollab owner req) file v reply order)
    (horder : order = pre ++ i :: post) (hreply : reply i = some (.ok m)) :
    ∃ m, (serveCollab owner req i (after (serveCollab owner req) file pre)).1 =
      some ((req i).edited m) := by
  have hplace := Option.some.inj ((h.replies pre i post horder).symm.trans hreply)
  rw [serveCollab] at hplace ⊢
  split at hplace
  · cases hplace
  · exact ⟨_, rfl⟩

omit [DecidableEq ι] in
/-- A user whose removal succeeded is not listed unless invited later in the order. -/
theorem omits_of_linearized (h : Linearized (serveCollab owner req) file v reply order)
    (horder : order = pre ++ i :: post) (hreply : reply i = some (.ok m))
    (hedit : (req i).edit = .remove user) (hpost : ∀ j ∈ post, ¬ (req j).Invites user) :
    Omits user v := by
  obtain ⟨m', hm'⟩ := exists_edited_of_linearized h horder hreply
  exact h.holds_since horder ⟨_, hm', CollabRequest.not_listed_of_remove hedit⟩
    fun j hj v hv => hv.serveCollab (hpost j hj)

omit [DecidableEq ι] in
/-- A user whose invitation succeeded is listed unless removed later in the order. -/
theorem lists_of_linearized (h : Linearized (serveCollab owner req) file v reply order)
    (horder : order = pre ++ i :: post) (hreply : reply i = some (.ok m))
    (hinvite : (req i).Invites user) (hpost : ∀ j ∈ post, (req j).edit ≠ .remove user) :
    Lists user v := by
  obtain ⟨m', hm'⟩ := exists_edited_of_linearized h horder hreply
  exact h.holds_since horder ⟨_, hm', hinvite.listed⟩
    fun j hj v hv => hv.serveCollab (hpost j hj)

/-- In every run whose requests save over what they read, a serial order of the finished requests
explains the record and the replies; a user whose removal succeeded is not listed unless invited
later in that order, and one whose invitation succeeded is listed unless removed later. -/
theorem collab_linearized {ops : List ι}
    (hcurrent : Along (collabStep owner req) (UpToDate owner req) (.start file) ops)
    (hrun : run (collabStep owner req) (.start file) ops = some s) :
    ∃ order, Linearized (serveCollab owner req) file s.file s.reply order ∧
      ∀ pre i post m, order = pre ++ i :: post → s.reply i = some (.ok m) →
        (∀ target, (req i).edit = .remove target → (∀ j ∈ post, ¬ (req j).Invites target) →
          Omits target s.file) ∧
        (∀ user, (req i).Invites user → (∀ j ∈ post, (req j).edit ≠ .remove user) →
          Lists user s.file) := by
  obtain ⟨order, hlin⟩ := Linearized.of_run (serveCollab owner req) CollabState.file
    CollabState.reply (I := Authorized owner req) (fun s i t hs hi h => collabStep_point hs hi h)
    (fun i => trivial) (fun i => rfl) hcurrent hrun
  refine ⟨order, hlin, fun pre i post m horder hreply => ⟨fun target hedit hpost => ?_,
    fun user hinvite hpost => ?_⟩⟩
  · exact omits_of_linearized hlin horder hreply hedit hpost
  · exact lists_of_linearized hlin horder hreply hinvite hpost

section Sample

/-- The record of a repository with one collaborator. -/
def sampleMembers : RepoMembers where
  owner := "olivia"
  members := [⟨"olivia", "full", "t0"⟩, ⟨"mallory", "full", "t0"⟩]

/-- The owner removes the collaborator (`true`) and invites another (`false`). -/
def sampleCollab (removal : Bool) : CollabRequest where
  caller := "olivia"
  edit := if removal then .remove "mallory" else .invite "bob" none
  checkedAt := "t1"
  loadedAt := "t1"
  invitedAt := "t2"

/-- Both requests read the record before either saves it: the removed collaborator comes back
with the invitation that is saved last, which no serial order explains. -/
theorem collab_lost_update :
    ∃ s, run (collabStep "olivia" sampleCollab) (.start (some sampleMembers))
        [true, true, false, false, true, false] = some s ∧
      s.reply true = some (.ok { sampleMembers with members := [⟨"olivia", "full", "t0"⟩] }) ∧
      s.file = some { sampleMembers with
        members := sampleMembers.members ++ [⟨"bob", "full", "t2"⟩] } ∧
      ∀ order, ¬ Linearized (serveCollab "olivia" sampleCollab) (some sampleMembers) s.file s.reply
        order := by
  refine ⟨_, rfl, by decide, by decide, fun order h => ?_⟩
  obtain ⟨pre, post, horder⟩ := List.append_of_mem ((h.finished true).mpr (by decide))
  have hnobody : ∀ j ∈ post, ¬ (sampleCollab j).Invites "mallory" := by
    rintro j - ⟨history, hedit⟩
    cases j <;> simp [sampleCollab] at hedit
  obtain ⟨m, hm, homits⟩ := omits_of_linearized h horder
    (m := { sampleMembers with members := [⟨"olivia", "full", "t0"⟩] }) (by decide) rfl hnobody
  obtain rfl := Option.some.inj hm
  exact homits ⟨"mallory", "full", "t0"⟩ (by decide) rfl

/-- The owner removes the collaborator (`0`), the collaborator invites another (`1`), and the owner
invites someone who is there (`2`). -/
def mixedCollab (i : Fin 3) : CollabRequest where
  caller := if i = 1 then "mallory" else "olivia"
  edit := if i = 0 then .remove "mallory" else if i = 1 then .invite "bob" none
    else .invite "olivia" none
  checkedAt := "t1"
  loadedAt := "t1"
  invitedAt := "t2"

/-- Between what the removal reads and its save the one invitation is refused, and the other saves
what is there. -/
theorem collab_linearized_mixed :
    ∃ s, run (collabStep "olivia" mixedCollab) (.start (some sampleMembers))
        [2, 0, 1, 2, 0, 2, 0] = some s ∧
      s.reply 1 = some (.error ⟨.forbidden, "only owner can invite"⟩) ∧
      s.file = some { sampleMembers with members := [⟨"olivia", "full", "t0"⟩] } ∧
      ∃ order, Linearized (serveCollab "olivia" mixedCollab) (some sampleMembers) s.file s.reply
          order ∧
        ∀ pre i post m, order = pre ++ i :: post → s.reply i = some (.ok m) →
          (∀ target, (mixedCollab i).edit = .remove target →
            (∀ j ∈ post, ¬ (mixedCollab j).Invites target) → Omits target s.file) ∧
          (∀ user, (mixedCollab i).Invites user →
            (∀ j ∈ post, (mixedCollab j).edit ≠ .remove user) → Lists user s.file) := by
  have hcurrent : Along (collabStep "olivia" mixedCollab) (UpToDate "olivia" mixedCollab)
      (.start (some sampleMembers)) [2, 0, 1, 2, 0, 2, 0] := by
    decide
  exact ⟨_, rfl, by decide, by decide, collab_linearized hcurrent rfl⟩

end Sample

end SafeHub
