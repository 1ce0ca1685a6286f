import Mathlib.Data.Fintype.Option
import SafeHub.Lib.Run
import SafeHub.Server.Members
import SafeHub.Server.RepoPaths
import SafeHub.Types.RefHead

/-!
# The repository directory

The host keeps two records of each repository, one by owner and name and one by id. Creating a
repository checks that the first path is free and writes both; changing or deleting one reads the
first record and writes both. Nothing is held over these steps. File contents are the records they
hold, and accesses of a file are single steps.

## Main definitions

* `DirRequest`, `dirStep` — the requests, one file access at a time
* `LiveFor`, `Between`, `Agrees` — what the two records say
* `StillAsFound` — what each write finds

## Main results

* `directory_of_along` — where writes find what they rely on, a name has at most one live
  repository, the records agree, and what is deleted stays deleted
* `directory_races` — two repositories of one name, and one that comes back
-/

namespace SafeHub

open Paths Run

/-- What the host knows of a repository. -/
structure RepoRecord where
  id : RepoId
  name : RepoName
  createdBy : String
  isPrivate : Bool
  archived : Bool
  deleted : Bool
  description : Option String
  deriving DecidableEq

/-- A request to create a repository, with the identifier that is drawn for it. -/
structure CreateRequest where
  caller : String
  name : String
  isPrivate : Bool
  description : Option String
  id : RepoId

/-- What a request changes in a record. -/
inductive DirEdit
  | patch (archived : Option Bool) (description : Option String)
  | delete

/-- A request to change or delete a repository, with the members record that its check reads. -/
structure UpdateRequest where
  caller : String
  target : RepoName
  seen : RepoMembers
  edit : DirEdit

inductive DirRequest
  | create (request : CreateRequest)
  | update (request : UpdateRequest)

/-- The record of a new repository. -/
def CreateRequest.record (c : CreateRequest) : RepoRecord where
  id := c.id
  name := ⟨c.caller, c.name⟩
  createdBy := c.caller
  isPrivate := c.isPrivate
  archived := false
  deleted := false
  description := c.description

namespace UpdateRequest

/-- The text a refusal carries; a deletion is answered by a status alone. -/
def text (u : UpdateRequest) (message : String) : String :=
  match u.edit with
  | .patch _ _ => message
  | .delete => ""

/-- Whether a request may go on. -/
def authorize (u : UpdateRequest) : Except HttpError Unit :=
  if isMember u.seen u.caller = false then .error ⟨.forbidden, u.text "forbidden"⟩
  else if u.caller ≠ u.target.owner then
    .error ⟨.forbidden, u.text "only owner can archive/edit metadata"⟩
  else .ok ()

/-- The record that a request writes in place of the one it read. -/
def edited (u : UpdateRequest) (stored : RepoRecord) : Except HttpError RepoRecord :=
  match u.edit with
  | .patch archived description =>
    if stored.deleted then .error ⟨.notFound, u.text "not found"⟩
    else .ok { stored with
      archived := archived.getD stored.archived
      description := description <|> stored.description }
  | .delete => .ok { stored with deleted := true, archived := true }

/-- The reply to a request that has written both records. -/
def success (u : UpdateRequest) (body : RepoRecord) : Option RepoRecord :=
  match u.edit with
  | .patch _ _ => some body
  | .delete => none

end UpdateRequest

/-- The reply to a request that has written both records. -/
def DirRequest.success : DirRequest → RepoRecord → Option RepoRecord
  | .create _, body => some body
  | .update u, body => u.success body

/-- How far a request has come. -/
inductive DirPhase
  | arrived
  /-- The check of an update has passed. -/
  | checked
  /-- An update has read the record. -/
  | loaded (body : RepoRecord)
  /-- The path was free for a new record, or there is a record to replace. -/
  | ready (body : RepoRecord)
  /-- The record by name is written. -/
  | named (body : RepoRecord)
  | finished (reply : Except HttpError (Option RepoRecord))
  deriving DecidableEq

/-- The records of the directory and the requests on it. -/
structure RepoDirectory (ι : Type) where
  /-- The records by the places of their paths. -/
  byName : List String → Option RepoRecord
  byId : RepoId → Option RepoRecord
  phase : ι → DirPhase

variable {ι : Type} [DecidableEq ι]

def RepoDirectory.empty : RepoDirectory ι := ⟨fun _ => none, fun _ => none, fun _ => .arrived⟩

/-- Move a request to its next phase. -/
def RepoDirectory.setPhase (s : RepoDirectory ι) (i : ι) (phase : DirPhase) : RepoDirectory ι :=
  { s with phase := Function.update s.phase i phase }

/-- The place of the record by name. -/
def namePlace (data : DataRoot) (name : RepoName) : List String :=
  resolve (directoryPath data name)

/-- How a repository is called in error texts. -/
def RepoName.shown (name : RepoName) : String := name.owner ++ "/" ++ name.name

/-- The next file access of a request. -/
def dirStep (data : DataRoot) (req : ι → DirRequest) (s : RepoDirectory ι) (i : ι) :
    Option (RepoDirectory ι) :=
  match s.phase i with
  | .arrived =>
    match req i with
    | .create c =>
      if (s.byName (namePlace data c.record.name)).isSome then
        some (s.setPhase i (.finished (.error
          ⟨.conflict, "repo " ++ c.record.name.shown ++ " already exists"⟩)))
      else some (s.setPhase i (.ready c.record))
    | .update u =>
      match u.authorize with
      | .error e => some (s.setPhase i (.finished (.error e)))
      | .ok () => some (s.setPhase i .checked)
  | .checked =>
    match req i with
    | .create _ => none
    | .update u =>
      match s.byName (namePlace data u.target) with
      | none => some (s.setPhase i (.finished (.error ⟨.notFound, u.text "not found"⟩)))
      | some stored =>
        match u.edited stored with
        | .error e => some (s.setPhase i (.finished (.error e)))
        | .ok body => some (s.setPhase i (.loaded body))
  | .loaded body =>
    match req i with
    | .create _ => none
    | .update u =>
      if (s.byName (namePlace data body.name)).isSome then some (s.setPhase i (.ready body))
      else some (s.setPhase i (.finished (.error
        ⟨.internalServerError, u.text ("repo " ++ body.name.shown ++ " not found")⟩)))
  | .ready body =>
    some ({ s with byName := Function.update s.byName (namePlace data body.name) (some body)
      }.setPhase i (.named body))
  | .named body =>
    some ({ s with byId := Function.update s.byId body.id (some body)
      }.setPhase i (.finished (.ok ((req i).success body))))
  | .finished _ => none

/-! ### What the records say -/

/-- A repository of a name is not deleted by one of its records. -/
def LiveFor (data : DataRoot) (s : RepoDirectory ι) (name : RepoName) (id : RepoId) : Prop :=
  ∃ rec, rec.id = id ∧ rec.name = name ∧ rec.deleted = false ∧
    (s.byName (namePlace data name) = some rec ∨ s.byId id = some rec)

/-- A request has written one record of a repository and not yet the other. -/
def Between (s : RepoDirectory ι) (id : RepoId) : Prop :=
  ∃ i body, s.phase i = .named body ∧ body.id = id

/-- The two records of a repository are the same. -/
def Agrees (data : DataRoot) (s : RepoDirectory ι) (id : RepoId) : Prop :=
  ∀ rec, (s.byId id = some rec → s.byName (namePlace data rec.name) = some rec) ∧
    ∀ place, s.byName place = some rec → rec.id = id → s.byId id = some rec

/-- What is marked as deleted in one state is so in another. -/
structure StaysDeleted (s t : RepoDirectory ι) : Prop where
  byName : ∀ place rec, s.byName place = some rec → rec.deleted = true →
    ∃ rec', t.byName place = some rec' ∧ rec'.deleted = true ∧ rec'.id = rec.id
  byId : ∀ id rec, s.byId id = some rec → rec.deleted = true →
    ∃ rec', t.byId id = some rec' ∧ rec'.deleted = true

/-- What a write finds: a new record finds its path still free, and a patched one no deleted record
in its place. The record by id is written while the one by name is the request's own or that of a
request that has its other write ahead, and not over a deleted record unless it is deleted too. -/
def StillAsFound (data : DataRoot) (req : ι → DirRequest) (s : RepoDirectory ι) (i : ι) : Prop :=
  match s.phase i with
  | .ready body =>
    match req i with
    | .create _ => s.byName (namePlace data body.name) = none
    | .update _ => body.deleted = false → ∀ rec, s.byName (namePlace data body.name) = some rec →
      rec.deleted = false
  | .named body =>
    (s.byName (namePlace data body.name) = some body ∨
      ∃ j other, j ≠ i ∧ s.phase j = .named other ∧
        s.byName (namePlace data body.name) = some other) ∧
    ∀ rec, s.byId body.id = some rec → rec.deleted = true → body.deleted = true
  | _ => True

instance decidableStillAsFound [Fintype ι] (data : DataRoot) (req : ι → DirRequest)
    (s : RepoDirectory ι) (i : ι) : Decidable (StillAsFound data req s i) :=
  match hphase : s.phase i with
  | .ready body =>
    match hreq : req i with
    | .create _ =>
      decidable_of_iff (s.byName (namePlace data body.name) = none) (by
        rw [StillAsFound, hphase, hreq])
    | .update _ =>
      decidable_of_iff (body.deleted = false → ∀ rec ∈ s.byName (namePlace data body.name),
        rec.deleted = false) (by
          rw [StillAsFound, hphase, hreq]
          rfl)
  | .named body =>
    decidable_of_iff ((s.byName (namePlace data body.name) = some body ∨
        ∃ j, j ≠ i ∧ ∃ other ∈ s.byName (namePlace data body.name), s.phase j = .named other) ∧
      ∀ rec ∈ s.byId body.id, rec.deleted = true → body.deleted = true) (by
        rw [StillAsFound, hphase]
        refine and_congr_left fun _ => or_congr_right (exists_congr fun j => ?_)
        exact ⟨fun ⟨hj, other, hrec, hother⟩ => ⟨other, hj, hother, hrec⟩,
          fun ⟨other, hj, hother, hrec⟩ => ⟨hj, other, hrec, hother⟩⟩)
  | .arrived | .checked | .loaded _ | .finished _ => .isTrue (by
      rw [StillAsFound, hphase]
      trivial)

variable {data : DataRoot} {req : ι → DirRequest} {s t : RepoDirectory ι} {i : ι}
variable {phase : DirPhase} {body rec : RepoRecord} {place : List String}

/-- A request has written the record by name. -/
def DirPhase.Past : DirPhase → Prop
  | .named _ | .finished _ => True
  | _ => False

/-- What holds in every run whose writes find what they rely on. -/
structure DirInv (data : DataRoot) (req : ι → DirRequest) (s : RepoDirectory ι) : Prop where
  /-- A record by name is where its own name leads, and a request has made it there. -/
  made : ∀ place rec, s.byName place = some rec → namePlace data rec.name = place ∧
    ∃ i c, req i = .create c ∧ c.id = rec.id ∧ namePlace data c.record.name = place ∧
      (s.phase i).Past
  /-- A record by id has one by name. -/
  byId : ∀ id rec, s.byId id = some rec → rec.id = id ∧
    ∃ rec', s.byName (namePlace data rec.name) = some rec' ∧ rec'.id = id
  /-- A record by name is also there by id, or its request has that write ahead. -/
  agree : ∀ place rec, s.byName place = some rec →
    s.byId rec.id = some rec ∨ ∃ i, s.phase i = .named rec
  /-- What a request has written first is a record of the repository that is there. -/
  named : ∀ i body, s.phase i = .named body →
    ∃ rec, s.byName (namePlace data body.name) = some rec ∧ rec.id = body.id
  /-- So is what an update is about to write. -/
  update : ∀ i u body, req i = .update u → s.phase i = .loaded body ∨ s.phase i = .ready body →
    ∃ rec, s.byName (namePlace data body.name) = some rec ∧ rec.id = body.id
  create : ∀ i c body, req i = .create c → s.phase i = .ready body → body = c.record

omit [DecidableEq ι] in
theorem dirInv_empty : DirInv data req (.empty : RepoDirectory ι) where
  made _ _ h := nomatch h
  byId _ _ h := nomatch h
  agree _ _ h := nomatch h
  named _ _ h := nomatch h
  update _ _ _ _ h := h.elim (fun h => nomatch h) (fun h => nomatch h)
  create _ _ _ _ h := nomatch h

theorem RepoDirectory.phase_setPhase {j : ι} :
    (s.setPhase i phase).phase j = if j = i then phase else s.phase j :=
  Function.update_apply ..

/-- The phase of another request. -/
theorem RepoDirectory.phase_setPhase_of_eq {j : ι} {other : DirPhase} (hj : s.phase j = other)
    (hi : s.phase i ≠ other) : (s.setPhase i phase).phase j = other := by
  rw [RepoDirectory.phase_setPhase, if_neg]
  · exact hj
  · rintro rfl
    exact hi hj

/-- A request that has written a record has done so for good. -/
theorem RepoDirectory.past_setPhase {j : ι} (hi : (s.phase i).Past → phase.Past)
    (hj : (s.phase j).Past) : ((s.setPhase i phase).phase j).Past := by
  rw [RepoDirectory.phase_setPhase]
  split_ifs with heq
  · exact hi (heq ▸ hj)
  · exact hj

/-- A request that writes nothing goes on. -/
theorem DirInv.setPhase (h : DirInv data req s) (hpast : ¬ (s.phase i).Past)
    (hphase : ∀ body, phase ≠ .named body)
    (hupdate : ∀ u body, req i = .update u → phase = .loaded body ∨ phase = .ready body →
      ∃ rec, s.byName (namePlace data body.name) = some rec ∧ rec.id = body.id)
    (hcreate : ∀ c body, req i = .create c → phase = .ready body → body = c.record) :
    DirInv data req (s.setPhase i phase) where
  made := by
    intro place rec hrec
    obtain ⟨hplace, j, c, hreq, hid, hname, hj⟩ := h.made place rec hrec
    exact ⟨hplace, j, c, hreq, hid, hname, RepoDirectory.past_setPhase (absurd · hpast) hj⟩
  byId := h.byId
  agree := by
    intro place rec hrec
    rcases h.agree place rec hrec with hsame | ⟨j, hj⟩
    · exact .inl hsame
    · -- the request between its two writes is another one
      refine .inr ⟨j, RepoDirectory.phase_setPhase_of_eq hj fun hi => hpast ?_⟩
      rw [hi]
      trivial
  named := by
    intro j body hj
    rw [RepoDirectory.phase_setPhase] at hj
    split_ifs at hj with heq
    · exact absurd hj (hphase body)
    · exact h.named j body hj
  update := by
    intro j u body hreq hj
    rw [RepoDirectory.phase_setPhase] at hj
    split_ifs at hj with heq
    · subst heq
      exact hupdate u body hreq hj
    · exact h.update j u body hreq hj
  create := by
    intro j c body hreq hj
    rw [RepoDirectory.phase_setPhase] at hj
    split_ifs at hj with heq
    · subst heq
      exact hcreate c body hreq hj
    · exact h.create j c body hreq hj

/-- The directory after a request has written the record by name. -/
def RepoDirectory.writeName (data : DataRoot) (s : RepoDirectory ι) (i : ι) (body : RepoRecord) :
    RepoDirectory ι :=
  { s with byName := Function.update s.byName (namePlace data body.name) (some body)
    }.setPhase i (.named body)

/-- The directory after a request has written the record by id. -/
def RepoDirectory.writeId (s : RepoDirectory ι) (i : ι) (body : RepoRecord)
    (reply : Option RepoRecord) : RepoDirectory ι :=
  { s with byId := Function.update s.byId body.id (some body)
    }.setPhase i (.finished (.ok reply))

theorem RepoDirectory.byName_writeName : (s.writeName data i body).byName place =
    if place = namePlace data body.name then some body else s.byName place :=
  Function.update_apply ..

theorem RepoDirectory.phase_writeName {j : ι} :
    (s.writeName data i body).phase j = if j = i then .named body else s.phase j :=
  RepoDirectory.phase_setPhase

theorem RepoDirectory.phase_writeId {reply : Option RepoRecord} {j : ι} :
    (s.writeId i body reply).phase j = if j = i then .finished (.ok reply) else s.phase j :=
  RepoDirectory.phase_setPhase

theorem RepoDirectory.byId_writeId {reply : Option RepoRecord} {id : RepoId} :
    (s.writeId i body reply).byId id = if id = body.id then some body else s.byId id :=
  Function.update_apply ..

/-- The record by name is written in place of one of the same repository, or as the first. -/
theorem DirInv.writeName (h : DirInv data req s) (hready : s.phase i = .ready body)
    (hsame : ∀ rec, s.byName (namePlace data body.name) = some rec → rec.id = body.id)
    (hmade : ∃ j c, req j = .create c ∧ c.id = body.id ∧
      namePlace data c.record.name = namePlace data body.name ∧ (j = i ∨ (s.phase j).Past)) :
    DirInv data req (s.writeName data i body) := by
  have hnow : (s.writeName data i body).phase i = .named body := Function.update_self ..
  -- a record of a repository stays one of the same repository
  have hkeep : ∀ place id, (∃ rec, s.byName place = some rec ∧ rec.id = id) →
      ∃ rec, (s.writeName data i body).byName place = some rec ∧ rec.id = id := by
    rintro place id ⟨rec, hrec, rfl⟩
    rw [RepoDirectory.byName_writeName]
    split_ifs with hplace
    · subst hplace
      exact ⟨body, rfl, (hsame rec hrec).symm⟩
    · exact ⟨rec, hrec, rfl⟩
  exact {
    made := by
      intro place rec hrec
      rw [RepoDirectory.byName_writeName] at hrec
      split_ifs at hrec with hplace
      · obtain rfl := Option.some.inj hrec
        obtain ⟨j, c, hreq, hid, hname, hj⟩ := hmade
        refine ⟨hplace.symm, j, c, hreq, hid, hname.trans hplace.symm, ?_⟩
        rcases hj with rfl | hj
        · rw [hnow]
          trivial
        · exact RepoDirectory.past_setPhase (fun _ => trivial) hj
      · obtain ⟨hown, j, c, hreq, hid, hname, hj⟩ := h.made place rec hrec
        exact ⟨hown, j, c, hreq, hid, hname, RepoDirectory.past_setPhase (fun _ => trivial) hj⟩
    byId := by
      intro id rec hrec
      obtain ⟨hid, hname⟩ := h.byId id rec hrec
      exact ⟨hid, hkeep _ _ hname⟩
    agree := by
      intro place rec hrec
      rw [RepoDirectory.byName_writeName] at hrec
      split_ifs at hrec with hplace
      · obtain rfl := Option.some.inj hrec
        exact .inr ⟨i, hnow⟩
      · rcases h.agree place rec hrec with hid | ⟨j, hj⟩
        · exact .inl hid
        · refine .inr ⟨j, RepoDirectory.phase_setPhase_of_eq hj fun hi => ?_⟩
          cases hready.symm.trans hi
    named := by
      intro j other hj
      rw [RepoDirectory.phase_writeName] at hj
      split_ifs at hj with heq
      · obtain rfl := DirPhase.named.inj hj
        exact ⟨body, by rw [RepoDirectory.byName_writeName, if_pos rfl], rfl⟩
      · exact hkeep _ _ (h.named j other hj)
    update := by
      intro j u other hreq hj
      rw [RepoDirectory.phase_writeName] at hj
      split_ifs at hj with heq
      · exact hj.elim (fun hj => nomatch hj) (fun hj => nomatch hj)
      · exact hkeep _ _ (h.update j u other hreq hj)
    create := by
      intro j c other hreq hj
      rw [RepoDirectory.phase_writeName] at hj
      split_ifs at hj with heq
      exact h.create j c other hreq hj }

/-- Identifiers that are drawn for new repositories differ. -/
def DrawnOnce (req : ι → DirRequest) : Prop :=
  ∀ i j c d, req i = .create c → req j = .create d → c.id = d.id → i = j

omit [DecidableEq ι] in
/-- A repository has one place. -/
theorem DirInv.place_unique (h : DirInv data req s) (hids : DrawnOnce req)
    {place' : List String} {rec' : RepoRecord} (hrec : s.byName place = some rec)
    (hrec' : s.byName place' = some rec') (hid : rec.id = rec'.id) : place = place' := by
  obtain ⟨-, i, c, hi, hc, hplace, -⟩ := h.made place rec hrec
  obtain ⟨-, j, d, hj, hd, hplace', -⟩ := h.made place' rec' hrec'
  obtain rfl := hids i j c d hi hj (hc.trans (hid.trans hd.symm))
  obtain rfl := DirRequest.create.inj (hi.symm.trans hj)
  exact hplace.symm.trans hplace'

/-- The record by id is written by a request whose record by name is still there, or which was
overtaken by one that has its other write ahead. -/
theorem DirInv.writeId (h : DirInv data req s) (hids : DrawnOnce req)
    (hnamed : s.phase i = .named body) (hfound : StillAsFound data req s i)
    (reply : Option RepoRecord) : DirInv data req (s.writeId i body reply) := by
  rw [StillAsFound, hnamed] at hfound
  exact {
    made := by
      intro place rec hrec
      obtain ⟨hown, j, c, hreq, hid, hname, hj⟩ := h.made place rec hrec
      exact ⟨hown, j, c, hreq, hid, hname, RepoDirectory.past_setPhase (fun _ => trivial) hj⟩
    byId := by
      intro id rec hrec
      rw [RepoDirectory.byId_writeId] at hrec
      split_ifs at hrec with hid
      · obtain rfl := Option.some.inj hrec
        obtain ⟨rec', hrec', hid'⟩ := h.named i body hnamed
        exact ⟨hid.symm, rec', hrec', hid'.trans hid.symm⟩
      · exact h.byId id rec hrec
    agree := by
      intro place rec hrec
      rw [RepoDirectory.byId_writeId]
      split_ifs with hid
      · -- the repository whose record is written
        obtain ⟨rec', hrec', hid'⟩ := h.named i body hnamed
        obtain rfl := h.place_unique hids hrec hrec' (hid.trans hid'.symm)
        -- overtaken by another request, which has the write of its record ahead
        rcases hfound.1 with hown | ⟨j, other, hji, hj, hother⟩
        · exact .inl (hown.symm.trans hrec)
        · obtain rfl := Option.some.inj (hother.symm.trans hrec)
          exact .inr ⟨j, (Function.update_of_ne hji ..).trans hj⟩
      · rcases h.agree place rec hrec with hsame | ⟨j, hj⟩
        · exact .inl hsame
        · refine .inr ⟨j, RepoDirectory.phase_setPhase_of_eq hj fun hi => hid ?_⟩
          rw [DirPhase.named.inj (hi.symm.trans hnamed)]
    named := by
      intro j other hj
      rw [RepoDirectory.phase_writeId] at hj
      split_ifs at hj with heq
      exact h.named j other hj
    update := by
      intro j u other hreq hj
      rw [RepoDirectory.phase_writeId] at hj
      split_ifs at hj with heq
      · exact hj.elim (fun hj => nomatch hj) (fun hj => nomatch hj)
      · exact h.update j u other hreq hj
    create := by
      intro j c other hreq hj
      rw [RepoDirectory.phase_writeId] at hj
      split_ifs at hj with heq
      exact h.create j c other hreq hj }

/-! ### Steps -/

/-- An edit keeps the repository and its name. -/
theorem UpdateRequest.edited_eq_ok {u : UpdateRequest} {stored : RepoRecord}
    (h : u.edited stored = .ok body) : body.id = stored.id ∧ body.name = stored.name := by
  rw [UpdateRequest.edited] at h
  split at h
  next archived description hedit =>
    split_ifs at h
    obtain rfl := Except.ok.inj h
    exact ⟨rfl, rfl⟩
  next hedit =>
    obtain rfl := Except.ok.inj h
    exact ⟨rfl, rfl⟩

/-- A step moves a request on, or writes one of the records. -/
theorem dirStep_cases (h : dirStep data req s i = some t) :
    (∃ phase, t = s.setPhase i phase ∧ ¬ (s.phase i).Past ∧ (∀ body, phase ≠ .named body) ∧
      (∀ u body, req i = .update u → phase = .loaded body ∨ phase = .ready body →
        s.phase i = .loaded body ∨ ∃ stored, s.byName (namePlace data u.target) = some stored ∧
          u.edited stored = .ok body) ∧
      ∀ c body, req i = .create c → phase = .ready body → body = c.record) ∨
    (∃ body, s.phase i = .ready body ∧ t = s.writeName data i body) ∨
    ∃ body, s.phase i = .named body ∧ t = s.writeId i body ((req i).success body) := by
  -- a request that is turned down is at its end and has written nothing
  have hquiet : ∀ reply : Except HttpError (Option RepoRecord), ¬ (s.phase i).Past →
      t = s.setPhase i (.finished reply) → ∃ phase, t = s.setPhase i phase ∧
        ¬ (s.phase i).Past ∧ (∀ body, phase ≠ .named body) ∧
        (∀ u body, req i = .update u → phase = .loaded body ∨ phase = .ready body →
          s.phase i = .loaded body ∨ ∃ stored, s.byName (namePlace data u.target) = some stored ∧
            u.edited stored = .ok body) ∧
        ∀ c body, req i = .create c → phase = .ready body → body = c.record := by
    intro reply hpast ht
    exact ⟨_, ht, hpast, by simp, by simp, by simp⟩
  rw [dirStep] at h
  cases hphase : s.phase i with
  | arrived =>
    rw [hphase] at h hquiet
    have hpast : ¬ DirPhase.arrived.Past := id
    dsimp only at h
    cases hreq : req i with
    | create c =>
      rw [hreq] at h hquiet
      dsimp only at h
      split_ifs at h with hthere
      · exact .inl (hquiet _ hpast (Option.some.inj h).symm)
      · refine .inl ⟨_, (Option.some.inj h).symm, hpast, by simp, by simp, ?_⟩
        intro d body hd hbody
        rw [← DirRequest.create.inj hd]
        exact (DirPhase.ready.inj hbody).symm
    | update u =>
      rw [hreq] at h hquiet
      dsimp only at h
      split at h
      · exact .inl (hquiet _ hpast (Option.some.inj h).symm)
      · exact .inl ⟨_, (Option.some.inj h).symm, hpast, by simp, by simp, by simp⟩
  | checked =>
    rw [hphase] at h hquiet
    have hpast : ¬ DirPhase.checked.Past := id
    dsimp only at h
    cases hreq : req i with
    | create c => simp [hreq] at h
    | update u =>
      rw [hreq] at h hquiet
      dsimp only at h
      split at h
      next hnone => exact .inl (hquiet _ hpast (Option.some.inj h).symm)
      next stored hstored =>
        split at h
        next e hedit => exact .inl (hquiet _ hpast (Option.some.inj h).symm)
        next body hedit =>
          -- the copy that goes on is made from the record as it is now
          refine .inl ⟨_, (Option.some.inj h).symm, hpast, by simp, ?_, by simp⟩
          rintro v other hv (hother | hother)
          · obtain rfl := DirRequest.update.inj hv
            obtain rfl := DirPhase.loaded.inj hother
            exact .inr ⟨stored, hstored, hedit⟩
          · cases hother
  | loaded body =>
    rw [hphase] at h hquiet
    have hpast : ¬ (DirPhase.loaded body).Past := id
    dsimp only at h
    cases hreq : req i with
    | create c => simp [hreq] at h
    | update u =>
      rw [hreq] at h hquiet
      dsimp only at h
      -- the store looks only whether there is a record, not at it
      split_ifs at h with hthere
      · refine .inl ⟨_, (Option.some.inj h).symm, hpast, by simp, ?_, by simp⟩
        rintro v other hv (hother | hother)
        · cases hother
        · exact .inl (by rw [DirPhase.ready.inj hother])
      · exact .inl (hquiet _ hpast (Option.some.inj h).symm)
  | ready body =>
    rw [hphase] at h
    exact .inr (.inl ⟨body, rfl, (Option.some.inj h).symm⟩)
  | named body =>
    rw [hphase] at h
    exact .inr (.inr ⟨body, rfl, (Option.some.inj h).symm⟩)
  | finished reply => simp [hphase] at h

/-- What one step preserves. -/
theorem DirInv.step (h : DirInv data req s) (hids : DrawnOnce req)
    (hfound : StillAsFound data req s i) (hstep : dirStep data req s i = some t) :
    DirInv data req t := by
  rcases dirStep_cases hstep with ⟨phase, rfl, hpast, hnamed, hupdate, hcreate⟩ |
    ⟨body, hready, rfl⟩ | ⟨body, hphase, rfl⟩
  · refine h.setPhase hpast hnamed (fun u body hreq hphase => ?_) hcreate
    rcases hupdate u body hreq hphase with hloaded | ⟨stored, hstored, hedit⟩
    · exact h.update i u body hreq (.inl hloaded)
    · obtain ⟨hid, hname⟩ := UpdateRequest.edited_eq_ok hedit
      refine ⟨stored, ?_, hid.symm⟩
      rw [hname, (h.made _ stored hstored).1, hstored]
  · cases hreq : req i with
    | create c =>
      rw [StillAsFound, hready, hreq] at hfound
      obtain rfl := h.create i c body hreq hready
      refine h.writeName hready (fun rec hrec => ?_) ⟨i, c, hreq, rfl, rfl, .inl rfl⟩
      rw [show s.byName (namePlace data c.record.name) = none from hfound] at hrec
      cases hrec
    | update u =>
      obtain ⟨stored, hstored, hid⟩ := h.update i u body hreq (.inr hready)
      obtain ⟨hplace, j, c, hj, hc, hname, hpast⟩ := h.made _ stored hstored
      refine h.writeName hready (fun rec hrec => ?_) ⟨j, c, hj, hc.trans hid, hname, .inr hpast⟩
      rw [Option.some.inj (hrec.symm.trans hstored), hid]
  · exact h.writeId hids hphase hfound _

/-- What is marked as deleted stays so in one step. -/
theorem DirInv.staysDeleted (h : DirInv data req s) (hfound : StillAsFound data req s i)
    (hstep : dirStep data req s i = some t) : StaysDeleted s t := by
  have hsame : ∀ phase, StaysDeleted s (s.setPhase i phase) := fun _ => {
    byName := fun place rec hrec hdeleted => ⟨rec, hrec, hdeleted, rfl⟩
    byId := fun id rec hrec hdeleted => ⟨rec, hrec, hdeleted⟩ }
  rcases dirStep_cases hstep with ⟨phase, rfl, -⟩ | ⟨body, hready, rfl⟩ | ⟨body, hphase, rfl⟩
  · exact hsame phase
  · refine ⟨fun place rec hrec hdeleted => ?_, (hsame (.named body)).byId⟩
    rw [RepoDirectory.byName_writeName]
    split_ifs with hplace
    · subst hplace
      rw [StillAsFound, hready] at hfound
      -- a creation writes where nothing was, an update keeps the mark unless it is a stale one
      cases hreq : req i with
      | create c =>
        rw [hreq] at hfound
        rw [show s.byName (namePlace data body.name) = none from hfound] at hrec
        cases hrec
      | update u =>
        rw [hreq] at hfound
        obtain ⟨stored, hstored, hid⟩ := h.update i u body hreq (.inr hready)
        obtain rfl := Option.some.inj (hrec.symm.trans hstored)
        refine ⟨body, rfl, ?_, hid.symm⟩
        by_contra hlive
        have hstoredLive := hfound (Bool.eq_false_iff.mpr hlive) rec hrec
        rw [hdeleted] at hstoredLive
        cases hstoredLive
    · exact ⟨rec, hrec, hdeleted, rfl⟩
  · refine ⟨(hsame (.finished (.ok ((req i).success body)))).byName,
      fun id rec hrec hdeleted => ?_⟩
    rw [RepoDirectory.byId_writeId]
    split_ifs with hid
    · rw [StillAsFound, hphase] at hfound
      exact ⟨body, rfl, hfound.2 rec (hid ▸ hrec) hdeleted⟩
    · exact ⟨rec, hrec, hdeleted⟩

/-! ### Runs -/

omit [DecidableEq ι] in
theorem StaysDeleted.refl (s : RepoDirectory ι) : StaysDeleted s s where
  byName _ rec hrec hdeleted := ⟨rec, hrec, hdeleted, rfl⟩
  byId _ rec hrec hdeleted := ⟨rec, hrec, hdeleted⟩

omit [DecidableEq ι] in
theorem StaysDeleted.trans {u : RepoDirectory ι} (h : StaysDeleted s t) (h' : StaysDeleted t u) :
    StaysDeleted s u where
  byName place rec hrec hdeleted := by
    obtain ⟨rec', hrec', hdeleted', hid⟩ := h.byName place rec hrec hdeleted
    obtain ⟨rec'', hrec'', hdeleted'', hid'⟩ := h'.byName place rec' hrec' hdeleted'
    exact ⟨rec'', hrec'', hdeleted'', hid'.trans hid⟩
  byId id rec hrec hdeleted := by
    obtain ⟨rec', hrec', hdeleted'⟩ := h.byId id rec hrec hdeleted
    exact h'.byId id rec' hrec' hdeleted'

omit [DecidableEq ι] in
/-- The repository that a name has live is the one of the record by name. -/
theorem DirInv.byName_of_liveFor {name : RepoName} {id : RepoId} (h : DirInv data req s)
    (hlive : LiveFor data s name id) :
    ∃ rec, s.byName (namePlace data name) = some rec ∧ rec.id = id := by
  obtain ⟨rec, rfl, rfl, -, hname | hid⟩ := hlive
  · exact ⟨rec, hname, rfl⟩
  · exact (h.byId rec.id rec hid).2

omit [DecidableEq ι] in
/-- Between the requests' writes the records of a repository agree. -/
theorem DirInv.agrees {id : RepoId} (h : DirInv data req s)
    (hbetween : ¬ Between s id) : Agrees data s id := by
  have hagree : ∀ place rec, s.byName place = some rec → rec.id = id → s.byId id = some rec := by
    intro place rec hrec hid
    rcases h.agree place rec hrec with hsame | ⟨i, hi⟩
    · rwa [hid] at hsame
    · exact absurd ⟨i, rec, hi, hid⟩ hbetween
  refine fun rec => ⟨fun hrec => ?_, fun place => hagree place rec⟩
  obtain ⟨hid, rec', hrec', hid'⟩ := h.byId id rec hrec
  rw [hrec', ← hagree _ rec' hrec' hid', hrec]

/-- In every run whose writes find what they rely on, a name has at most one live repository, the
two records of a repository agree when no request is between its writes, and a record that is
marked as deleted stays so. -/
theorem directory_of_along {ops : List ι} (hids : DrawnOnce req)
    (hfound : Along (dirStep data req) (StillAsFound data req) .empty ops)
    (hrun : run (dirStep data req) .empty ops = some s) :
    (∀ name id id', LiveFor data s name id → LiveFor data s name id' → id = id') ∧
      (∀ id, ¬ Between s id → Agrees data s id) ∧
      ∀ front back u, ops = front ++ back → run (dirStep data req) .empty front = some u →
        StaysDeleted u s := by
  have hstep : ∀ s i t, DirInv data req s → StillAsFound data req s i →
      dirStep data req s i = some t → DirInv data req t := fun s i t h hi ht => h.step hids hi ht
  have hinv := hfound.invariant hstep dirInv_empty hrun
  refine ⟨fun name id id' hlive hlive' => ?_, fun id => hinv.agrees, ?_⟩
  · obtain ⟨rec, hrec, rfl⟩ := hinv.byName_of_liveFor hlive
    obtain ⟨rec', hrec', rfl⟩ := hinv.byName_of_liveFor hlive'
    rw [Option.some.inj (hrec.symm.trans hrec')]
  · rintro front back u rfl hfront
    obtain ⟨hfoundFront, hfoundBack⟩ := along_append.mp hfound
    obtain ⟨v, hv, hback⟩ := run_append_eq_some.mp hrun
    obtain rfl := Option.some.inj (hfront.symm.trans hv)
    have hu := hfoundFront.invariant hstep dirInv_empty hfront
    refine ((hfoundBack u hfront).invariant
      (I := fun t => DirInv data req t ∧ StaysDeleted u t) (fun s i t hs hi ht => ?_)
      ⟨hu, .refl u⟩ hback).2
    exact ⟨hstep s i t hs.1 hi ht, hs.2.trans (hs.1.staysDeleted hi ht)⟩

section Sample

/-- A request to create the same repository, with an identifier of its own. -/
def createNotes (k : UInt8) : CreateRequest := ⟨"olivia", "notes", true, none, .replicate 32 k⟩

/-- Two requests to create a repository. -/
def twoCreates (second : Bool) : DirRequest := .create (createNotes (if second then 2 else 1))

/-- A repository is created (`none`), patched (`some false`) and deleted (`some true`). -/
def createPatchDelete : Option Bool → DirRequest
  | none => .create (createNotes 1)
  | some deletion => .update {
      caller := "olivia"
      target := ⟨"olivia", "notes"⟩
      seen := ⟨"olivia", []⟩
      edit := if deletion then .delete else .patch (some true) none }

/-- The repository is created and deleted while a patch has read its record. -/
def untilDeleted : List (Option Bool) :=
  [none, none, none, some false, some false, some true, some true, some true, some true, some true]

/-- Two requests that check the path before either writes make two live repositories of one name;
and a patch that writes what it read before the deletion brings the repository back. -/
theorem directory_races :
    ((run (dirStep sampleRoot twoCreates) .empty [false, true, false, true, false, true]).map
        fun s => (s.byId (.replicate 32 1), s.byId (.replicate 32 2))) =
      some (some (createNotes 1).record, some (createNotes 2).record) ∧
    ((run (dirStep sampleRoot createPatchDelete) .empty untilDeleted).map fun s =>
        (s.byName (namePlace sampleRoot ⟨"olivia", "notes"⟩)).map RepoRecord.deleted) =
      some (some true) ∧
    ((run (dirStep sampleRoot createPatchDelete) .empty
        (untilDeleted ++ [some false, some false, some false])).map fun s =>
        ((s.byName (namePlace sampleRoot ⟨"olivia", "notes"⟩)).map RepoRecord.deleted,
          (s.byId (.replicate 32 1)).map RepoRecord.deleted)) =
      some (some false, some false) := by
  decide +kernel

/-- Two repositories are created (`0`, `1`), the first is patched (`2`) and the second is
deleted (`3`). -/
def twoRepos (i : Fin 4) : DirRequest :=
  if i = 0 then .create (createNotes 1)
  else if i = 1 then .create { createNotes 3 with name := "drafts" }
  else .update {
    caller := "olivia"
    target := ⟨"olivia", if i = 2 then "notes" else "drafts"⟩
    seen := ⟨"olivia", []⟩
    edit := if i = 2 then .patch (some false) none else .delete }

/-- The requests come between one another's steps. -/
def interleavedRepos : List (Fin 4) := [0, 1, 0, 1, 1, 0, 2, 3, 3, 2, 2, 3, 2, 3, 3, 2]

theorem directory_interleavedRepos :
    ∃ s, run (dirStep sampleRoot twoRepos) .empty interleavedRepos = some s ∧
      (s.byId (.replicate 32 1)).map RepoRecord.deleted = some false ∧
      (s.byId (.replicate 32 3)).map RepoRecord.deleted = some true ∧
      (∀ name id id', LiveFor sampleRoot s name id → LiveFor sampleRoot s name id' → id = id') ∧
      ∀ id, ¬ Between s id → Agrees sampleRoot s id := by
  have hids : DrawnOnce twoRepos := by
    have hcreates {i : Fin 4} {c : CreateRequest} (hi : twoRepos i = .create c) :
        i = 0 ∧ c.id = .replicate 32 1 ∨ i = 1 ∧ c.id = .replicate 32 3 := by
      unfold twoRepos at hi
      split_ifs at hi with hfirst hsecond
      · obtain rfl := DirRequest.create.inj hi
        exact .inl ⟨hfirst, rfl⟩
      · obtain rfl := DirRequest.create.inj hi
        exact .inr ⟨hsecond, rfl⟩
    have hdistinct : (.replicate 32 1 : RepoId) ≠ .replicate 32 3 := by decide
    intro i j c d hi hj hsame
    rcases hcreates hi with ⟨rfl, hc⟩ | ⟨rfl, hc⟩ <;> rcases hcreates hj with ⟨rfl, hd⟩ | ⟨rfl, hd⟩
    · rfl
    · exact absurd (hc.symm.trans (hsame.trans hd)) hdistinct
    · exact absurd (hd.symm.trans (hsame.symm.trans hc)) hdistinct
    · rfl
  have hfound : Along (dirStep sampleRoot twoRepos) (StillAsFound sampleRoot twoRepos) .empty
      interleavedRepos := by
    decide +kernel
  have hsome : (run (dirStep sampleRoot twoRepos) .empty interleavedRepos).map
      (fun s => ((s.byId (.replicate 32 1)).map RepoRecord.deleted,
        (s.byId (.replicate 32 3)).map RepoRecord.deleted)) = some (some false, some true) := by
    decide +kernel
  obtain ⟨s, hrun, hrecords⟩ := Option.map_eq_some_iff.mp hsome
  obtain ⟨hnotes, hdrafts⟩ := Prod.mk.inj hrecords
  obtain ⟨hlive, hagree, -⟩ := directory_of_along hids hfound hrun
  exact ⟨s, hrun, hnotes, hdrafts, hlive, hagree⟩

end Sample

end SafeHub
