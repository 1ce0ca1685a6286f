import SafeHub.Lib.Framing
import SafeHub.Lib.Run
import SafeHub.Lib.TreeMaps
import SafeHub.Lib.WriteThrough

/-!
# Accounts and tokens

The host keeps its accounts and their tokens in memory and in one JSON file. Registering,
issuing a session, creating an access token and revoking a token each check the request, change
the accounts in memory and write the file. A write can fail, and the host can be restarted at any
time. The JSON codec, the password hash, the clock and the random identifiers are parameters.

## Main definitions

* `AuthDb`, `AuthStore` — the accounts, and the store that keeps them
* `register`, `issueSession`, `createPat`, `revokeToken` — the four calls
* `AuthCall.Meets` — a call whose write does not fail, unless there is nothing to write
* `AuthStep` — a call or a restart

## Main results

* `authCall_atomic_iff` — a call is atomic unless its write fails and it has something to write
* `auth_atomic` — the accounts in memory and on disk agree in runs of such calls
-/

namespace SafeHub.Accounts

open FixedWidth Framing Run WriteThrough
open Std (ExtTreeMap)

/-- A user with the hash of the password. -/
structure UserRecord where
  username : String
  passwordHash : String
  createdAt : String
  deriving DecidableEq, Repr

/-- A session or an access token. -/
structure TokenRecord where
  token : String
  user : String
  note : String
  scopes : List String
  /-- `session` or `pat` -/
  kind : String
  createdAt : String
  deriving DecidableEq, Repr

/-- The accounts: users by their names, and tokens by their texts. -/
structure AuthDb where
  users : ExtTreeMap String UserRecord compare
  tokens : ExtTreeMap String TokenRecord compare
  deriving DecidableEq

/-- No accounts. -/
def AuthDb.empty : AuthDb := ⟨∅, ∅⟩

/-- The store: the accounts in memory, and `auth.json` with its temporary file. -/
abbrev AuthStore := Store AuthDb Bytes

/-- The JSON of the accounts. -/
abbrev AuthCodec := Codec AuthDb Bytes

inductive AuthError
  | badRequest (message : String)
  | unauthorized
  | conflict (message : String)
  | notFound
  | io (message : String)
  | hash (message : String)
  deriving DecidableEq, Repr

def scopeRepo : String := "repo"

def scopeReadUser : String := "read:user"

/-! ### What a call makes of the accounts -/

/-- A registration, with the hash of the password and the time. -/
def planRegister (username password : String) (hash : Except String String) (now : String)
    (db : AuthDb) : Except AuthError (AuthDb × UserRecord) :=
  if username = "" ∨ password = "" then .error (.badRequest "user and password required")
  else if username ∈ db.users then .error (.conflict "user already exists")
  else
    match hash with
    | .error e => .error (.hash e)
    | .ok hash =>
      let rec_ : UserRecord := ⟨username, hash, now⟩
      .ok ({ db with users := db.users.insert username rec_ }, rec_)

def sessionRecord (username uuid now : String) : TokenRecord :=
  ⟨"ph_" ++ uuid, username, "session", [scopeRepo, scopeReadUser], "session", now⟩

/-- A session, with a random identifier. -/
def planSession (username uuid now : String) (db : AuthDb) :
    Except AuthError (AuthDb × TokenRecord) :=
  let rec_ := sessionRecord username uuid now
  .ok ({ db with tokens := db.tokens.insert rec_.token rec_ }, rec_)

/-- The first scope of a list that there is not. -/
def unknownScope (scopes : List String) : Option String :=
  scopes.find? fun s => s ≠ scopeRepo ∧ s ≠ scopeReadUser

/-- An access token has all scopes if none are given. -/
def patRecord (username note : String) (scopes : List String) (uuid now : String) : TokenRecord :=
  let scopes := if scopes.isEmpty then [scopeRepo, scopeReadUser] else scopes
  ⟨"shpat_" ++ uuid, username, note, scopes, "pat", now⟩

def planPat (username note : String) (scopes : List String) (uuid now : String) (db : AuthDb) :
    Except AuthError (AuthDb × TokenRecord) :=
  match unknownScope scopes with
  | some s => .error (.badRequest s!"unknown scope: {s}")
  | none =>
    let rec_ := patRecord username note scopes uuid now
    .ok ({ db with tokens := db.tokens.insert rec_.token rec_ }, rec_)

/-- A token is revoked by its user only. -/
def planRevoke (username token : String) (db : AuthDb) : Except AuthError (AuthDb × Unit) :=
  match db.tokens[token]? with
  | some t =>
    if t.user = username then .ok ({ db with tokens := db.tokens.erase token }, ())
    else .error .unauthorized
  | none => .error .notFound

/-! ### The calls -/

section Calls

variable (codec : AuthCodec) (fault : Option (Fault Bytes))

/-- Read `auth.json`; what does not parse is no accounts. -/
def openStore (files : Files Bytes) : AuthStore := ⟨load codec .empty files, files⟩

def register (username password : String) (hash : Except String String) (now : String)
    (s : AuthStore) : Except AuthError UserRecord × AuthStore :=
  commit codec .io (planRegister username password hash now) fault s

def issueSession (username uuid now : String) (s : AuthStore) :
    Except AuthError TokenRecord × AuthStore :=
  commit codec .io (planSession username uuid now) fault s

def createPat (username note : String) (scopes : List String) (uuid now : String)
    (s : AuthStore) : Except AuthError TokenRecord × AuthStore :=
  commit codec .io (planPat username note scopes uuid now) fault s

def revokeToken (username token : String) (s : AuthStore) : Except AuthError Unit × AuthStore :=
  commit codec .io (planRevoke username token) fault s

end Calls

/-! ### A byte form of the accounts -/

def userCode : Code UserRecord :=
  (Code.string.pair (Code.string.pair Code.string)).through
    (fun u => (u.username, u.passwordHash, u.createdAt)) (fun p => ⟨p.1, p.2.1, p.2.2⟩)
    fun _ => rfl

def tokenCode : Code TokenRecord :=
  (Code.string.pair (Code.string.pair (Code.string.pair
    (Code.string.list.pair (Code.string.pair Code.string))))).through
    (fun t => (t.token, t.user, t.note, t.scopes, t.kind, t.createdAt))
    (fun p => ⟨p.1, p.2.1, p.2.2.1, p.2.2.2.1, p.2.2.2.2.1, p.2.2.2.2.2⟩) fun _ => rfl

/-- The accounts by the entries of their maps. -/
def dbCode : Code AuthDb :=
  ((Code.string.pair userCode).list.pair (Code.string.pair tokenCode).list).through
    (fun db => (db.users.toList, db.tokens.toList))
    (fun p => ⟨ExtTreeMap.ofList p.1 compare, ExtTreeMap.ofList p.2 compare⟩)
    fun db => by rw [TreeMaps.ofList_toList, TreeMaps.ofList_toList]

def framedDb : AuthCodec := ⟨dbCode.write, dbCode.readAll, dbCode.readAll_write⟩

/-! ### Calls and restarts -/

/-- One of the four calls, with what it draws. -/
inductive AuthRequest
  | register (username password : String) (hash : Except String String) (now : String)
  | issueSession (username uuid now : String)
  | createPat (username note : String) (scopes : List String) (uuid now : String)
  | revokeToken (username token : String)

/-- What a call returns. -/
inductive AuthReply
  | user (rec_ : UserRecord)
  | token (rec_ : TokenRecord)
  | revoked
  deriving DecidableEq, Repr

/-- A call, and how its write fails if it does. -/
structure AuthCall where
  request : AuthRequest
  fault : Option (Fault Bytes)

def AuthCall.run (codec : AuthCodec) (call : AuthCall) (s : AuthStore) :
    Except AuthError AuthReply × AuthStore :=
  match call.request with
  | .register username password hash now =>
    (register codec call.fault username password hash now s).map (·.map .user) id
  | .issueSession username uuid now =>
    (issueSession codec call.fault username uuid now s).map (·.map .token) id
  | .createPat username note scopes uuid now =>
    (createPat codec call.fault username note scopes uuid now s).map (·.map .token) id
  | .revokeToken username token =>
    (revokeToken codec call.fault username token s).map (·.map fun _ => .revoked) id

/-- A request that has nothing to write: it is refused, or the token it adds is there. -/
def AuthRequest.Idle (request : AuthRequest) (db : AuthDb) : Prop :=
  match request with
  | .register username password hash _ =>
    username = "" ∨ password = "" ∨ username ∈ db.users ∨ ∃ e, hash = .error e
  | .issueSession username uuid now =>
    db.tokens["ph_" ++ uuid]? = some (sessionRecord username uuid now)
  | .createPat username note scopes uuid now =>
    (∃ s ∈ scopes, s ≠ scopeRepo ∧ s ≠ scopeReadUser) ∨
      db.tokens["shpat_" ++ uuid]? = some (patRecord username note scopes uuid now)
  | .revokeToken username token => ∀ t, db.tokens[token]? = some t → t.user ≠ username

/-- A call whose write does not fail, unless it has nothing to write. -/
def AuthCall.Meets (s : AuthStore) (call : AuthCall) : Prop :=
  call.fault = none ∨ call.request.Idle s.memory

/-- A call, or a restart of the host. -/
inductive AuthStep
  | call (call : AuthCall)
  | restart

def authStep (codec : AuthCodec) (s : AuthStore) : AuthStep → Option AuthStore
  | .call c => some (c.run codec s).2
  | .restart => some (reopen codec .empty s)

/-- The condition on the calls of a run. -/
def AuthStep.Meets (s : AuthStore) : AuthStep → Prop
  | .call c => c.Meets s
  | .restart => True

/-! ### What leaves the accounts as they are -/

variable {codec : AuthCodec} {db : AuthDb} {s t : AuthStore} {call : AuthCall}

theorem keeps_planRegister_iff {username password now : String} {hash : Except String String} :
    Keeps (planRegister username password hash now) db ↔
      username = "" ∨ password = "" ∨ username ∈ db.users ∨ ∃ e, hash = .error e := by
  rw [← or_assoc]
  by_cases hempty : username = "" ∨ password = ""
  · exact iff_of_true (.of_refused (by rw [planRegister.eq_def, if_pos hempty])) (.inl hempty)
  by_cases hmem : username ∈ db.users
  · refine iff_of_true (.of_refused (e := .conflict "user already exists") ?_) (.inr (.inl hmem))
    rw [planRegister.eq_def, if_neg hempty, if_pos hmem]
  cases hhash : hash with
  | error e =>
    refine iff_of_true (.of_refused (e := .hash e) ?_) (.inr (.inr ⟨e, rfl⟩))
    rw [planRegister, if_neg hempty, if_neg hmem]
  | ok phc =>
    rw [keeps_iff_of_planned (by rw [planRegister, if_neg hempty, if_neg hmem])]
    refine iff_of_false (fun hdb => ?_) ?_
    · -- the new user is there afterwards, and was not before
      have husers := congrArg AuthDb.users hdb
      rw [TreeMaps.insert_eq_self_iff] at husers
      exact hmem (ExtTreeMap.mem_iff_isSome_getElem?.mpr (by rw [husers]; rfl))
    · rintro (h | h | ⟨e, h⟩)
      · exact hempty h
      · exact hmem h
      · cases h

/-- A token that is added is there already. -/
theorem withToken_eq_iff (rec_ : TokenRecord) :
    { db with tokens := db.tokens.insert rec_.token rec_ } = db ↔
      db.tokens[rec_.token]? = some rec_ := by
  rw [← TreeMaps.insert_eq_self_iff]
  constructor
  · intro h
    exact congrArg AuthDb.tokens h
  · intro h
    rw [h]

theorem keeps_planSession_iff {username uuid now : String} :
    Keeps (planSession username uuid now) db ↔
      db.tokens["ph_" ++ uuid]? = some (sessionRecord username uuid now) := by
  rw [keeps_iff_of_planned rfl]
  exact withToken_eq_iff (sessionRecord username uuid now)

theorem unknownScope_eq_none_iff {scopes : List String} :
    unknownScope scopes = none ↔ ¬∃ s ∈ scopes, s ≠ scopeRepo ∧ s ≠ scopeReadUser := by
  simp [unknownScope]

theorem keeps_planPat_iff {username note uuid now : String} {scopes : List String} :
    Keeps (planPat username note scopes uuid now) db ↔
      (∃ s ∈ scopes, s ≠ scopeRepo ∧ s ≠ scopeReadUser) ∨
        db.tokens["shpat_" ++ uuid]? = some (patRecord username note scopes uuid now) := by
  cases hscope : unknownScope scopes with
  | some scope =>
    have hunknown : ∃ s ∈ scopes, s ≠ scopeRepo ∧ s ≠ scopeReadUser := by
      by_contra hnone
      rw [unknownScope_eq_none_iff.mpr hnone] at hscope
      cases hscope
    exact iff_of_true (.of_refused (by rw [planPat, hscope])) (.inl hunknown)
  | none =>
    rw [or_iff_right (unknownScope_eq_none_iff.mp hscope),
      keeps_iff_of_planned (by rw [planPat, hscope])]
    exact withToken_eq_iff (patRecord username note scopes uuid now)

theorem keeps_planRevoke_iff {username token : String} :
    Keeps (planRevoke username token) db ↔
      ∀ t, db.tokens[token]? = some t → t.user ≠ username := by
  cases htoken : db.tokens[token]? with
  | none =>
    refine iff_of_true (.of_refused (by rw [planRevoke, htoken])) fun t ht => ?_
    cases ht
  | some t =>
    by_cases huser : t.user = username
    · rw [keeps_iff_of_planned (by rw [planRevoke, htoken]; exact if_pos huser)]
      refine iff_of_false (fun hdb => ?_) fun h => h t rfl huser
      -- the token is gone afterwards
      have htokens := congrArg (fun db : AuthDb => db.tokens[token]?) hdb
      dsimp only at htokens
      rw [ExtTreeMap.getElem?_erase_self, htoken] at htokens
      cases htokens
    · refine iff_of_true (.of_refused (by rw [planRevoke, htoken]; exact if_neg huser)) ?_
      intro t' ht
      rwa [← Option.some.inj ht]

/-! ### Calls that are atomic -/

/-- A call is atomic unless its write fails and it had something to write. -/
theorem authCall_atomic_iff : Atomic codec .empty s (call.run codec s) ↔ call.Meets s := by
  obtain ⟨request, fault⟩ := call
  cases request with
  | register username password hash now =>
    exact (atomic_map_iff _).trans (commit_atomic_iff.trans
      (or_congr_right keeps_planRegister_iff))
  | issueSession username uuid now =>
    exact (atomic_map_iff _).trans (commit_atomic_iff.trans
      (or_congr_right keeps_planSession_iff))
  | createPat username note scopes uuid now =>
    exact (atomic_map_iff _).trans (commit_atomic_iff.trans (or_congr_right keeps_planPat_iff))
  | revokeToken username token =>
    exact (atomic_map_iff _).trans (commit_atomic_iff.trans
      (or_congr_right keeps_planRevoke_iff))

/-- Such calls keep the accounts in memory and on disk together. -/
theorem synced_run (h : Synced codec .empty s) (hmeets : call.Meets s) :
    Synced codec .empty (call.run codec s).2 := by
  obtain ⟨request, fault⟩ := call
  cases request with
  | register username password hash now =>
    exact h.commit (hmeets.imp_right keeps_planRegister_iff.mpr)
  | issueSession username uuid now =>
    exact h.commit (hmeets.imp_right keeps_planSession_iff.mpr)
  | createPat username note scopes uuid now =>
    exact h.commit (hmeets.imp_right keeps_planPat_iff.mpr)
  | revokeToken username token =>
    exact h.commit (hmeets.imp_right keeps_planRevoke_iff.mpr)

theorem synced_authStep {step : AuthStep} (h : Synced codec .empty s) (hmeets : step.Meets s)
    (hstep : authStep codec s step = some t) : Synced codec .empty t := by
  cases step with
  | call c =>
    obtain rfl := Option.some.inj hstep
    exact synced_run h hmeets
  | restart =>
    obtain rfl := Option.some.inj hstep
    exact Synced.reopen codec .empty s

/-- Every call of a run is atomic, and memory agrees with the file throughout, if no write of the
run fails that has something to write. -/
theorem auth_atomic (codec : AuthCodec) :
    (∀ s (call : AuthCall), Atomic codec .empty s (call.run codec s) ↔ call.Meets s) ∧
      ∀ files steps, Along (authStep codec) AuthStep.Meets (openStore codec files) steps →
        (∀ front call back s, steps = front ++ AuthStep.call call :: back →
          run (authStep codec) (openStore codec files) front = some s →
            Atomic codec .empty s (call.run codec s)) ∧
        ∀ s, run (authStep codec) (openStore codec files) steps = some s →
          Synced codec .empty s := by
  refine ⟨fun _ _ => authCall_atomic_iff, fun files steps hmeets => ⟨?_, ?_⟩⟩
  · intro front call back s hsteps hrun
    exact authCall_atomic_iff.mpr (along_iff.mp hmeets front _ back s hsteps hrun)
  · intro s hrun
    have hopen : Synced codec .empty (openStore codec files) := rfl
    exact hmeets.invariant (fun _ _ _ => synced_authStep) hopen hrun

def aliceRegisters : AuthCall := ⟨.register "alice" "pw" (.ok "$argon2id$") "t0", none⟩

def aliceCreatesToken : AuthCall := ⟨.createPat "alice" "ci" [] "1" "t1", none⟩

/-- A revocation whose write fails as the file is to be replaced. -/
def aliceRevokes : AuthCall := ⟨.revokeToken "alice" "shpat_1", some (.rename "disk failure")⟩

theorem auth_atomic_alice :
    ∃ s, run (authStep framedDb) (openStore framedDb ⟨none, none⟩)
        [.call aliceRegisters, .restart, .call aliceCreatesToken] = some s ∧
      Synced framedDb .empty s := by
  have hmeets : Along (authStep framedDb) AuthStep.Meets (openStore framedDb ⟨none, none⟩)
      [.call aliceRegisters, .restart, .call aliceCreatesToken] :=
    ⟨.inl rfl, fun _ _ => ⟨trivial, fun _ _ => ⟨.inl rfl, fun _ _ => trivial⟩⟩⟩
  exact ⟨_, rfl, ((auth_atomic framedDb).2 ⟨none, none⟩ _ hmeets).2 _ rfl⟩

/-- A revoked token is gone although the call fails, and is back after a restart. -/
theorem auth_not_atomic :
    ∃ s, run (authStep framedDb) (openStore framedDb ⟨none, none⟩)
        [.call aliceRegisters, .call aliceCreatesToken] = some s ∧
      (aliceRevokes.run framedDb s).1 = .error (.io "disk failure") ∧
      "shpat_1" ∈ s.memory.tokens ∧
      "shpat_1" ∉ (aliceRevokes.run framedDb s).2.memory.tokens ∧
      "shpat_1" ∈ (reopen framedDb .empty (aliceRevokes.run framedDb s).2).memory.tokens ∧
      ¬Atomic framedDb .empty s (aliceRevokes.run framedDb s) := by
  refine ⟨_, rfl, by decide +kernel, by decide +kernel, by decide +kernel, by decide +kernel, ?_⟩
  intro hatomic
  have hmemory := hatomic.unchanged (.io "disk failure") (by decide +kernel)
  revert hmemory
  decide +kernel

end SafeHub.Accounts
