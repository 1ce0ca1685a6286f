import Mathlib.Tactic.SplitIfs

/-!
# Stores with a copy in memory

A store keeps a value in memory and writes the whole of it to a file after every change: to a
temporary file first, which then takes the place of the file. The change is made in memory
before the file is written, so a write that fails leaves memory ahead of the file.

## Main definitions

* `Store` — a value in memory and the files it is kept in
* `persist`, `load` — writing the file and reading it
* `commit` — a change that is checked, made in memory and then written
* `Atomic` — what a caller expects of a change

## Main results

* `commit_atomic_iff` — a change is atomic unless its write fails and it changed the value
* `Synced.commit` — atomic changes keep memory and file together
-/

namespace WriteThrough

variable {V B E R : Type}

/-- The file of a store, and the temporary file beside it. -/
structure Files (B : Type) where
  file : Option B
  tmp : Option B

/-- A write that fails. -/
inductive Fault (B : Type)
  /-- In the temporary file, of which anything may be left. -/
  | write (left : Option B) (message : String)
  /-- When the temporary file is to take the place of the file. -/
  | rename (message : String)

/-- What a value is written as, and read from. -/
structure Codec (V B : Type) where
  encode : V → B
  decode : B → Option V
  decode_encode : ∀ v, decode (encode v) = some v

/-- A value in memory, and the files it is kept in. -/
structure Store (V B : Type) where
  memory : V
  files : Files B

/-- Write the temporary file, and let it take the place of the file. -/
def persist (codec : Codec V B) (fault : Option (Fault B)) (v : V) (files : Files B) :
    Except String Unit × Files B :=
  match fault with
  | some (.write left message) => (.error message, { files with tmp := left })
  | some (.rename message) => (.error message, { files with tmp := some (codec.encode v) })
  | none => (.ok (), ⟨some (codec.encode v), none⟩)

/-- What is read from the file. Without one, or if it does not parse, that is `fresh`. -/
def load (codec : Codec V B) (fresh : V) (files : Files B) : V :=
  match files.file with
  | some bytes => (codec.decode bytes).getD fresh
  | none => fresh

/-- Forget the memory and read the file. -/
def reopen (codec : Codec V B) (fresh : V) (s : Store V B) : Store V B :=
  ⟨load codec fresh s.files, s.files⟩

/-- A change: it is refused as it is planned, or made in memory and then written. -/
def commit (codec : Codec V B) (onFault : String → E) (plan : V → Except E (V × R))
    (fault : Option (Fault B)) (s : Store V B) : Except E R × Store V B :=
  match plan s.memory with
  | .error e => (.error e, s)
  | .ok (v, r) =>
    match persist codec fault v s.files with
    | (.ok (), files) => (.ok r, ⟨v, files⟩)
    | (.error message, files) => (.error (onFault message), ⟨v, files⟩)

variable {codec : Codec V B} {fresh v : V} {onFault : String → E} {plan : V → Except E (V × R)}
  {fault : Option (Fault B)} {s : Store V B} {files : Files B} {r : R}

/-- Of a change that fails, memory shows nothing; and one that succeeds is read from the file. -/
structure Atomic (codec : Codec V B) (fresh : V) (s : Store V B)
    (outcome : Except E R × Store V B) : Prop where
  unchanged : ∀ e, outcome.1 = .error e → outcome.2.memory = s.memory
  saved : ∀ r, outcome.1 = .ok r → load codec fresh outcome.2.files = outcome.2.memory

/-- A change that is refused, or leaves a value as it is. -/
def Keeps (plan : V → Except E (V × R)) (v : V) : Prop :=
  ∀ w r, plan v = .ok (w, r) → w = v

/-- Memory is what the file says. -/
def Synced (codec : Codec V B) (fresh : V) (s : Store V B) : Prop :=
  load codec fresh s.files = s.memory

theorem Keeps.of_refused {e : E} (h : plan v = .error e) : Keeps plan v := by
  intro w r hok
  rw [h] at hok
  cases hok

theorem keeps_iff_of_planned {w : V} (h : plan v = .ok (w, r)) : Keeps plan v ↔ w = v := by
  constructor
  · intro hkeeps
    exact hkeeps w r h
  · intro hsame w' r' hok
    rw [h] at hok
    obtain ⟨rfl, -⟩ := Prod.mk.inj (Except.ok.inj hok)
    exact hsame

theorem persist_none (codec : Codec V B) (v : V) (files : Files B) :
    persist codec none v files = (.ok (), ⟨some (codec.encode v), none⟩) := rfl

/-- A write that fails leaves the file. -/
theorem persist_some (codec : Codec V B) (f : Fault B) (v : V) (files : Files B) :
    ∃ message tmp, persist codec (some f) v files = (.error message, ⟨files.file, tmp⟩) := by
  cases f with
  | write left message => exact ⟨message, left, rfl⟩
  | rename message => exact ⟨message, some (codec.encode v), rfl⟩

/-- What was written is read. -/
theorem load_encode (codec : Codec V B) (fresh v : V) (tmp : Option B) :
    load codec fresh ⟨some (codec.encode v), tmp⟩ = v := by
  change (codec.decode (codec.encode v)).getD fresh = v
  rw [codec.decode_encode, Option.getD_some]

theorem commit_of_refused {e : E} (h : plan s.memory = .error e) :
    commit codec onFault plan fault s = (.error e, s) := by
  rw [commit, h]

theorem commit_of_written (h : plan s.memory = .ok (v, r)) :
    commit codec onFault plan none s = (.ok r, ⟨v, ⟨some (codec.encode v), none⟩⟩) := by
  rw [commit, h]
  dsimp only
  rw [persist_none]

theorem commit_of_fault (codec : Codec V B) (onFault : String → E)
    (h : plan s.memory = .ok (v, r)) (f : Fault B) :
    ∃ message tmp, commit codec onFault plan (some f) s =
      (.error (onFault message), ⟨v, ⟨s.files.file, tmp⟩⟩) := by
  obtain ⟨message, tmp, hpersist⟩ := persist_some codec f v s.files
  refine ⟨message, tmp, ?_⟩
  rw [commit, h]
  dsimp only
  rw [hpersist]

/-- A change is atomic just when its write does not fail, or it has nothing to write. -/
theorem commit_atomic_iff :
    Atomic codec fresh s (commit codec onFault plan fault s) ↔
      fault = none ∨ Keeps plan s.memory := by
  cases hplan : plan s.memory with
  | error e =>
    rw [commit_of_refused hplan]
    refine iff_of_true ⟨fun _ _ => rfl, fun r hr => ?_⟩ (.inr (Keeps.of_refused hplan))
    cases hr
  | ok planned =>
    obtain ⟨v, r⟩ := planned
    rw [keeps_iff_of_planned hplan]
    cases fault with
    | none =>
      rw [commit_of_written hplan]
      refine iff_of_true ⟨fun e he => ?_, fun _ _ => load_encode codec fresh v none⟩ (.inl rfl)
      cases he
    | some f =>
      -- the call fails, and memory has what was planned
      obtain ⟨message, tmp, hcommit⟩ := commit_of_fault codec onFault hplan f
      rw [hcommit]
      constructor
      · intro hatomic
        exact .inr (hatomic.unchanged _ rfl)
      · intro hkeeps
        rcases hkeeps with hnone | hsame
        · cases hnone
        · refine ⟨fun _ _ => hsame, fun r hr => ?_⟩
          cases hr

/-- What a change answers does not matter. -/
theorem atomic_map_iff {R' : Type} {outcome : Except E R × Store V B} (f : R → R') :
    Atomic codec fresh s (outcome.map (·.map f) id) ↔ Atomic codec fresh s outcome := by
  obtain ⟨reply, after⟩ := outcome
  cases reply with
  | error e =>
    constructor
    · intro h
      exact ⟨fun e' _ => h.unchanged e rfl, nofun⟩
    · intro h
      exact ⟨fun e' _ => h.unchanged e rfl, nofun⟩
  | ok r =>
    constructor
    · intro h
      exact ⟨nofun, fun _ _ => h.saved (f r) rfl⟩
    · intro h
      exact ⟨nofun, fun _ _ => h.saved r rfl⟩

theorem Synced.reopen (codec : Codec V B) (fresh : V) (s : Store V B) :
    Synced codec fresh (reopen codec fresh s) := rfl

/-- Such changes keep memory and file together. -/
theorem Synced.commit (h : Synced codec fresh s) (hkeeps : fault = none ∨ Keeps plan s.memory) :
    Synced codec fresh (commit codec onFault plan fault s).2 := by
  cases hplan : plan s.memory with
  | error e =>
    rw [commit_of_refused hplan]
    exact h
  | ok planned =>
    obtain ⟨v, r⟩ := planned
    cases fault with
    | none =>
      rw [commit_of_written hplan]
      exact load_encode codec fresh v none
    | some f =>
      obtain ⟨message, tmp, hcommit⟩ := commit_of_fault codec onFault hplan f
      rcases hkeeps with hnone | hkeeps
      · cases hnone
      · rw [hcommit, hkeeps v r hplan]
        exact h

end WriteThrough
