import SafeHub.Lib.Framing
import SafeHub.Lib.PlainWrite
import SafeHub.Lib.Run

/-!
# Edits of a plainly written file

Requests share a value that is kept in one file. Each reads the file, edits what it has read and
writes the whole value back: it empties the file and fills it chunk by chunk. Nothing is held
over these steps, so the steps of different requests mix in any order, and each of them can fail.

If every request that begins to write finds the file as it read it, and no write fails half way,
the requests have their effects one after the other.

## Main definitions

* `Codec` — how values are written, so that a part of a file does not parse
* `State`, `step` — the file and the requests, one file access at a time
* `Fits` — a request begins to write over what it has read, and completes what it has begun
* `Kept` — what the edits keep, one after the other

## Main results

* `run_kept` — it holds of the file and the answers after a run of such steps
-/

namespace FileEdits

open PlainWrite Run

variable {V ρ ι : Type}

/-- What values are written as. -/
structure Codec (V : Type) where
  encode : V → Bytes
  decode : Bytes → Except String V
  decode_encode : ∀ v, decode (encode v) = .ok v
  encode_ne_nil : ∀ v, encode v ≠ []
  /-- A part of a file does not parse. -/
  decode_take : ∀ v k, k < (encode v).length → ∃ e, decode ((encode v).take k) = .error e

/-- A self-delimiting code, of which only what it writes parses. -/
def Codec.ofCode (code : Framing.Code V) (hne : ∀ v, code.write v ≠ []) : Codec V where
  encode := code.write
  decode bytes :=
    match code.readAll bytes with
    | some v => if code.write v = bytes then .ok v else .error "malformed"
    | none => .error "malformed"
  decode_encode v := by
    rw [code.readAll_write]
    exact if_pos rfl
  encode_ne_nil := hne
  decode_take v k hk := by
    split
    next w hread =>
      refine ⟨_, if_neg fun hwrite => ?_⟩
      -- a code writes no value as a part of another
      have happend : code.write w ++ (code.write v).drop k = code.write v ++ [] := by
        rw [hwrite, List.take_append_drop, List.append_nil]
      have hdrop := (code.write_append_inj happend).2
      exact absurd (List.drop_eq_nil_iff.mp hdrop) (Nat.not_le.mpr hk)
    · exact ⟨_, rfl⟩

/-- How a file access comes out. -/
inductive Access
  /-- A write takes one byte, and at most `n` more. -/
  | go (n : ℕ)
  | fail (message : String)
  deriving DecidableEq, Repr

def Access.Fails : Access → Prop
  | .go _ => False
  | .fail _ => True

instance (access : Access) : Decidable access.Fails :=
  match access with
  | .go _ => .isFalse id
  | .fail _ => .isTrue trivial

/-- How far a request has come. -/
inductive Phase (V ρ : Type)
  | arrived
  /-- It has read the file and edited the value. -/
  | edited (seen : Option Bytes) (v : V) (r : ρ)
  /-- The first `k` bytes of the new content are written. -/
  | writing (content : Bytes) (k : ℕ) (r : ρ)
  | finished (reply : Except String ρ)

/-- The file and the requests on it. -/
structure State (V ρ ι : Type) where
  file : Option Bytes
  phase : ι → Phase V ρ

def State.start (file : Option Bytes) : State V ρ ι := ⟨file, fun _ => .arrived⟩

/-- A request that has read the file goes on with what its edit makes of the value. -/
def Phase.ofRead (seen : Option Bytes) : Except String (V × ρ) → Phase V ρ
  | .error e => .finished (.error e)
  | .ok (v, r) => .edited seen v r

/-- A request is done when all of the content is written. -/
def Phase.ofWrite (content : Bytes) (k : ℕ) (r : ρ) : Phase V ρ :=
  if k = content.length then .finished (.ok r) else .writing content k r

/-- The answer of a request that has succeeded. -/
def Phase.answer : Phase V ρ → Option ρ
  | .finished (.ok r) => some r
  | _ => none

def State.answer (s : State V ρ ι) (i : ι) : Option ρ := (s.phase i).answer

/-- A request is in the middle of a write. -/
def Phase.Writes (phase : Phase V ρ) : Prop := ∃ content k r, phase = .writing content k r

@[simp] theorem Phase.not_writes_arrived : ¬(arrived : Phase V ρ).Writes := by
  rintro ⟨_, _, _, ⟨⟩⟩

@[simp] theorem Phase.not_writes_edited {seen : Option Bytes} {v : V} {r : ρ} :
    ¬(edited seen v r).Writes := by
  rintro ⟨_, _, _, ⟨⟩⟩

@[simp] theorem Phase.not_writes_finished {reply : Except String ρ} :
    ¬(finished reply : Phase V ρ).Writes := by
  rintro ⟨_, _, _, ⟨⟩⟩

/-- A request that has not answered and does not write. -/
structure Phase.Waits (phase : Phase V ρ) : Prop where
  answer : phase.answer = none
  not_writes : ¬phase.Writes

theorem Phase.waits_arrived : (arrived : Phase V ρ).Waits := ⟨rfl, not_writes_arrived⟩

theorem Phase.waits_edited {seen : Option Bytes} {v : V} {r : ρ} : (edited seen v r).Waits :=
  ⟨rfl, not_writes_edited⟩

theorem Phase.waits_failed {e : String} : (finished (.error e) : Phase V ρ).Waits :=
  ⟨rfl, not_writes_finished⟩

instance (phase : Phase V ρ) : Decidable phase.Writes :=
  match phase with
  | .writing content k r => .isTrue ⟨content, k, r, rfl⟩
  | .arrived => .isFalse Phase.not_writes_arrived
  | .edited .. => .isFalse Phase.not_writes_edited
  | .finished _ => .isFalse Phase.not_writes_finished

/-- No request is in the middle of a write. -/
def State.Quiet (s : State V ρ ι) : Prop := ∀ i, ¬(s.phase i).Writes

/-- The value in the file; without a file it is `fresh`. -/
def load (codec : Codec V) (fresh : V) (file : Option Bytes) : Except String V :=
  match file with
  | none => .ok fresh
  | some bytes => codec.decode bytes

variable [DecidableEq ι]

/-- Move a request to its next phase, and leave the file as given. -/
def State.move (s : State V ρ ι) (i : ι) (file : Option Bytes) (phase : Phase V ρ) : State V ρ ι :=
  ⟨file, Function.update s.phase i phase⟩

/-- The next file access of a request. -/
def step (codec : Codec V) (fresh : V) (edit : ι → V → Except String (V × ρ)) (s : State V ρ ι)
    (op : ι × Access) : Option (State V ρ ι) :=
  match s.phase op.1, op.2 with
  | .finished _, _ => none
  | _, .fail message => some (s.move op.1 s.file (.finished (.error message)))
  | .arrived, .go _ =>
    some (s.move op.1 s.file (.ofRead s.file ((load codec fresh s.file).bind (edit op.1))))
  | .edited _ v r, .go _ => some (s.move op.1 (some []) (.writing (codec.encode v) 0 r))
  | .writing content k r, .go n =>
    let taken := min (n + 1) (content.length - k)
    some (s.move op.1 (some (writeNext content (s.file.getD []) k taken))
      (.ofWrite content (k + taken) r))

/-- A request reads a value that its edit may be made on, begins to write only if the file is
still what it has read, and completes what it has begun. -/
def Fits (codec : Codec V) (fresh : V) (guard : ι → V → Prop) (s : State V ρ ι)
    (op : ι × Access) : Prop :=
  match s.phase op.1 with
  | .arrived => ∀ v, load codec fresh s.file = .ok v → guard op.1 v
  | .edited seen _ _ => op.2.Fails ∨ s.file = seen
  | .writing _ _ _ => ¬op.2.Fails
  | .finished _ => True

instance (codec : Codec V) (fresh : V) (guard : ι → V → Prop) [∀ i v, Decidable (guard i v)]
    (s : State V ρ ι) (op : ι × Access) : Decidable (Fits codec fresh guard s op) :=
  match hphase : s.phase op.1 with
  | .arrived =>
    match hload : load codec fresh s.file with
    | .ok v => decidable_of_iff (guard op.1 v) (by simp [Fits, hphase, hload])
    | .error _ => .isTrue (by simp [Fits, hphase, hload])
  | .edited seen _ _ => decidable_of_iff (op.2.Fails ∨ s.file = seen) (by rw [Fits, hphase])
  | .writing _ _ _ => decidable_of_iff (¬op.2.Fails) (by rw [Fits, hphase])
  | .finished _ => .isTrue (by rw [Fits, hphase]; trivial)

/-- A property of the value and the answers that every edit keeps. -/
def Kept (edit : ι → V → Except String (V × ρ)) (guard : ι → V → Prop)
    (I : V → (ι → Option ρ) → Prop) : Prop :=
  ∀ v answers i w r, I v answers → answers i = none → guard i v → edit i v = .ok (w, r) →
    I w (Function.update answers i (some r))

/-! ### Requests that have their effects one after the other -/

/-- The value that the finished requests have made is in the file, or is being overwritten by one
request with what its edit makes of it. -/
def Stored (codec : Codec V) (fresh : V) (edit : ι → V → Except String (V × ρ))
    (guard : ι → V → Prop) (s : State V ρ ι) (v : V) : Prop :=
  (load codec fresh s.file = .ok v ∧ s.Quiet) ∨
    ∃ j w r k, s.phase j = .writing (codec.encode w) k r ∧ k < (codec.encode w).length ∧
      s.file = some ((codec.encode w).take k) ∧ edit j v = .ok (w, r) ∧ guard j v ∧
      ∀ i, (s.phase i).Writes → i = j

/-- A request that is to write has edited what it has read. -/
def Prepared (codec : Codec V) (fresh : V) (edit : ι → V → Except String (V × ρ))
    (guard : ι → V → Prop) (s : State V ρ ι) : Prop :=
  ∀ i seen w r, s.phase i = .edited seen w r →
    ∃ v, load codec fresh seen = .ok v ∧ edit i v = .ok (w, r) ∧ guard i v

section Moves

variable {codec : Codec V} {fresh v w : V} {edit : ι → V → Except String (V × ρ)}
  {guard : ι → V → Prop} {s : State V ρ ι} {i j : ι} {file : Option Bytes} {phase : Phase V ρ}
  {r : ρ}

@[simp] theorem State.file_move : (s.move i file phase).file = file := rfl

@[simp] theorem State.phase_move_self : (s.move i file phase).phase i = phase :=
  Function.update_self ..

@[simp] theorem State.phase_move_of_ne (h : j ≠ i) : (s.move i file phase).phase j = s.phase j :=
  Function.update_of_ne h ..

theorem State.answer_move :
    (s.move i file phase).answer = Function.update s.answer i phase.answer := by
  funext j
  by_cases hj : j = i
  · subst hj
    rw [State.answer, State.phase_move_self, Function.update_self]
  · rw [State.answer, State.phase_move_of_ne hj, Function.update_of_ne hj, State.answer]

/-- A request without an answer that gets none. -/
theorem State.answer_move_of_none (hold : (s.phase i).answer = none)
    (hnew : phase.answer = none) : (s.move i file phase).answer = s.answer := by
  rw [State.answer_move, hnew]
  exact Function.update_eq_self_iff.mpr hold.symm

/-- What writes after a request has moved. -/
theorem State.writes_move (h : ((s.move i file phase).phase j).Writes) :
    j = i ∧ phase.Writes ∨ j ≠ i ∧ (s.phase j).Writes := by
  by_cases hj : j = i
  · subst hj
    rw [State.phase_move_self] at h
    exact .inl ⟨rfl, h⟩
  · rw [State.phase_move_of_ne hj] at h
    exact .inr ⟨hj, h⟩

/-- A request that neither wrote nor writes does not matter for the file. -/
theorem Stored.move (h : Stored codec fresh edit guard s v) (hold : ¬(s.phase i).Writes)
    (hnew : ¬phase.Writes) : Stored codec fresh edit guard (s.move i s.file phase) v := by
  rcases h with ⟨hload, hquiet⟩ | ⟨j, w, r, k, hphase, hk, hfile, hedit, hguard, hsole⟩
  · refine .inl ⟨hload, fun j hwrites => ?_⟩
    rcases State.writes_move hwrites with ⟨-, hwrites⟩ | ⟨-, hwrites⟩
    · exact hnew hwrites
    · exact hquiet j hwrites
  · have hj : j ≠ i := by
      rintro rfl
      exact hold ⟨_, _, _, hphase⟩
    refine .inr ⟨j, w, r, k, ?_, hk, hfile, hedit, hguard, fun j' hwrites => ?_⟩
    · rw [State.phase_move_of_ne hj]
      exact hphase
    · rcases State.writes_move hwrites with ⟨-, hwrites⟩ | ⟨-, hwrites⟩
      · exact absurd hwrites hnew
      · exact hsole j' hwrites

theorem Prepared.move (h : Prepared codec fresh edit guard s)
    (hnew : ∀ seen w r, phase = .edited seen w r →
      ∃ v, load codec fresh seen = .ok v ∧ edit i v = .ok (w, r) ∧ guard i v) :
    Prepared codec fresh edit guard (s.move i file phase) := by
  intro j seen w r hphase
  by_cases hj : j = i
  · subst hj
    rw [State.phase_move_self] at hphase
    exact hnew seen w r hphase
  · rw [State.phase_move_of_ne hj] at hphase
    exact h j seen w r hphase

/-- A request that is not to write after its move. -/
theorem Prepared.move_of_ne (h : Prepared codec fresh edit guard s)
    (hne : ∀ seen w r, phase ≠ .edited seen w r) (file : Option Bytes) :
    Prepared codec fresh edit guard (s.move i file phase) :=
  h.move fun seen w r hedited => absurd hedited (hne seen w r)

omit [DecidableEq ι] in
/-- A value is in the file just when no part of another is. -/
theorem Stored.eq_of_load (h : Stored codec fresh edit guard s v)
    (hload : load codec fresh s.file = .ok w) : v = w ∧ s.Quiet := by
  rcases h with ⟨hstored, hquiet⟩ | ⟨j, w', r, k, -, hk, hfile, -⟩
  · exact ⟨Except.ok.inj (hstored.symm.trans hload), hquiet⟩
  · obtain ⟨e, herror⟩ := codec.decode_take w' k hk
    rw [hfile] at hload
    cases herror.symm.trans hload

/-- A request begins to write over the value it has read. -/
theorem Stored.begin (h : Stored codec fresh edit guard s v)
    (hload : load codec fresh s.file = .ok v) (hedit : edit i v = .ok (w, r)) (hguard : guard i v) :
    Stored codec fresh edit guard (s.move i (some []) (.writing (codec.encode w) 0 r)) v := by
  refine .inr ⟨i, w, r, 0, State.phase_move_self, ?_, rfl, hedit, hguard, fun j hwrites => ?_⟩
  · exact List.length_pos_iff.mpr (codec.encode_ne_nil w)
  · rcases State.writes_move hwrites with ⟨hj, -⟩ | ⟨-, hwrites⟩
    · exact hj
    · exact absurd hwrites ((h.eq_of_load hload).2 j)

omit [DecidableEq ι] in
/-- The request that writes has written a part of what its edit makes of the value. -/
theorem Stored.of_writing {content : Bytes} {k : ℕ} (h : Stored codec fresh edit guard s v)
    (hphase : s.phase i = .writing content k r) :
    ∃ w, content = codec.encode w ∧ k < content.length ∧ s.file = some (content.take k) ∧
      edit i v = .ok (w, r) ∧ guard i v ∧ ∀ j, (s.phase j).Writes → j = i := by
  rcases h with ⟨-, hquiet⟩ | ⟨j, w, r', k', hphase', hk, hfile, hedit, hguard, hsole⟩
  · exact absurd ⟨_, _, _, hphase⟩ (hquiet i)
  · obtain rfl := hsole i ⟨_, _, _, hphase⟩
    rw [hphase] at hphase'
    obtain ⟨rfl, rfl, rfl⟩ := Phase.writing.inj hphase'
    exact ⟨w, rfl, hk, hfile, hedit, hguard, hsole⟩

end Moves

/-! ### Runs -/

section Runs

variable {codec : Codec V} {fresh v : V} {edit : ι → V → Except String (V × ρ)}
  {guard : ι → V → Prop} {I : V → (ι → Option ρ) → Prop} {s t : State V ρ ι}
  {op : ι × Access} {ops : List (ι × Access)} {file : Option Bytes}

/-- The finished requests have had their effects one after the other. -/
structure Serial (codec : Codec V) (fresh : V) (edit : ι → V → Except String (V × ρ))
    (guard : ι → V → Prop) (I : V → (ι → Option ρ) → Prop) (s : State V ρ ι) : Prop where
  value : ∃ v, I v s.answer ∧ Stored codec fresh edit guard s v
  prepared : Prepared codec fresh edit guard s

/-- A request that waits before and after its move does not matter. -/
theorem Serial.move {i : ι} {phase : Phase V ρ} (h : Serial codec fresh edit guard I s)
    (hold : (s.phase i).Waits) (hnew : phase.Waits)
    (hedited : ∀ seen w r, phase = .edited seen w r →
      ∃ v, load codec fresh seen = .ok v ∧ edit i v = .ok (w, r) ∧ guard i v) :
    Serial codec fresh edit guard I (s.move i s.file phase) := by
  obtain ⟨v, hI, hstored⟩ := h.value
  refine ⟨⟨v, ?_, hstored.move hold.not_writes hnew.not_writes⟩, h.prepared.move hedited⟩
  rwa [State.answer_move_of_none hold.answer hnew.answer]

/-- A request that fails before it has begun to write. -/
theorem Serial.fail {i : ι} (h : Serial codec fresh edit guard I s) (hold : (s.phase i).Waits)
    (e : String) : Serial codec fresh edit guard I (s.move i s.file (.finished (.error e))) := by
  refine h.move hold Phase.waits_failed ?_
  intro seen w r hphase
  cases hphase

omit [DecidableEq ι] in
theorem Serial.start (hI : I v fun _ => none) (hload : load codec fresh file = .ok v) :
    Serial codec fresh edit guard I (.start file) where
  value := by
    exact ⟨v, hI, .inl ⟨hload, fun i => Phase.not_writes_arrived⟩⟩
  prepared := by
    intro i seen w r hphase
    cases hphase

/-- A request that reads the file. -/
theorem Serial.read {i : ι} (h : Serial codec fresh edit guard I s) (hphase : s.phase i = .arrived)
    (hguard : ∀ v, load codec fresh s.file = .ok v → guard i v) :
    Serial codec fresh edit guard I
      (s.move i s.file (.ofRead s.file ((load codec fresh s.file).bind (edit i)))) := by
  have hold : (s.phase i).Waits := by
    rw [hphase]
    exact Phase.waits_arrived
  cases hload : load codec fresh s.file with
  | error e => exact h.fail hold e
  | ok v =>
    cases hedit : edit i v with
    | error e =>
      rw [Except.bind, hedit]
      exact h.fail hold e
    | ok made =>
      obtain ⟨w, r⟩ := made
      rw [Except.bind, hedit]
      refine h.move hold Phase.waits_edited ?_
      intro seen w' r' hedited
      obtain ⟨rfl, rfl, rfl⟩ := Phase.edited.inj hedited
      exact ⟨v, hload, hedit, hguard v hload⟩

/-- A request that begins to write over what it has read. -/
theorem Serial.begin {i : ι} {w : V} {r : ρ} (h : Serial codec fresh edit guard I s)
    (hphase : s.phase i = .edited s.file w r) :
    Serial codec fresh edit guard I (s.move i (some []) (.writing (codec.encode w) 0 r)) := by
  obtain ⟨v, hload, hedit, hguard⟩ := h.prepared i s.file w r hphase
  obtain ⟨v', hI, hstored⟩ := h.value
  -- what it has read is the value that the requests before it have made
  obtain rfl := (hstored.eq_of_load hload).1
  have hanswer : (s.phase i).answer = none := by rw [hphase]; rfl
  refine ⟨⟨v', ?_, hstored.begin hload hedit hguard⟩, h.prepared.move_of_ne (by simp) _⟩
  rwa [State.answer_move_of_none hanswer rfl]

/-- A request that writes its next chunk. With the last one it has its effect. -/
theorem Serial.write {i : ι} {content : Bytes} {k : ℕ} {r : ρ} (hkept : Kept edit guard I)
    (h : Serial codec fresh edit guard I s) (hphase : s.phase i = .writing content k r) {n : ℕ}
    (hn : k + n ≤ content.length) : Serial codec fresh edit guard I
      (s.move i (some (writeNext content (s.file.getD []) k n)) (.ofWrite content (k + n) r)) := by
  obtain ⟨v, hI, hstored⟩ := h.value
  obtain ⟨w, rfl, hk, hfile, hedit, hguard, hsole⟩ := hstored.of_writing hphase
  have hanswer : (s.phase i).answer = none := by rw [hphase]; rfl
  have hstill : ∀ phase file j, ((s.move i file phase).phase j).Writes → j = i := by
    intro phase file j hwrites
    rcases State.writes_move hwrites with ⟨hj, -⟩ | ⟨-, hwrites⟩
    · exact hj
    · exact hsole j hwrites
  rw [hfile, Option.getD_some, writeNext_take hk.le, Phase.ofWrite]
  split_ifs with hdone
  · -- the file is whole again, and has what the edit made of the value
    refine ⟨⟨w, ?_, .inl ⟨?_, fun j hwrites => ?_⟩⟩, h.prepared.move_of_ne (by simp) _⟩
    · rw [State.answer_move]
      exact hkept v s.answer i w r hI hanswer hguard hedit
    · rw [State.file_move, hdone, List.take_length]
      exact codec.decode_encode w
    · rw [hstill _ _ j hwrites, State.phase_move_self] at hwrites
      exact Phase.not_writes_finished hwrites
  · -- one more part of the new content
    refine ⟨⟨v, ?_, .inr ⟨i, w, r, k + n, State.phase_move_self, ?_, rfl, hedit, hguard,
      hstill _ _⟩⟩, h.prepared.move_of_ne (by simp) _⟩
    · rwa [State.answer_move_of_none hanswer rfl]
    · omega

/-- What one file access preserves. -/
theorem Serial.step (hkept : Kept edit guard I) (h : Serial codec fresh edit guard I s)
    (hfits : Fits codec fresh guard s op) (hstep : step codec fresh edit s op = some t) :
    Serial codec fresh edit guard I t := by
  obtain ⟨i, access⟩ := op
  rw [FileEdits.step] at hstep
  rw [Fits] at hfits
  cases hphase : s.phase i with
  | arrived =>
    simp only [hphase] at hstep hfits
    cases access with
    | fail message =>
      obtain rfl := Option.some.inj hstep
      exact h.fail (hphase ▸ Phase.waits_arrived) message
    | go n =>
      obtain rfl := Option.some.inj hstep
      exact h.read hphase hfits
  | edited seen w r =>
    simp only [hphase] at hstep hfits
    cases access with
    | fail message =>
      obtain rfl := Option.some.inj hstep
      exact h.fail (hphase ▸ Phase.waits_edited) message
    | go n =>
      obtain rfl := Option.some.inj hstep
      rcases hfits with hfails | rfl
      · exact absurd hfails id
      · exact h.begin hphase
  | writing content k r =>
    simp only [hphase] at hstep hfits
    cases access with
    | fail message =>
      -- a part of the content would be left
      exact absurd trivial hfits
    | go n =>
      obtain rfl := Option.some.inj hstep
      refine h.write hkept hphase ?_
      obtain ⟨v, -, hstored⟩ := h.value
      obtain ⟨-, -, hk, -⟩ := hstored.of_writing hphase
      omega
  | finished reply =>
    simp only [hphase] at hstep
    cases hstep

/-- After a run whose steps fit, and when no request is in the middle of a write, the file holds a
value that has what the edits keep. -/
theorem run_kept (hkept : Kept edit guard I) (hI : I v fun _ => none)
    (hload : load codec fresh file = .ok v)
    (hfits : Along (step codec fresh edit) (Fits codec fresh guard) (.start file) ops)
    (hrun : run (step codec fresh edit) (.start file) ops = some s) (hquiet : s.Quiet) :
    ∃ v, load codec fresh s.file = .ok v ∧ I v s.answer := by
  have hserial := hfits.invariant (fun _ _ _ h hop => h.step hkept hop) (Serial.start hI hload) hrun
  obtain ⟨v, hv, ⟨hstored, -⟩ | ⟨j, w, r, k, hphase, -⟩⟩ := hserial.value
  · exact ⟨v, hstored, hv⟩
  · exact absurd ⟨_, _, _, hphase⟩ (hquiet j)

end Runs

end FileEdits
