import SafeHub.Lib.OpenFiles
import SafeHub.Lib.Run
import SafeHub.System.AppliedCursor

/-!
# Bundles in temporary files

Pull, clone and the remote helper hand every decrypted bundle to git through a file of the
machine's temporary directory, which they write, have read and remove. The file is named by the
kind of the command and the sequence number of the head, so commands of one kind on different
repositories use the same names.

## Main definitions

* `CommandKind`, `GitReads` — the commands, and git as they use it
* `ReplayCall`, `Machine`, `Machine.step` — commands in progress and their file-level steps
* `ReplayCall.Faithful` — a command imports its own bundles in their order
* `Machine.Apart` — a command opens its file when no other one uses the name

## Main results

* `ownBundles_of_along_apart` — commands that keep apart import what they have decrypted
-/

namespace SafeHub

open OpenFiles PlainWrite Run

/-- A command that hands bundles to git. -/
inductive CommandKind
  | pull
  | clone
  | remoteHelper
  deriving DecidableEq, Repr

/-- A decrypted bundle and the sequence number of its head. -/
structure SeqBundle where
  seq : UInt64
  bundle : Bytes
  deriving DecidableEq, Repr

/-- The temporary file of a bundle. -/
def bundleFile (kind : CommandKind) (seq : UInt64) : String :=
  match kind with
  | .pull => s!"safehub-fetch-{seq}.bundle"
  | .clone => s!"safehub-clone-{seq}.bundle"
  | .remoteHelper => s!"safehub-rh-fetch-{seq}.bundle"

/-- The bundles a command goes through: pull and clone skip heads that carry refs only, the
remote helper has fetched the tip. -/
def replayed (kind : CommandKind) (fetched : List SeqBundle) : List SeqBundle :=
  match kind with
  | .remoteHelper => fetched
  | _ => fetched.filter fun b => !isRefOnlyBundle b.bundle

/-! ### Git -/

/-- Git in one repository, as a command uses it. What it answers depends on the bundles it has
imported before. -/
structure GitReads where
  /-- `git index-pack --stdin --fix-thin` -/
  indexPack : List Bytes → Bytes → Bool
  /-- `git bundle list-heads` -/
  listHeads : List Bytes → Bytes → Option (List String)
  /-- `git fetch` of a bundle, with the refs to fetch -/
  fetch : List Bytes → Bytes → List String → Bool

/-- The bytes after the first empty line. -/
def afterEmptyLine (lineStart : Bool) : Bytes → Option Bytes
  | [] => none
  | byte :: rest =>
    if byte = 10 then if lineStart then some rest else afterEmptyLine true rest
    else afterEmptyLine false rest

/-- The packfile of a bundle, which follows its header. -/
def bundlePack (data : Bytes) : Option Bytes :=
  match afterEmptyLine true data with
  | some pack => if strBytes "PACK" <+: pack then some pack else none
  | none => none

/-- Who reads the file next. -/
inductive BundleReader
  /-- The command itself, which passes the packfile on. -/
  | indexPack
  /-- `git bundle list-heads` -/
  | listHeads
  /-- `git fetch` -/
  | fetch (refspecs : List String)
  deriving DecidableEq, Repr

/-- The first reader: pull and clone call `import_bundle_objects`, the remote helper has git
fetch what a bundle calls `HEAD`. -/
def BundleReader.first : CommandKind → BundleReader
  | .remoteHelper => .fetch []
  | _ => .indexPack

/-- What follows when a reader has read some bytes: the next reader, or whether the bundle counts
as imported. -/
def GitReads.after (git : GitReads) (imported : List Bytes) :
    BundleReader → Bytes → BundleReader ⊕ Bool
  | .indexPack, data =>
    match bundlePack data with
    | some pack => if git.indexPack imported pack then .inr true else .inl .listHeads
    | none => .inl .listHeads
  | .listHeads, data =>
    match git.listHeads imported data with
    | none => .inr false
    | some [] => .inr true
    | some names => .inl (.fetch names)
  | .fetch refspecs, data => .inr (git.fetch imported data refspecs)

/-- Whether git's own reader imports a bundle. -/
def GitReads.takesByFetch (git : GitReads) (imported : List Bytes) (bundle : Bytes) : Bool :=
  match git.listHeads imported bundle with
  | none => false
  | some [] => true
  | some names => git.fetch imported bundle names

/-- Whether a bundle counts as imported that all readers find in the file. -/
def GitReads.takes (git : GitReads) (imported : List Bytes) : BundleReader → Bytes → Bool
  | .indexPack, bundle =>
    match bundlePack bundle with
    | some pack => git.indexPack imported pack || git.takesByFetch imported bundle
    | none => git.takesByFetch imported bundle
  | .listHeads, bundle => git.takesByFetch imported bundle
  | .fetch refspecs, bundle => git.fetch imported bundle refspecs

variable {git : GitReads} {imported : List Bytes} {reader next : BundleReader} {bundle : Bytes}

/-- What counts in the end is what follows the first reader. -/
theorem GitReads.takes_eq_elim :
    git.takes imported reader bundle =
      (git.after imported reader bundle).elim (fun next => git.takes imported next bundle) id := by
  cases reader with
  | indexPack =>
    rw [GitReads.takes, GitReads.after]
    cases bundlePack bundle with
    | none => rfl
    | some pack =>
      dsimp only
      cases git.indexPack imported pack <;> rfl
  | listHeads =>
    rw [GitReads.takes, GitReads.takesByFetch, GitReads.after]
    cases git.listHeads imported bundle with
    | none => rfl
    | some names => cases names <;> rfl
  | fetch refspecs => rfl

theorem GitReads.takes_of_after_inl (h : git.after imported reader bundle = .inl next) :
    git.takes imported reader bundle = git.takes imported next bundle := by
  rw [GitReads.takes_eq_elim, h]
  rfl

theorem GitReads.takes_of_after_inr {ok : Bool} (h : git.after imported reader bundle = .inr ok) :
    git.takes imported reader bundle = ok := by
  rw [GitReads.takes_eq_elim, h]
  rfl

/-! ### Commands in progress -/

/-- Where a command stands. -/
inductive ReplayPhase
  /-- Between two bundles. -/
  | next
  /-- The file is created, and `written` bytes of it are written. -/
  | writing (file written : ℕ)
  /-- The file is written, and a reader opens it next. -/
  | handing (reader : BundleReader)
  /-- A reader has the file open and has read some bytes. -/
  | reading (reader : BundleReader) (file : ℕ) (bytes : Bytes)
  /-- The file is removed next; whether the bundle was imported is known. -/
  | removing (seq : UInt64) (ok : Bool)
  /-- The command goes through no more bundles, because git refused one. -/
  | refused
  /-- The command was killed, or reading or writing failed. -/
  | stopped
  deriving DecidableEq, Repr

/-- A command in progress. -/
structure ReplayCall where
  kind : CommandKind
  git : GitReads
  /-- The bundles of its own fetch that it goes through. -/
  own : List SeqBundle
  /-- Those that are not imported yet. -/
  left : List SeqBundle
  imported : List Bytes
  phase : ReplayPhase

/-- A command that has fetched. -/
def ReplayCall.new (kind : CommandKind) (git : GitReads) (fetched : List SeqBundle) : ReplayCall :=
  ⟨kind, git, replayed kind fetched, replayed kind fetched, [], .next⟩

/-- The file that a command uses. -/
def ReplayCall.uses (call : ReplayCall) : Option String :=
  match call.phase with
  | .writing _ _ | .handing _ | .reading _ _ _ =>
    call.left.head?.map fun b => bundleFile call.kind b.seq
  | .removing seq _ => some (bundleFile call.kind seq)
  | _ => none

/-- The file that a command uses or opens next. -/
def ReplayCall.wants (call : ReplayCall) : Option String :=
  match call.phase with
  | .next => call.left.head?.map fun b => bundleFile call.kind b.seq
  | _ => call.uses

/-- A command has imported its own bundles in their order, and gives up only at one of them that
git does not import. -/
structure ReplayCall.Faithful (call : ReplayCall) : Prop where
  order : call.imported ++ call.left.map SeqBundle.bundle = call.own.map SeqBundle.bundle
  refused : call.phase = .refused → ∃ b rest, call.left = b :: rest ∧
    call.git.takes call.imported (.first call.kind) b.bundle = false

/-- The temporary directory and the commands in progress on a machine. -/
structure Machine where
  disk : Disk String
  calls : ℕ → Option ReplayCall

/-- No command in progress. -/
def Machine.new (disk : Disk String) : Machine := ⟨disk, fun _ => none⟩

/-- A file-level step of a command. -/
inductive TempOp
  /-- A command has fetched and decrypted its bundles. -/
  | start (pid : ℕ) (kind : CommandKind) (git : GitReads) (fetched : List SeqBundle)
  /-- It opens the file of its next bundle for writing. -/
  | create (pid : ℕ)
  /-- It writes the next `n` bytes. -/
  | write (pid n : ℕ)
  /-- A reader opens the file. -/
  | openFile (pid : ℕ)
  /-- The reader reads at most `n` bytes; none are left at the end of the file. -/
  | read (pid n : ℕ)
  /-- The file is removed. -/
  | remove (pid : ℕ)
  /-- The command is killed, or an operation fails. -/
  | stop (pid : ℕ)

namespace Machine

/-- Replace a command. -/
def setCall (s : Machine) (pid : ℕ) (call : ReplayCall) : Machine :=
  { s with calls := Function.update s.calls pid (some call) }

@[simp] theorem calls_setCall_self {s : Machine} {pid : ℕ} {call : ReplayCall} :
    (s.setCall pid call).calls pid = some call := Function.update_self ..

theorem calls_setCall_of_ne {s : Machine} {pid other : ℕ} {call : ReplayCall}
    (h : other ≠ pid) : (s.setCall pid call).calls other = s.calls other :=
  Function.update_of_ne h ..

/-- What a command does when a reader has come to the end of the file. -/
def atEnd (call : ReplayCall) (reader : BundleReader) (bytes : Bytes) (b : SeqBundle)
    (rest : List SeqBundle) : ReplayCall :=
  match call.git.after call.imported reader bytes with
  | .inl next => { call with phase := .handing next }
  | .inr true =>
    { call with
      left := rest
      imported := call.imported ++ [bytes]
      phase := .removing b.seq true }
  | .inr false => { call with phase := .removing b.seq false }

/-- One step of a command. -/
def stepCall (disk : Disk String) (call : ReplayCall) : TempOp → Option (Disk String × ReplayCall)
  | .create _ =>
    match call.phase, call.left with
    | .next, b :: _ =>
      let name := bundleFile call.kind b.seq
      some (disk.create name, { call with phase := .writing (disk.opened name) 0 })
    | _, _ => none
  | .write _ n =>
    match call.phase, call.left with
    | .writing file k, b :: _ =>
      some (disk.write file b.bundle k n,
        if k + n < b.bundle.length then { call with phase := .writing file (k + n) }
        else { call with phase := .handing (.first call.kind) })
    | _, _ => none
  | .openFile _ =>
    match call.phase, call.left with
    | .handing reader, b :: _ =>
      match disk.names (bundleFile call.kind b.seq) with
      | some file => some (disk, { call with phase := .reading reader file [] })
      | none => some (disk, { call with phase := .removing b.seq false })
    | _, _ => none
  | .read _ n =>
    match call.phase, call.left with
    | .reading reader file bytes, b :: rest =>
      if n = 0 then none
      else
        match ((disk.data file).drop bytes.length).take n with
        | [] => some (disk, atEnd call reader bytes b rest)
        | more => some (disk, { call with phase := .reading reader file (bytes ++ more) })
    | _, _ => none
  | .remove _ =>
    match call.phase with
    | .removing seq ok =>
      some (disk.remove (bundleFile call.kind seq),
        { call with phase := if ok then .next else .refused })
    | _ => none
  | .stop _ => some (disk, { call with phase := .stopped })
  | .start _ _ _ _ => none

/-- The command that takes a step. -/
def pidOf : TempOp → ℕ
  | .start pid _ _ _ | .create pid | .write pid _ | .openFile pid | .read pid _ | .remove pid
  | .stop pid => pid

/-- One step. -/
def step (s : Machine) (op : TempOp) : Option Machine :=
  match op, s.calls (pidOf op) with
  | .start pid kind git fetched, none => some (s.setCall pid (.new kind git fetched))
  | op, some call =>
    (stepCall s.disk call op).map fun next =>
      setCall ⟨next.1, s.calls⟩ (pidOf op) next.2
  | _, none => none

/-- Every command is faithful. -/
def ImportsOwn (s : Machine) : Prop := ∀ pid call, s.calls pid = some call → call.Faithful

/-- A command opens its file for writing only when no other command uses the name. -/
def Apart (s : Machine) : TempOp → Prop
  | .create pid => ∀ call name, s.calls pid = some call → call.wants = some name →
      ∀ other ≠ pid, ∀ call', s.calls other = some call' → call'.uses ≠ some name
  | _ => True

end Machine

/-- In every state of a run the commands are faithful. -/
def OwnBundles (disk : Disk String) (ops : List TempOp) : Prop :=
  ∀ front back s, ops = front ++ back → run Machine.step (Machine.new disk) front = some s →
    s.ImportsOwn

/-! ### Commands that keep apart -/

/-- A command is faithful, and its file holds what it has written. -/
def ReplayCall.Sound (disk : Disk String) (call : ReplayCall) : Prop :=
  call.Faithful ∧
    match call.phase with
    | .writing file k => ∃ b rest, call.left = b :: rest ∧ k ≤ b.bundle.length ∧
        disk.Holds (bundleFile call.kind b.seq) file (b.bundle.take k)
    | .handing reader => ∃ b rest file, call.left = b :: rest ∧
        disk.Holds (bundleFile call.kind b.seq) file b.bundle ∧
        call.git.takes call.imported (.first call.kind) b.bundle =
          call.git.takes call.imported reader b.bundle
    | .reading reader file bytes => ∃ b rest, call.left = b :: rest ∧
        disk.Holds (bundleFile call.kind b.seq) file b.bundle ∧
        call.git.takes call.imported (.first call.kind) b.bundle =
          call.git.takes call.imported reader b.bundle ∧
        bytes <+: b.bundle
    | .removing _ ok => ok = false → ∃ b rest, call.left = b :: rest ∧
        call.git.takes call.imported (.first call.kind) b.bundle = false
    | _ => True

variable {disk disk' : Disk String} {call call' call'' : ReplayCall} {op : TempOp} {name : String}
variable {file : ℕ} {content : Bytes} {s t : Machine} {pid : ℕ}

/-- What a command does not use does not matter to it. -/
theorem ReplayCall.Sound.frame (h : call.Sound disk)
    (hframe : ∀ name file content, call.uses = some name → disk.Holds name file content →
      disk'.Holds name file content) : call.Sound disk' := by
  obtain ⟨hfaithful, hphase⟩ := h
  refine ⟨hfaithful, ?_⟩
  cases hcase : call.phase with
  | writing file k =>
    simp only [hcase] at hphase ⊢
    obtain ⟨b, rest, hleft, hk, hholds⟩ := hphase
    exact ⟨b, rest, hleft, hk, hframe _ _ _ (by simp [ReplayCall.uses, hcase, hleft]) hholds⟩
  | handing reader =>
    simp only [hcase] at hphase ⊢
    obtain ⟨b, rest, file, hleft, hholds, htakes⟩ := hphase
    exact ⟨b, rest, file, hleft, hframe _ _ _ (by simp [ReplayCall.uses, hcase, hleft]) hholds,
      htakes⟩
  | reading reader file bytes =>
    simp only [hcase] at hphase ⊢
    obtain ⟨b, rest, hleft, hholds, hread⟩ := hphase
    exact ⟨b, rest, hleft, hframe _ _ _ (by simp [ReplayCall.uses, hcase, hleft]) hholds, hread⟩
  | removing seq ok => simpa only [hcase] using hphase
  | next => trivial
  | refused => trivial
  | stopped => trivial

/-- What a step of a command does. -/
inductive Stepped (disk : Disk String) (call : ReplayCall) :
    TempOp → Disk String → ReplayCall → Prop
  | create {pid : ℕ} {b : SeqBundle} {rest : List SeqBundle} (hphase : call.phase = .next)
      (hleft : call.left = b :: rest) :
      Stepped disk call (.create pid) (disk.create (bundleFile call.kind b.seq))
        { call with phase := .writing (disk.opened (bundleFile call.kind b.seq)) 0 }
  | write {pid n file k : ℕ} {b : SeqBundle} {rest : List SeqBundle}
      (hphase : call.phase = .writing file k) (hleft : call.left = b :: rest)
      (hmore : k + n < b.bundle.length) :
      Stepped disk call (.write pid n) (disk.write file b.bundle k n)
        { call with phase := .writing file (k + n) }
  | wrote {pid n file k : ℕ} {b : SeqBundle} {rest : List SeqBundle}
      (hphase : call.phase = .writing file k) (hleft : call.left = b :: rest)
      (hlast : b.bundle.length ≤ k + n) :
      Stepped disk call (.write pid n) (disk.write file b.bundle k n)
        { call with phase := .handing (.first call.kind) }
  | openFile {pid file : ℕ} {reader : BundleReader} {b : SeqBundle} {rest : List SeqBundle}
      (hphase : call.phase = .handing reader) (hleft : call.left = b :: rest)
      (hname : disk.names (bundleFile call.kind b.seq) = some file) :
      Stepped disk call (.openFile pid) disk { call with phase := .reading reader file [] }
  | missing {pid : ℕ} {reader : BundleReader} {b : SeqBundle} {rest : List SeqBundle}
      (hphase : call.phase = .handing reader) (hleft : call.left = b :: rest)
      (hname : disk.names (bundleFile call.kind b.seq) = none) :
      Stepped disk call (.openFile pid) disk { call with phase := .removing b.seq false }
  | readMore {pid n file : ℕ} {reader : BundleReader} {bytes : Bytes} {b : SeqBundle}
      {rest : List SeqBundle} (hphase : call.phase = .reading reader file bytes)
      (hleft : call.left = b :: rest) :
      Stepped disk call (.read pid n) disk { call with
        phase := .reading reader file (bytes ++ ((disk.data file).drop bytes.length).take n) }
  | readEnd {pid n file : ℕ} {reader : BundleReader} {bytes : Bytes} {b : SeqBundle}
      {rest : List SeqBundle} (hphase : call.phase = .reading reader file bytes)
      (hleft : call.left = b :: rest) (hend : (disk.data file).length ≤ bytes.length) :
      Stepped disk call (.read pid n) disk (Machine.atEnd call reader bytes b rest)
  | remove {pid : ℕ} {seq : UInt64} {ok : Bool} (hphase : call.phase = .removing seq ok) :
      Stepped disk call (.remove pid) (disk.remove (bundleFile call.kind seq))
        { call with phase := if ok then .next else .refused }
  | stop {pid : ℕ} : Stepped disk call (.stop pid) disk { call with phase := .stopped }

theorem stepped_of_stepCall (h : Machine.stepCall disk call op = some (disk', call')) :
    Stepped disk call op disk' call' := by
  cases op with
  | start pid kind git fetched =>
    -- a command that is under way is not started again
    cases h
  | create pid =>
    rw [Machine.stepCall] at h
    split at h
    next b rest hphase hleft =>
      cases h
      exact .create hphase hleft
    next => cases h
  | write pid n =>
    rw [Machine.stepCall] at h
    split at h
    next file k b rest hphase hleft =>
      split_ifs at h with hmore
      · cases h
        exact .write hphase hleft hmore
      · cases h
        exact .wrote hphase hleft (Nat.le_of_not_lt hmore)
    next => cases h
  | openFile pid =>
    rw [Machine.stepCall] at h
    split at h
    next reader b rest hphase hleft =>
      split at h
      next file hname =>
        cases h
        exact .openFile hphase hleft hname
      next hname =>
        cases h
        exact .missing hphase hleft hname
    next => cases h
  | read pid n =>
    rw [Machine.stepCall] at h
    split at h
    next reader file bytes b rest hphase hleft =>
      split_ifs at h with hn
      split at h
      next hend =>
        cases h
        refine .readEnd hphase hleft ?_
        -- nothing is read at the end of the file, as something was asked for
        rcases List.take_eq_nil_iff.mp hend with hzero | hdrop
        · exact absurd hzero hn
        · exact List.drop_eq_nil_iff.mp hdrop
      next =>
        cases h
        exact .readMore hphase hleft
    next => cases h
  | remove pid =>
    rw [Machine.stepCall] at h
    split at h
    next seq ok hphase =>
      cases h
      exact .remove hphase
    next => cases h
  | stop pid =>
    cases h
    exact .stop

/-- Standing elsewhere does not change what was imported. -/
theorem ReplayCall.Faithful.setPhase (h : call.Faithful) {phase : ReplayPhase}
    (hphase : phase ≠ .refused) : { call with phase := phase }.Faithful :=
  ⟨h.order, fun hrefused => absurd hrefused hphase⟩

/-- A command that comes to the end of its bundle has read it. -/
theorem ReplayCall.Faithful.sound_atEnd (h : call.Faithful) {b : SeqBundle}
    {rest : List SeqBundle} (hleft : call.left = b :: rest)
    (hholds : disk.Holds (bundleFile call.kind b.seq) file b.bundle)
    (htakes : call.git.takes call.imported (.first call.kind) b.bundle =
      call.git.takes call.imported reader b.bundle) :
    (Machine.atEnd call reader b.bundle b rest).Sound disk := by
  rw [Machine.atEnd]
  split
  next next hafter =>
    refine ⟨h.setPhase (by simp), b, rest, file, hleft, hholds, ?_⟩
    rw [htakes, GitReads.takes_of_after_inl hafter]
  next hafter =>
    refine ⟨⟨?_, by simp⟩, by simp⟩
    rw [← h.order, hleft, List.map_cons, List.append_assoc]
    rfl
  next hafter =>
    refine ⟨h.setPhase (by simp), fun _ => ⟨b, rest, hleft, ?_⟩⟩
    rw [htakes, GitReads.takes_of_after_inr hafter]

/-- A step of a command keeps it sound. -/
theorem Stepped.sound (hstep : Stepped disk call op disk' call') (h : call.Sound disk) :
    call'.Sound disk' := by
  obtain ⟨hfaithful, hin⟩ := h
  cases hstep with
  | create hphase hleft =>
    exact ⟨hfaithful.setPhase (by simp), _, _, hleft, Nat.zero_le _, Disk.holds_create⟩
  | write hphase hleft hmore =>
    simp only [hphase] at hin
    obtain ⟨b, rest, hleft', hk, hholds⟩ := hin
    obtain ⟨rfl, rfl⟩ := List.cons.inj (hleft.symm.trans hleft')
    exact ⟨hfaithful.setPhase (by simp), _, _, hleft, hmore.le, hholds.write_self hk⟩
  | @wrote _ n _ _ _ _ hphase hleft hlast =>
    simp only [hphase] at hin
    obtain ⟨b, rest, hleft', hk, hholds⟩ := hin
    obtain ⟨rfl, rfl⟩ := List.cons.inj (hleft.symm.trans hleft')
    -- the last write makes the file the whole bundle
    have hwritten := hholds.write_self (n := n) hk
    rw [List.take_of_length_le hlast] at hwritten
    exact ⟨hfaithful.setPhase (by simp), _, _, _, hleft, hwritten, rfl⟩
  | openFile hphase hleft hname =>
    simp only [hphase] at hin
    obtain ⟨b, rest, file, hleft', hholds, htakes⟩ := hin
    obtain ⟨rfl, rfl⟩ := List.cons.inj (hleft.symm.trans hleft')
    obtain rfl := Option.some.inj (hname.symm.trans hholds.1)
    exact ⟨hfaithful.setPhase (by simp), _, _, hleft, hholds, htakes, List.nil_prefix⟩
  | missing hphase hleft hname =>
    simp only [hphase] at hin
    obtain ⟨b, rest, file, hleft', hholds, -⟩ := hin
    obtain ⟨rfl, rfl⟩ := List.cons.inj (hleft.symm.trans hleft')
    -- the file of the bundle has been created under its name
    rw [hholds.1] at hname
    cases hname
  | readMore hphase hleft =>
    simp only [hphase] at hin
    obtain ⟨b, rest, hleft', hholds, htakes, tail, htail⟩ := hin
    obtain ⟨rfl, rfl⟩ := List.cons.inj (hleft.symm.trans hleft')
    refine ⟨hfaithful.setPhase (by simp), _, _, hleft, hholds, htakes, ?_⟩
    rw [hholds.2, ← htail, List.drop_left, List.prefix_append_right_inj]
    exact List.take_prefix _ _
  | readEnd hphase hleft hend =>
    simp only [hphase] at hin
    obtain ⟨b, rest, hleft', hholds, htakes, hbegins⟩ := hin
    obtain ⟨rfl, rfl⟩ := List.cons.inj (hleft.symm.trans hleft')
    rw [hholds.2] at hend
    rw [hbegins.eq_of_length_le hend]
    exact hfaithful.sound_atEnd hleft hholds htakes
  | @remove _ seq ok hphase =>
    simp only [hphase] at hin
    cases ok with
    | true => exact ⟨hfaithful.setPhase (by simp), trivial⟩
    | false => exact ⟨⟨hfaithful.order, fun _ => hin rfl⟩, trivial⟩
  | stop => exact ⟨hfaithful.setPhase (by simp), trivial⟩

/-- A command uses afterwards at most what it wanted before. -/
theorem Stepped.wants_of_uses (hstep : Stepped disk call op disk' call')
    (h : call'.uses = some name) : call.wants = some name := by
  cases hstep with
  | create hphase hleft => simpa [ReplayCall.wants, ReplayCall.uses, hphase, hleft] using h
  | write hphase hleft _ => simpa [ReplayCall.wants, ReplayCall.uses, hphase, hleft] using h
  | wrote hphase hleft _ => simpa [ReplayCall.wants, ReplayCall.uses, hphase, hleft] using h
  | openFile hphase hleft _ => simpa [ReplayCall.wants, ReplayCall.uses, hphase, hleft] using h
  | missing hphase hleft _ => simpa [ReplayCall.wants, ReplayCall.uses, hphase, hleft] using h
  | readMore hphase hleft => simpa [ReplayCall.wants, ReplayCall.uses, hphase, hleft] using h
  | @readEnd _ n file reader bytes b rest hphase hleft hend =>
    rw [Machine.atEnd] at h
    split at h <;> simpa [ReplayCall.wants, ReplayCall.uses, hphase, hleft] using h
  | @remove _ seq ok hphase => cases ok <;> cases h
  | stop => cases h

/-- A command that is writing has the file of its bundle open. -/
theorem ReplayCall.Sound.names_of_writing (h : call.Sound disk) {k : ℕ} {b : SeqBundle}
    {rest : List SeqBundle} (hphase : call.phase = .writing file k)
    (hleft : call.left = b :: rest) :
    disk.names (bundleFile call.kind b.seq) = some file := by
  have hin := h.2
  simp only [hphase] at hin
  obtain ⟨b', rest', hleft', -, hholds⟩ := hin
  obtain ⟨rfl, -⟩ := List.cons.inj (hleft.symm.trans hleft')
  exact hholds.1

/-- A step of a command leaves the files of other names as they are. -/
theorem Stepped.holds (hstep : Stepped disk call op disk' call') (h : call.Sound disk)
    (hname : call.wants ≠ some name) (hholds : disk.Holds name file content) :
    disk'.Holds name file content := by
  cases hstep with
  | create hphase hleft =>
    refine hholds.create ?_
    rintro rfl
    exact hname (by simp [ReplayCall.wants, hphase, hleft])
  | write hphase hleft _ =>
    refine hholds.write (h.names_of_writing hphase hleft) ?_
    rintro rfl
    exact hname (by simp [ReplayCall.wants, ReplayCall.uses, hphase, hleft])
  | wrote hphase hleft _ =>
    refine hholds.write (h.names_of_writing hphase hleft) ?_
    rintro rfl
    exact hname (by simp [ReplayCall.wants, ReplayCall.uses, hphase, hleft])
  | openFile => exact hholds
  | missing => exact hholds
  | readMore => exact hholds
  | readEnd => exact hholds
  | remove hphase =>
    refine hholds.remove ?_
    rintro rfl
    exact hname (by simp [ReplayCall.wants, ReplayCall.uses, hphase])
  | stop => exact hholds

/-- From between two bundles a command opens its next file, or stops. -/
theorem Stepped.create_or_stop (hstep : Stepped disk call op disk' call')
    (hphase : call.phase = .next) :
    op = .create (Machine.pidOf op) ∨ op = .stop (Machine.pidOf op) := by
  cases hstep with
  | create => exact .inl rfl
  | stop => exact .inr rfl
  | write hother => rw [hphase] at hother; cases hother
  | wrote hother => rw [hphase] at hother; cases hother
  | openFile hother => rw [hphase] at hother; cases hother
  | missing hother => rw [hphase] at hother; cases hother
  | readMore hother => rw [hphase] at hother; cases hother
  | readEnd hother => rw [hphase] at hother; cases hother
  | remove hother => rw [hphase] at hother; cases hother

namespace Machine

/-- What every state of a run of commands that keep apart meets. -/
structure Separate (s : Machine) : Prop where
  sound : ∀ pid call, s.calls pid = some call → call.Sound s.disk
  sole : ∀ pid other call call' name, s.calls pid = some call → s.calls other = some call' →
    call.uses = some name → call'.uses = some name → pid = other

theorem separate_new (disk : Disk String) : (new disk).Separate where
  sound := fun _ _ h => nomatch h
  sole := fun _ _ _ _ _ h => nomatch h

/-- A step starts a command, or takes one further. -/
theorem step_cases (h : s.step op = some t) :
    (∃ pid kind git fetched, op = .start pid kind git fetched ∧ s.calls pid = none ∧
      t = s.setCall pid (.new kind git fetched)) ∨
    ∃ call disk' call', s.calls (pidOf op) = some call ∧ Stepped s.disk call op disk' call' ∧
      t = setCall ⟨disk', s.calls⟩ (pidOf op) call' := by
  unfold step at h
  split at h
  next pid kind git fetched hnone =>
    exact .inl ⟨pid, kind, git, fetched, rfl, hnone, (Option.some.inj h).symm⟩
  next op call hcall =>
    obtain ⟨⟨disk', call'⟩, hstep, rfl⟩ := Option.map_eq_some_iff.mp h
    exact .inr ⟨call, disk', call', hcall, stepped_of_stepCall hstep, rfl⟩
  next => cases h

/-- A step of one command leaves the others where they are. -/
theorem calls_of_step (h : s.step op = some t) {other : ℕ} (hother : other ≠ pidOf op) :
    t.calls other = s.calls other := by
  rcases step_cases h with ⟨pid, kind, git, fetched, rfl, -, rfl⟩ | ⟨call, disk', call', -, -, rfl⟩
  · exact calls_setCall_of_ne hother
  · exact calls_setCall_of_ne hother

theorem calls_of_run {ops : List TempOp} (h : run step s ops = some t) {other : ℕ}
    (hother : ∀ op ∈ ops, other ≠ pidOf op) : t.calls other = s.calls other := by
  induction ops generalizing s with
  | nil => rw [Option.some.inj h]
  | cons op ops ih =>
    obtain ⟨u, hstep, hrest⟩ := run_cons_eq_some.mp h
    obtain ⟨hfirst, hmore⟩ := List.forall_mem_cons.mp hother
    rw [ih hrest hmore, calls_of_step hstep hfirst]

/-- A step leaves the files that other commands use as they are, and uses none of them. -/
theorem Separate.undisturbed (h : s.Separate) (hapart : s.Apart op)
    (hcall : s.calls (pidOf op) = some call) (hstep : Stepped s.disk call op disk' call')
    {other : ℕ} (hother : other ≠ pidOf op) (hcall' : s.calls other = some call'')
    (huses : call''.uses = some name) :
    (∀ file content, s.disk.Holds name file content → disk'.Holds name file content) ∧
      call'.uses ≠ some name := by
  have hapartFrom : (∀ pid, op ≠ .stop pid) → call.wants ≠ some name := by
    intro hgoes hwants
    by_cases hnext : call.phase = .next
    · rcases hstep.create_or_stop hnext with hop | hop
      · rw [hop] at hapart
        exact hapart call name hcall hwants other hother call'' hcall' huses
      · exact hgoes _ hop
    · -- it uses already what it wants
      have hown : call.uses = some name := by
        rw [← hwants, ReplayCall.wants]
        split
        next hphase => exact absurd hphase hnext
        next => rfl
      exact hother (h.sole _ _ _ _ name hcall' hcall huses hown)
  by_cases hstop : ∃ pid, op = .stop pid
  · obtain ⟨pid, rfl⟩ := hstop
    cases hstep
    exact ⟨fun _ _ hholds => hholds, nofun⟩
  · have hwants := hapartFrom fun pid hop => hstop ⟨pid, hop⟩
    exact ⟨fun _ _ => hstep.holds (h.sound _ _ hcall) hwants,
      fun hafter => hwants (hstep.wants_of_uses hafter)⟩

theorem Separate.start (h : s.Separate) (pid : ℕ) (kind : CommandKind) (git : GitReads)
    (fetched : List SeqBundle) : (s.setCall pid (.new kind git fetched)).Separate where
  sound := by
    intro pid' call hcall
    by_cases hpid : pid' = pid
    · rw [hpid, calls_setCall_self] at hcall
      obtain rfl := Option.some.inj hcall
      exact ⟨⟨rfl, nofun⟩, trivial⟩
    · rw [calls_setCall_of_ne hpid] at hcall
      exact h.sound pid' call hcall
  sole := by
    -- a new command uses no file yet
    have hold : ∀ pid' call name, (s.setCall pid (.new kind git fetched)).calls pid' = some call →
        call.uses = some name → s.calls pid' = some call := by
      intro pid' call name hcall huses
      by_cases hpid : pid' = pid
      · rw [hpid, calls_setCall_self] at hcall
        obtain rfl := Option.some.inj hcall
        cases huses
      · rwa [calls_setCall_of_ne hpid] at hcall
    intro pid' other call call' name hcall hcall' huses huses'
    exact h.sole pid' other call call' name (hold _ _ _ hcall huses) (hold _ _ _ hcall' huses')
      huses huses'

/-- Commands that keep apart stay separate. -/
theorem Separate.step (h : s.Separate) (hapart : s.Apart op) (hstep : s.step op = some t) :
    t.Separate := by
  rcases step_cases hstep with ⟨pid, kind, git, fetched, rfl, hnone, rfl⟩ |
    ⟨call, disk', call', hcall, hstepped, rfl⟩
  · exact h.start pid kind git fetched
  · constructor
    · intro pid call'' hcall''
      by_cases hpid : pid = pidOf op
      · rw [hpid, calls_setCall_self] at hcall''
        obtain rfl := Option.some.inj hcall''
        exact hstepped.sound (h.sound _ _ hcall)
      · rw [calls_setCall_of_ne hpid] at hcall''
        refine (h.sound pid call'' hcall'').frame fun name file content huses => ?_
        exact (h.undisturbed hapart hcall hstepped hpid hcall'' huses).1 file content
    · -- two commands with a name in common, one of which has made the step
      intro pid other first second name hfirst hsecond huses huses'
      by_cases hpid : pid = pidOf op
      · by_cases hother : other = pidOf op
        · rw [hpid, hother]
        · rw [hpid, calls_setCall_self] at hfirst
          rw [calls_setCall_of_ne hother] at hsecond
          obtain rfl := Option.some.inj hfirst
          exact absurd huses (h.undisturbed hapart hcall hstepped hother hsecond huses').2
      · rw [calls_setCall_of_ne hpid] at hfirst
        by_cases hother : other = pidOf op
        · rw [hother, calls_setCall_self] at hsecond
          obtain rfl := Option.some.inj hsecond
          exact absurd huses' (h.undisturbed hapart hcall hstepped hpid hfirst huses).2
        · rw [calls_setCall_of_ne hother] at hsecond
          exact h.sole pid other first second name hfirst hsecond huses huses'

end Machine

/-- Commands that open their files only when no other command uses the names import what their
own fetches have decrypted, in order. -/
theorem ownBundles_of_along_apart {ops : List TempOp}
    (h : Along Machine.step Machine.Apart (Machine.new disk) ops) : OwnBundles disk ops := by
  rintro front back s rfl hrun pid call hcall
  have hseparate : s.Separate :=
    (along_append.mp h).1.invariant (fun _ _ _ hsep hapart hstep => hsep.step hapart hstep)
      (Machine.separate_new disk) hrun
  exact (hseparate.sound pid call hcall).1

/-! ### Two pulls -/

section Sample

/-- Git that imports whatever it is given. -/
def eagerGit : GitReads := ⟨fun _ _ => true, fun _ _ => some [], fun _ _ _ => true⟩

/-- A pull whose fetch has decrypted one head with one byte. -/
def pullOne (pid : ℕ) (byte : UInt8) : TempOp := .start pid .pull eagerGit [⟨1, [byte]⟩]

/-- Two pulls of first heads: the second one writes its file while the first one is about to have
its own read. -/
def overlappingPulls : List TempOp :=
  [pullOne 0 1, pullOne 1 2, .create 0, .write 0 1, .create 1, .write 1 1, .openFile 0, .read 0 1,
    .read 0 1, .openFile 0, .read 0 1, .read 0 1]

/-- The first pull imports what the second one has decrypted. -/
theorem not_ownBundles_overlappingPulls : ¬ OwnBundles Disk.empty overlappingPulls := by
  intro h
  have hrun : ((run Machine.step (Machine.new Disk.empty) overlappingPulls).bind fun s =>
      s.calls 0).map (fun call => (call.own, call.imported)) = some ([⟨1, [1]⟩], [[2]]) := by
    decide +kernel
  obtain ⟨call, hcall, hend⟩ := Option.map_eq_some_iff.mp hrun
  obtain ⟨s, hrun, hcall⟩ := Option.bind_eq_some_iff.mp hcall
  obtain ⟨hown, himported⟩ := Prod.mk.inj hend
  have horder := (h overlappingPulls [] s (List.append_nil _).symm hrun 0 call hcall).order
  rw [hown, himported] at horder
  cases horder

/-- One pull of a first head from its start to its end. -/
def wholePull (pid : ℕ) (byte : UInt8) : List TempOp :=
  [pullOne pid byte, .create pid, .write pid 1, .openFile pid, .read pid 1, .read pid 1,
    .openFile pid, .read pid 1, .read pid 1, .remove pid]

/-- A pull that starts when no other command uses a file keeps apart. -/
theorem along_wholePull {s : Machine} {pid : ℕ} (byte : UInt8)
    (hquiet : ∀ other ≠ pid, ∀ call, s.calls other = some call → call.uses = none) :
    Along Machine.step Machine.Apart s (wholePull pid byte) := by
  refine ⟨trivial, fun t ht => ⟨?_, ?_⟩⟩
  · intro call name _ _ other hother call' hcall' huses
    rw [Machine.calls_of_step ht hother] at hcall'
    rw [hquiet other hother call' hcall'] at huses
    cases huses
  · intro u _
    -- only opening a file for writing needs a condition
    refine along_iff.mpr fun front op back v heq _ => ?_
    have hop : op ∈ front ++ op :: back := List.mem_append_right _ List.mem_cons_self
    rw [← heq] at hop
    simp only [List.mem_cons, List.not_mem_nil, or_false] at hop
    rcases hop with rfl | rfl | rfl | rfl | rfl | rfl | rfl | rfl <;> trivial

/-- Two pulls of first heads, one after the other. -/
theorem ownBundles_wholePulls : OwnBundles Disk.empty (wholePull 0 1 ++ wholePull 1 2) := by
  apply ownBundles_of_along_apart
  have hfirst : Along Machine.step Machine.Apart (Machine.new Disk.empty) (wholePull 0 1) := by
    apply along_wholePull
    intro other _ call hcall
    cases hcall
  refine along_append.mpr ⟨hfirst, fun t ht => along_wholePull 2 fun other hother call hcall => ?_⟩
  by_cases hzero : other = 0
  · -- the first pull is done with its file
    have huses : ((run Machine.step (Machine.new Disk.empty) (wholePull 0 1)).bind fun s =>
        s.calls 0).map ReplayCall.uses = some none := by
      decide +kernel
    rw [ht, Option.bind_some, ← hzero, hcall] at huses
    exact Option.some.inj huses
  · have hpid : ∀ op ∈ wholePull 0 1, other ≠ Machine.pidOf op := by
      intro op hop
      simp only [wholePull, List.mem_cons, List.not_mem_nil, or_false] at hop
      rcases hop with rfl | rfl | rfl | rfl | rfl | rfl | rfl | rfl | rfl | rfl <;> exact hzero
    rw [Machine.calls_of_run ht hpid] at hcall
    cases hcall

end Sample

end SafeHub
