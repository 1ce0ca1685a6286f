import SafeHub.Lib.PlainWrite

/-!
# Open files of a shared directory

A directory names files, and a process that has opened a file goes on with it whatever becomes
of its name. Opening for writing empties the file that has the name or makes a new one; removing
a name leaves the file to those who have it open.

A process that is the only one to use a name finds what it has written under it.

## Main definitions

* `Disk` — names and files
* `Disk.create`, `Disk.write`, `Disk.remove` — the operations on them
* `Disk.Holds` — a name has a file with known content

## Main results

* `Disk.Holds.create`, `Disk.Holds.write`, `Disk.Holds.remove` — operations under other names
  leave a file as it is
-/

namespace OpenFiles

variable {N : Type*}

/-- The names of a directory and the files they stand for. A file has one name at most, and
new files get fresh numbers. -/
structure Disk (N : Type*) where
  names : N → Option ℕ
  data : ℕ → Bytes
  fresh : ℕ
  inj : ∀ a b file, names a = some file → names b = some file → a = b
  lt_fresh : ∀ a file, names a = some file → file < fresh

/-- An empty directory. -/
def Disk.empty : Disk N where
  names _ := none
  data _ := []
  fresh := 0
  inj _ _ _ h _ := nomatch h
  lt_fresh _ _ h := nomatch h

namespace Disk

variable {d : Disk N} {name other : N} {file : ℕ} {content bytes : Bytes} {k n : ℕ}

/-- The file that opening a name for writing gives: the one that has the name, or a new one. -/
def opened (d : Disk N) (name : N) : ℕ := (d.names name).getD d.fresh

/-- No other name has that file. -/
theorem eq_of_names_eq_opened (h : d.names other = some (d.opened name)) : other = name := by
  cases hname : d.names name with
  | none =>
    rw [opened, hname, Option.getD_none] at h
    exact absurd (d.lt_fresh other d.fresh h) (lt_irrefl _)
  | some file =>
    rw [opened, hname, Option.getD_some] at h
    exact d.inj other name file h hname

variable [DecidableEq N]

/-- Open a name for writing, which empties its file. -/
def create (d : Disk N) (name : N) : Disk N where
  names := Function.update d.names name (some (d.opened name))
  data := Function.update d.data (d.opened name) []
  fresh := max d.fresh (d.opened name + 1)
  inj := by
    intro a b file ha hb
    by_cases haname : a = name
    · by_cases hbname : b = name
      · rw [haname, hbname]
      · rw [haname, Function.update_self, Option.some.injEq] at ha
        rw [Function.update_of_ne hbname, ← ha] at hb
        exact absurd (eq_of_names_eq_opened hb) hbname
    · rw [Function.update_of_ne haname] at ha
      by_cases hbname : b = name
      · rw [hbname, Function.update_self, Option.some.injEq] at hb
        rw [← hb] at ha
        exact absurd (eq_of_names_eq_opened ha) haname
      · rw [Function.update_of_ne hbname] at hb
        exact d.inj a b file ha hb
  lt_fresh := by
    intro a file ha
    by_cases haname : a = name
    · rw [haname, Function.update_self, Option.some.injEq] at ha
      omega
    · rw [Function.update_of_ne haname] at ha
      exact lt_max_of_lt_left (d.lt_fresh a file ha)

/-- Write the next `n` bytes of a content to an open file, of which `k` are written. -/
def write (d : Disk N) (file : ℕ) (content : Bytes) (k n : ℕ) : Disk N :=
  { d with
    data := Function.update d.data file (PlainWrite.writeNext content (d.data file) k n) }

/-- Remove a name. -/
def remove (d : Disk N) (name : N) : Disk N where
  names := Function.update d.names name none
  data := d.data
  fresh := d.fresh
  inj := by
    intro a b file ha hb
    have hother : ∀ a, Function.update d.names name none a = some file →
        d.names a = some file := by
      intro a ha
      by_cases haname : a = name
      · rw [haname, Function.update_self] at ha
        cases ha
      · rwa [Function.update_of_ne haname] at ha
    exact d.inj a b file (hother a ha) (hother b hb)
  lt_fresh := by
    intro a file ha
    by_cases haname : a = name
    · rw [haname, Function.update_self] at ha
      cases ha
    · rw [Function.update_of_ne haname] at ha
      exact d.lt_fresh a file ha

/-- A name stands for a file with known content. -/
def Holds (d : Disk N) (name : N) (file : ℕ) (content : Bytes) : Prop :=
  d.names name = some file ∧ d.data file = content

/-- A new file is empty. -/
theorem holds_create : (d.create name).Holds name (d.opened name) [] :=
  ⟨Function.update_self .., Function.update_self ..⟩

omit [DecidableEq N] in
/-- A process that has written `k` bytes writes the next ones. -/
theorem Holds.write_self (h : d.Holds name file (content.take k)) (hk : k ≤ content.length) :
    (d.write file content k n).Holds name file (content.take (k + n)) := by
  refine ⟨h.1, (Function.update_self ..).trans ?_⟩
  rw [h.2, PlainWrite.writeNext_take hk]

theorem Holds.create (h : d.Holds name file content) (hname : name ≠ other) :
    (d.create other).Holds name file content := by
  have hfile : file ≠ d.opened other := by
    rintro rfl
    exact hname (eq_of_names_eq_opened h.1)
  exact ⟨(Function.update_of_ne hname ..).trans h.1, (Function.update_of_ne hfile ..).trans h.2⟩

omit [DecidableEq N] in
theorem Holds.write (h : d.Holds name file content) {otherFile : ℕ}
    (hother : d.names other = some otherFile) (hname : name ≠ other) :
    (d.write otherFile bytes k n).Holds name file content := by
  have hfile : file ≠ otherFile := by
    rintro rfl
    exact hname (d.inj name other file h.1 hother)
  exact ⟨h.1, (Function.update_of_ne hfile ..).trans h.2⟩

theorem Holds.remove (h : d.Holds name file content) (hname : name ≠ other) :
    (d.remove other).Holds name file content :=
  ⟨(Function.update_of_ne hname ..).trans h.1, h.2⟩

end Disk

end OpenFiles
