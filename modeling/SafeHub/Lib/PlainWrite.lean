import SafeHub.Lib.FixedWidth
import Mathlib.Logic.Function.Basic

/-!
# Plain file writes

A file written without a temporary file: it is created empty, or emptied, and then filled
chunk by chunk, so that a reader or a crash can find any part of it. Two writers of one
file write at their own offsets.

Files that are only created where there is none have one writer at a time, and hold what
that writer has written so far until it is done.

## Main definitions

* `writeNext` — a file after the next chunk of its content
* `Exclusive` — every file is whole or the part its only writer has written

## Main results

* `Exclusive.create`, `Exclusive.next`, `Exclusive.finish` — the steps of a writer keep it
-/

namespace PlainWrite

/-- A file after writing bytes at an offset; a gap past its end is filled with zeros. -/
def writeAt (file : Bytes) (offset : ℕ) (bytes : Bytes) : Bytes :=
  (file ++ List.replicate (offset - file.length) 0).take offset ++ bytes ++
    file.drop (offset + bytes.length)

/-- A file after the next `n` bytes of its content, of which `k` are written. -/
def writeNext (content file : Bytes) (k n : ℕ) : Bytes := writeAt file k ((content.drop k).take n)

/-- A single writer leaves a prefix of its content. -/
theorem writeNext_take {content : Bytes} {k : ℕ} (h : k ≤ content.length) (n : ℕ) :
    writeNext content (content.take k) k n = content.take (k + n) := by
  have hlength : (content.take k).length = k := List.length_take_of_le h
  have hfront : (content.take k ++ List.replicate (k - (content.take k).length) 0).take k =
      content.take k := by
    rw [hlength, Nat.sub_self, List.replicate_zero, List.append_nil, List.take_take, min_self]
  have hback : (content.take k).drop (k + ((content.drop k).take n).length) = [] := by
    apply List.drop_eq_nil_of_le
    rw [hlength]
    omega
  rw [writeNext, writeAt, hfront, hback, List.append_nil, List.take_add]

/-! ### One writer at a time -/

variable {N : Type*}

/-- Every file is whole, or the part of its content that its only writer has written. A
writer is the name of its file, the content and how much of it is written. -/
structure Exclusive (whole : N → Bytes → Prop) (files : N → Option Bytes)
    (writers : ℕ → Option (N × Bytes × ℕ)) : Prop where
  file : ∀ name bytes, files name = some bytes →
    whole name bytes ∨ ∃ pid content k, writers pid = some (name, content, k)
  writing : ∀ pid name content k, writers pid = some (name, content, k) →
    k ≤ content.length ∧ files name = some (content.take k)
  sole : ∀ pid pid' name content content' k k', writers pid = some (name, content, k) →
    writers pid' = some (name, content', k') → pid = pid'

variable [DecidableEq N] {whole whole' : N → Bytes → Prop} {files : N → Option Bytes}
  {writers : ℕ → Option (N × Bytes × ℕ)} {pid k n : ℕ} {name : N} {content : Bytes}

omit [DecidableEq N] in
/-- Without files there are no writers. -/
theorem Exclusive.empty : Exclusive whole (fun _ => none) fun _ => none where
  file := by intro name bytes h; cases h
  writing := by intro pid name content k h; cases h
  sole := by intro pid pid' name content content' k k' h; cases h

omit [DecidableEq N] in
theorem Exclusive.mono (h : Exclusive whole files writers)
    (hwhole : ∀ name bytes, whole name bytes → whole' name bytes) :
    Exclusive whole' files writers where
  file := fun name bytes hfile => (h.file name bytes hfile).imp_left (hwhole name bytes)
  writing := h.writing
  sole := h.sole

omit [DecidableEq N] in
/-- A file nobody is writing is whole. -/
theorem Exclusive.whole_of_unwritten (h : Exclusive whole files writers) {bytes : Bytes}
    (hfile : files name = some bytes)
    (hquiet : ¬ ∃ pid content k, writers pid = some (name, content, k)) : whole name bytes :=
  (h.file name bytes hfile).resolve_right hquiet

/-- The file's only writer, or its first one, has written `k` bytes of it: it goes on, or it
is done. -/
theorem Exclusive.wrote (h : Exclusive whole files writers)
    (hsole : ∀ pid' content' k', writers pid' = some (name, content', k') → pid' = pid)
    (hpid : ∀ name' content' k', writers pid = some (name', content', k') → name' = name)
    (hk : k ≤ content.length) {next : Option (N × Bytes × ℕ)}
    (hnext : next = some (name, content, k) ∨
      next = none ∧ content.length ≤ k ∧ whole name content) :
    Exclusive whole (Function.update files name (some (content.take k)))
      (Function.update writers pid next) := by
  -- all that the process can be writing afterwards
  have hself {name' : N} {content' : Bytes} {k' : ℕ} (hwriter : next = some (name', content', k')) :
      name' = name ∧ content' = content ∧ k' = k := by
    rcases hnext with hgoes | ⟨hdone, _⟩
    · rw [hgoes, Option.some.injEq, Prod.mk.injEq, Prod.mk.injEq] at hwriter
      exact ⟨hwriter.1.symm, hwriter.2.1.symm, hwriter.2.2.symm⟩
    · rw [hdone] at hwriter
      cases hwriter
  refine ⟨?_, ?_, ?_⟩
  · -- files: this one is being written or is whole, others are as before
    intro name' bytes hfile
    by_cases hname : name' = name
    · subst hname
      rw [Function.update_self, Option.some_inj] at hfile
      rcases hnext with hgoes | ⟨_, hfull, hwhole⟩
      · exact .inr ⟨pid, content, k, by rw [Function.update_self, hgoes]⟩
      · rw [List.take_of_length_le hfull] at hfile
        exact .inl (hfile ▸ hwhole)
    · rw [Function.update_of_ne hname] at hfile
      rcases h.file name' bytes hfile with hwhole | ⟨pid', content', k', hwriter⟩
      · exact .inl hwhole
      · have hne : pid' ≠ pid := by
          rintro rfl
          exact hname (hpid name' content' k' hwriter)
        exact .inr ⟨pid', content', k', by rwa [Function.update_of_ne hne]⟩
  · -- writers: this one has its prefix, others have other files
    intro pid' name' content' k' hwriter
    by_cases hwho : pid' = pid
    · subst hwho
      rw [Function.update_self] at hwriter
      obtain ⟨rfl, rfl, rfl⟩ := hself hwriter
      exact ⟨hk, Function.update_self _ _ _⟩
    · rw [Function.update_of_ne hwho] at hwriter
      have hname : name' ≠ name := by
        rintro rfl
        exact hwho (hsole pid' content' k' hwriter)
      rw [Function.update_of_ne hname]
      exact h.writing pid' name' content' k' hwriter
  · -- a file has one writer
    intro pid₁ pid₂ name' content₁ content₂ k₁ k₂ hone htwo
    by_cases hwho₁ : pid₁ = pid
    · by_cases hwho₂ : pid₂ = pid
      · rw [hwho₁, hwho₂]
      · rw [hwho₁, Function.update_self] at hone
        rw [Function.update_of_ne hwho₂, (hself hone).1] at htwo
        exact absurd (hsole pid₂ content₂ k₂ htwo) hwho₂
    · rw [Function.update_of_ne hwho₁] at hone
      by_cases hwho₂ : pid₂ = pid
      · rw [hwho₂, Function.update_self] at htwo
        rw [(hself htwo).1] at hone
        exact absurd (hsole pid₁ content₁ k₁ hone) hwho₁
      · rw [Function.update_of_ne hwho₂] at htwo
        exact h.sole pid₁ pid₂ name' content₁ content₂ k₁ k₂ hone htwo

/-- A new writer creates a file that does not exist. -/
theorem Exclusive.create (h : Exclusive whole files writers) (hidle : writers pid = none)
    (hfresh : files name = none) (content : Bytes) :
    Exclusive whole (Function.update files name (some []))
      (Function.update writers pid (some (name, content, 0))) := by
  refine h.wrote ?_ ?_ (Nat.zero_le _) (.inl rfl)
  · intro pid' content' k' hwriter
    have hfile := (h.writing pid' name content' k' hwriter).2
    rw [hfresh] at hfile
    cases hfile
  · intro name' content' k' hwriter
    rw [hidle] at hwriter
    cases hwriter

/-- A writer writes its next bytes, but not the last ones. -/
theorem Exclusive.next (h : Exclusive whole files writers)
    (hwriter : writers pid = some (name, content, k)) (hmore : k + n < content.length) :
    Exclusive whole
      (Function.update files name (some (writeNext content ((files name).getD []) k n)))
      (Function.update writers pid (some (name, content, k + n))) := by
  obtain ⟨hk, hfile⟩ := h.writing pid name content k hwriter
  rw [hfile, Option.getD_some, writeNext_take hk]
  refine h.wrote ?_ ?_ hmore.le (.inl rfl)
  · intro pid' content' k' hother
    exact h.sole pid' pid name content' content k' k hother hwriter
  · intro name' content' k' hother
    rw [hwriter, Option.some.injEq, Prod.mk.injEq] at hother
    exact hother.1.symm

omit [DecidableEq N] in
/-- With a writer's last bytes the file has its content. -/
theorem Exclusive.writeNext_last (h : Exclusive whole files writers)
    (hwriter : writers pid = some (name, content, k)) (hlast : content.length ≤ k + n) :
    writeNext content ((files name).getD []) k n = content := by
  obtain ⟨hk, hfile⟩ := h.writing pid name content k hwriter
  rw [hfile, Option.getD_some, writeNext_take hk, List.take_of_length_le hlast]

/-- A writer writes its last bytes, which makes the file whole. -/
theorem Exclusive.finish (h : Exclusive whole files writers)
    (hwriter : writers pid = some (name, content, k)) (hlast : content.length ≤ k + n)
    (hwhole : whole name content) :
    Exclusive whole
      (Function.update files name (some (writeNext content ((files name).getD []) k n)))
      (Function.update writers pid none) := by
  have hall : writeNext content ((files name).getD []) k n = content.take content.length := by
    rw [h.writeNext_last hwriter hlast, List.take_length]
  rw [hall]
  refine h.wrote ?_ ?_ le_rfl (.inr ⟨rfl, le_rfl, hwhole⟩)
  · intro pid' content' k' hother
    exact h.sole pid' pid name content' content k' k hother hwriter
  · intro name' content' k' hother
    rw [hwriter, Option.some.injEq, Prod.mk.injEq] at hother
    exact hother.1.symm

end PlainWrite
