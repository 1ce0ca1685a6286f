import SafeHub.Client.Lfs
import Mathlib.Data.Set.Function

/-!
# Runs of pushes of large files

Each push of a checkout replaces the tracked files by stubs, and writes a pointer file beside each.
It does not tell a stub from other contents: a second push seals the stub of the first, and the
contents are one object further away.

## Main definitions

* `pushAll`, `contentAfter` — pushes, and the contents of a tracked file after them
* `FilesPushed` — what one push leaves
* `LfsRun` — pushes of a checkout, and the order in which a fetch finds files
* `LfsRun.FreshObjects` — what random nonces and the hash function are for

## Main results

* `filesPushed_lfsPush` — one push
* `LfsRun.held` — what pushes leave
-/

namespace SafeHub

open Perform Trim

/-- An order of the files of a checkout. -/
def IsWalk (files : Files) (walk : List String) : Prop :=
  walk.Nodup ∧ ∀ file, file ∈ walk ↔ files file ≠ none

section Pushes

variable {D : Type} [Sha512 D] [DecidableEq D] [HashPrimitives]

/-- Pushes, one after the other. One that fails leaves what it has done. -/
def pushAll (json : PointerJson) (transport : Bytes) (patterns : List String)
    (pushes : List LfsPush) (s : LfsState D) : LfsState D :=
  pushes.foldl (fun s push => (lfsPush json transport patterns push s).1) s

/-- The object that a push makes of a file. -/
def objectId (D : Type) [Sha512 D] (transport : Bytes) (push : LfsPush) (file : String)
    (bytes : Bytes) : BlobId D :=
  Sha512.digest (sealObject transport bytes (push.nonces file))

/-- The pointer that a push makes of a file. -/
def pushedPointer (D : Type) [Sha512 D] (transport : Bytes) (push : LfsPush) (file : String)
    (bytes : Bytes) : LfsPointer :=
  pointerTo (objectId D transport push file bytes) bytes

/-- The contents of a tracked file after pushes. -/
def contentAfter (D : Type) [Sha512 D] (transport : Bytes) (file : String)
    (pushes : List LfsPush) (bytes : Bytes) : Bytes :=
  pushes.foldl (fun bytes push => stub (pushedPointer D transport push file bytes)) bytes

end Pushes

/-! ### One push -/

section Push

variable {D : Type} [Sha512 D] [DecidableEq D] [HashPrimitives]
variable {json : PointerJson} {transport : Bytes} {patterns : List String} {push : LfsPush}
variable {s t : LfsState D} {done : List String} {file : String} {bytes ct : Bytes}
variable {id : BlobId D}

/-- What a push has left once it is done with some files. -/
structure FilesPushed (json : PointerJson) (transport : Bytes) (patterns : List String)
    (push : LfsPush) (s : LfsState D) (done : List String) (t : LfsState D) : Prop where
  replaced {file : String} {bytes : Bytes} : file ∈ done → isTracked patterns file = true →
    s.files file = some bytes →
    t.files file = some (stub (pushedPointer D transport push file bytes)) ∧
      t.files (pointerPath file) =
        some (strBytes (json.toStringPretty (pushedPointer D transport push file bytes))) ∧
      t.blobs.files (objectId D transport push file bytes) =
        some (sealObject transport bytes (push.nonces file))
  others {file : String} : (isTracked patterns file = true → file ∉ done) →
    (∀ tracked ∈ done, isTracked patterns tracked = true → file ≠ pointerPath tracked) →
    t.files file = s.files file
  kept {id : BlobId D} {ct : Bytes} : s.blobs.files id = some ct → t.blobs.files id = some ct
  blobs {id : BlobId D} {ct : Bytes} : t.blobs.files id = some ct →
    s.blobs.files id = some ct ∨ ∃ file bytes, isTracked patterns file = true ∧
      s.files file = some bytes ∧ ct = sealObject transport bytes (push.nonces file)

omit [DecidableEq D] in
theorem filesPushed_nil : FilesPushed json transport patterns push s [] s where
  replaced h := absurd h List.not_mem_nil
  others _ _ := rfl
  kept h := h
  blobs h := .inl h

omit [DecidableEq D] in
/-- A file that is not tracked is passed over. -/
theorem FilesPushed.skip (h : FilesPushed json transport patterns push s done t)
    (hfile : isTracked patterns file = false) :
    FilesPushed json transport patterns push s (done ++ [file]) t where
  replaced {other bytes} hmem htracked hbytes := by
    rcases List.mem_append.mp hmem with hdone | hlast
    · exact h.replaced hdone htracked hbytes
    · rw [List.mem_singleton.mp hlast, hfile] at htracked
      cases htracked
  others hmem hpointer :=
    h.others (fun htracked hdone => hmem htracked (List.mem_append_left _ hdone))
      fun tracked hdone => hpointer tracked (List.mem_append_left _ hdone)
  kept := h.kept
  blobs := h.blobs

/-- What a push does with a tracked file. -/
theorem exists_pushFile (hname : EndsInName file) (hfile : isTracked patterns file = true)
    (hread : t.files file = some bytes) :
    ∃ u, pushFile json transport patterns push t file = .ok u ∧
      u.files file = some (stub (pushedPointer D transport push file bytes)) ∧
      u.files (pointerPath file) =
        some (strBytes (json.toStringPretty (pushedPointer D transport push file bytes))) ∧
      (∀ other, other ≠ file → other ≠ pointerPath file → u.files other = t.files other) ∧
      u.blobs = t.blobs.putBlob (sealObject transport bytes (push.nonces file)) := by
  refine ⟨⟨Function.update (Function.update t.files (pointerPath file)
      (some (strBytes (json.toStringPretty (pushedPointer D transport push file bytes))))) file
      (some (stub (pushedPointer D transport push file bytes))),
    t.blobs.putBlob (sealObject transport bytes (push.nonces file))⟩, ?_, ?_, ?_, ?_, rfl⟩
  · rw [pushFile, if_pos hfile, hread]
    rfl
  · exact Function.update_self ..
  · exact (Function.update_of_ne (pointerPath_ne hname hfile) _ _).trans (Function.update_self ..)
  · intro other hne hpointer
    exact (Function.update_of_ne hne _ _).trans (Function.update_of_ne hpointer _ _)

/-- A tracked file is uploaded and replaced. -/
theorem FilesPushed.step (h : FilesPushed json transport patterns push s done t)
    (hfile : isTracked patterns file = true) (hdone : file ∉ done)
    (hbytes : s.files file = some bytes)
    (hnames : ∀ tracked ∈ file :: done, isTracked patterns tracked = true → EndsInName tracked)
    (hfresh : ∀ ct, t.blobs.files (objectId D transport push file bytes) = some ct →
      ct = sealObject transport bytes (push.nonces file)) :
    ∃ u, pushFile json transport patterns push t file = .ok u ∧
      FilesPushed json transport patterns push s (done ++ [file]) u := by
  have hname : EndsInName file := hnames file List.mem_cons_self hfile
  have hread : t.files file = some bytes := by
    rw [h.others (fun _ => hdone), hbytes]
    intro tracked hmem htracked
    exact (pointerPath_ne (hnames tracked (List.mem_cons_of_mem _ hmem) htracked) hfile).symm
  obtain ⟨u, hpush, hstubbed, hpointed, hsame, hblobs⟩ := exists_pushFile hname hfile hread
  refine ⟨u, hpush, ?_, ?_, ?_, ?_⟩
  · intro other contents hmem htracked hcontents
    rcases List.mem_append.mp hmem with hold | hlast
    · -- what was written for another file is left alone
      have hne : other ≠ file := fun heq => hdone (heq ▸ hold)
      have hother : EndsInName other := hnames other (List.mem_cons_of_mem _ hold) htracked
      obtain ⟨hstub, hjson, hblob⟩ := h.replaced hold htracked hcontents
      refine ⟨?_, ?_, hblobs ▸ putBlob_kept hblob⟩
      · exact (hsame _ hne (pointerPath_ne hname htracked).symm).trans hstub
      · exact (hsame _ (pointerPath_ne hother hfile) (pointerPath_injective.ne hne)).trans hjson
    · obtain rfl := List.mem_singleton.mp hlast
      obtain rfl := Option.some.inj (hbytes.symm.trans hcontents)
      exact ⟨hstubbed, hpointed, hblobs ▸ putBlob_digest hfresh⟩
  · intro other hmem hpointer
    have hlast : file ∈ done ++ [file] := List.mem_append_right _ (List.mem_singleton_self _)
    have hne : other ≠ file := by
      rintro rfl
      exact hmem hfile hlast
    refine (hsame _ hne (hpointer file hlast hfile)).trans ?_
    exact h.others (fun htracked hold => hmem htracked (List.mem_append_left _ hold))
      fun tracked hold => hpointer tracked (List.mem_append_left _ hold)
  · exact fun hblob => hblobs ▸ putBlob_kept (h.kept hblob)
  · intro id ct hblob
    rw [hblobs, putBlob_files] at hblob
    split_ifs at hblob
    · exact .inr ⟨file, bytes, hfile, hbytes, (Option.some.inj hblob).symm⟩
    · exact h.blobs hblob

variable {cts : Set Bytes} {rest : List String}

omit [DecidableEq D] in
/-- An object under the identifier of a file is the one of this file. -/
theorem FilesPushed.eq_sealObject (h : FilesPushed json transport patterns push s done t)
    (hideal : Set.InjOn (Sha512.digest : Bytes → D) cts)
    (hstored : ∀ id ct, s.blobs.files id = some ct → ct ∈ cts)
    (hsealed : ∀ file bytes, isTracked patterns file = true → s.files file = some bytes →
      sealObject transport bytes (push.nonces file) ∈ cts)
    (hfile : isTracked patterns file = true) (hbytes : s.files file = some bytes)
    (hct : t.blobs.files (objectId D transport push file bytes) = some ct) :
    ct = sealObject transport bytes (push.nonces file) := by
  refine (hideal (hsealed file bytes hfile hbytes) ?_ (t.blobs.addressed hct)).symm
  rcases h.blobs hct with hold | ⟨other, contents, hother, hcontents, rfl⟩
  · exact hstored _ _ hold
  · exact hsealed other contents hother hcontents

/-- The files that are left are pushed. -/
theorem FilesPushed.walk (h : FilesPushed json transport patterns push s done t)
    (hwalk : IsWalk s.files push.walk) (hsplit : push.walk = done ++ rest)
    (hnames : ∀ file, isTracked patterns file = true → s.files file ≠ none → EndsInName file)
    (hideal : Set.InjOn (Sha512.digest : Bytes → D) cts)
    (hstored : ∀ id ct, s.blobs.files id = some ct → ct ∈ cts)
    (hsealed : ∀ file bytes, isTracked patterns file = true → s.files file = some bytes →
      sealObject transport bytes (push.nonces file) ∈ cts) :
    ∃ u, performAll (rest.map fun file t => pushFile json transport patterns push t file) t =
        (u, true) ∧
      FilesPushed json transport patterns push s push.walk u := by
  induction rest generalizing done t with
  | nil =>
    rw [List.append_nil] at hsplit
    exact ⟨t, rfl, hsplit ▸ h⟩
  | cons file rest ih =>
    have hnext : push.walk = (done ++ [file]) ++ rest := by
      rw [hsplit, List.append_assoc]
      rfl
    cases hfile : isTracked patterns file with
    | false =>
      obtain ⟨u, hperform, hu⟩ := ih (h.skip hfile) hnext
      refine ⟨u, performAll_cons_eq.mpr ⟨t, ?_, hperform⟩, hu⟩
      change pushFile json transport patterns push t file = _
      rw [pushFile, if_neg (Bool.eq_false_iff.mp hfile)]
    | true =>
      -- the file is there, and has not been pushed yet
      have hmem : ∀ tracked ∈ file :: done, tracked ∈ push.walk := by
        intro tracked htracked
        rw [hsplit]
        rcases List.mem_cons.mp htracked with rfl | hold
        · exact List.mem_append_right _ List.mem_cons_self
        · exact List.mem_append_left _ hold
      have hnodup := hwalk.1
      rw [hsplit] at hnodup
      have hdone : file ∉ done :=
        fun hold => (List.nodup_append.mp hnodup).2.2 file hold file List.mem_cons_self rfl
      obtain ⟨bytes, hbytes⟩ := Option.ne_none_iff_exists'.mp
        ((hwalk.2 file).mp (hmem file List.mem_cons_self))
      obtain ⟨v, hstep, hv⟩ := h.step hfile hdone hbytes
        (fun tracked htracked hother =>
          hnames tracked hother ((hwalk.2 tracked).mp (hmem tracked htracked)))
        fun ct hct => h.eq_sealObject hideal hstored hsealed hfile hbytes hct
      obtain ⟨u, hperform, hu⟩ := ih hv hnext
      exact ⟨u, performAll_cons_eq.mpr ⟨v, hstep, hperform⟩, hu⟩

/-- What a push leaves. -/
theorem filesPushed_lfsPush (hwalk : IsWalk s.files push.walk)
    (hnames : ∀ file, isTracked patterns file = true → s.files file ≠ none → EndsInName file)
    (hideal : Set.InjOn (Sha512.digest : Bytes → D) cts)
    (hstored : ∀ id ct, s.blobs.files id = some ct → ct ∈ cts)
    (hsealed : ∀ file bytes, isTracked patterns file = true → s.files file = some bytes →
      sealObject transport bytes (push.nonces file) ∈ cts) :
    FilesPushed json transport patterns push s push.walk
      (lfsPush json transport patterns push s).1 := by
  have hnil : FilesPushed json transport patterns push s [] s := filesPushed_nil
  obtain ⟨u, hperform, hu⟩ := hnil.walk hwalk rfl hnames hideal hstored hsealed
  rw [lfsPush]
  split_ifs with hpatterns
  · -- without patterns nothing is tracked
    have hnone : ∀ file, isTracked patterns file = false := by
      intro file
      rw [hpatterns]
      rfl
    refine ⟨fun _ htracked _ => ?_, fun _ _ => rfl, fun h => h, fun h => .inl h⟩
    rw [hnone] at htracked
    cases htracked
  · rw [tryAll_eq_ok_iff.mpr hperform]
    exact hu

end Push

/-- Pushes of a checkout, and then a fetch. All read the same patterns, from a file that is not
tracked itself. -/
structure LfsRun (D : Type) [Sha512 D] [DecidableEq D] [HashPrimitives] where
  json : PointerJson
  transport : Bytes
  patterns : List String
  start : LfsState D
  endsInName {file : String} : start.files file ≠ none → EndsInName file
  /-- Files that are not tracked, and no pointer files of tracked ones, name no objects. -/
  passed {file : String} {bytes : Bytes} : start.files file = some bytes →
    isTracked patterns file = false →
    (∀ tracked, isTracked patterns tracked = true → start.files tracked ≠ none →
      file ≠ pointerPath tracked) →
    readPointer json bytes = none
  pushes : List LfsPush
  pushes_ne_nil : pushes ≠ []
  walks {front back : List LfsPush} {push : LfsPush} : pushes = front ++ push :: back →
    IsWalk (pushAll json transport patterns front start).files push.walk
  /-- The order in which the fetch finds files. -/
  walk : List String
  isWalk : IsWalk (pushAll json transport patterns pushes start).files walk

namespace LfsRun

variable {D : Type} [Sha512 D] [DigestBytes D] [DecidableEq D] [HashPrimitives]

/-- A tracked file and its contents before the first push. -/
def Tracks (run : LfsRun D) (file : String) (bytes : Bytes) : Prop :=
  isTracked run.patterns file = true ∧ run.start.files file = some bytes

/-- The checkout and the host after some of the pushes. -/
def after (run : LfsRun D) (pushes : List LfsPush) : LfsState D :=
  pushAll run.json run.transport run.patterns pushes run.start

/-- What the pushes upload. -/
def Uploaded (run : LfsRun D) (ct : Bytes) : Prop :=
  ∃ front push back file bytes, run.pushes = front ++ push :: back ∧ run.Tracks file bytes ∧
    ct = sealObject run.transport (contentAfter D run.transport file front bytes)
      (push.nonces file)

/-- Objects sealed under random nonces have identifiers of their own, which no contents name
that were there before. -/
structure FreshObjects (run : LfsRun D) : Prop where
  ideal : Set.InjOn (Sha512.digest : Bytes → D)
    {ct | run.Uploaded ct ∨ ∃ id, run.start.blobs.files id = some ct}
  unnamed {file oid : String} {bytes ct : Bytes} : run.Tracks file bytes →
    readPointer run.json bytes = some oid → run.Uploaded ct →
    BlobId.fromHex D (String.ofList (Trim.trim oid.toList)) ≠ some (Sha512.digest ct)

/-! ### What pushes leave -/

section Held

variable {run : LfsRun D} {pushes back : List LfsPush} {s : LfsState D} {file : String}
variable {bytes : Bytes}

/-- What some of the pushes have left. -/
structure Held (run : LfsRun D) (pushes : List LfsPush) (s : LfsState D) : Prop where
  content {file : String} {bytes : Bytes} : run.Tracks file bytes →
    s.files file = some (contentAfter D run.transport file pushes bytes)
  pointer {front : List LfsPush} {push : LfsPush} {file : String} {bytes : Bytes} :
    pushes = front ++ [push] → run.Tracks file bytes → s.files (pointerPath file) =
      some (strBytes (run.json.toStringPretty (pushedPointer D run.transport push file
        (contentAfter D run.transport file front bytes))))
  stored {front back : List LfsPush} {push : LfsPush} {file : String} {bytes : Bytes} :
    pushes = front ++ push :: back → run.Tracks file bytes →
      s.blobs.files (objectId D run.transport push file
        (contentAfter D run.transport file front bytes)) =
      some (sealObject run.transport (contentAfter D run.transport file front bytes)
        (push.nonces file))
  others {file : String} : (∀ bytes, ¬ run.Tracks file bytes) →
    (∀ tracked bytes, run.Tracks tracked bytes → file ≠ pointerPath tracked) →
    s.files file = run.start.files file
  kept {id : BlobId D} {ct : Bytes} : run.start.blobs.files id = some ct →
    s.blobs.files id = some ct
  blobs {id : BlobId D} {ct : Bytes} : s.blobs.files id = some ct →
    run.start.blobs.files id = some ct ∨ run.Uploaded ct

omit [DigestBytes D] in
theorem Tracks.endsInName (h : run.Tracks file bytes) : EndsInName file := by
  apply run.endsInName
  rw [h.2]
  exact Option.some_ne_none _

omit [DigestBytes D] in
/-- A tracked file was there before the first push. -/
theorem Held.tracks (h : Held run pushes s) (htracked : isTracked run.patterns file = true)
    (hfile : s.files file ≠ none) : ∃ bytes, run.Tracks file bytes := by
  by_contra hnone
  have hstart : run.start.files file = none := by
    by_contra hsome
    obtain ⟨bytes, hbytes⟩ := Option.ne_none_iff_exists'.mp hsome
    exact hnone ⟨bytes, htracked, hbytes⟩
  refine hfile ((h.others (fun bytes hbytes => hnone ⟨bytes, hbytes⟩) ?_).trans hstart)
  intro other bytes hother
  exact (pointerPath_ne hother.endsInName htracked).symm

omit [DigestBytes D] in
theorem held_nil : Held run [] run.start where
  content h := h.2
  pointer h := absurd h.symm (List.append_ne_nil_of_right_ne_nil _ (List.cons_ne_nil _ _))
  stored h := absurd h.symm (List.append_ne_nil_of_right_ne_nil _ (List.cons_ne_nil _ _))
  others _ _ := rfl
  kept h := h
  blobs h := .inl h

omit [DigestBytes D] in
/-- One push. -/
theorem Held.step {push : LfsPush} {t : LfsState D} (h : Held run pushes s)
    (hpushes : run.pushes = pushes ++ push :: back) (hwalk : IsWalk s.files push.walk)
    (hpushed : FilesPushed run.json run.transport run.patterns push s push.walk t) :
    Held run (pushes ++ [push]) t := by
  -- the walk comes by every tracked file, and finds what the pushes before have left
  have hmem : ∀ {file bytes}, run.Tracks file bytes → file ∈ push.walk := by
    intro file bytes htracks
    rw [hwalk.2, h.content htracks]
    exact Option.some_ne_none _
  have hreplaced : ∀ {file bytes}, run.Tracks file bytes → _ := fun {file bytes} htracks =>
    hpushed.replaced (hmem htracks) htracks.1 (h.content htracks)
  constructor
  · intro file bytes htracks
    rw [contentAfter, List.foldl_append]
    exact (hreplaced htracks).1
  · intro front last file bytes hfront htracks
    obtain ⟨rfl, hlast⟩ := List.append_inj' hfront rfl
    obtain rfl := List.singleton_inj.mp hlast
    exact (hreplaced htracks).2.1
  · intro front back' other file bytes hfront htracks
    rcases List.eq_nil_or_concat' back' with rfl | ⟨mid, last, rfl⟩
    · obtain ⟨rfl, hlast⟩ := List.append_inj' hfront rfl
      obtain rfl := List.singleton_inj.mp hlast
      exact (hreplaced htracks).2.2
    · -- what an earlier push has uploaded stays
      rw [← List.cons_append, ← List.append_assoc] at hfront
      exact hpushed.kept (h.stored (List.append_inj' hfront rfl).1 htracks)
  · intro file hfile hpointer
    refine (hpushed.others ?_ ?_).trans (h.others hfile hpointer)
    · intro htracked hwalked
      obtain ⟨bytes, hbytes⟩ := h.tracks htracked ((hwalk.2 file).mp hwalked)
      exact hfile bytes hbytes
    · intro other hwalked htracked
      obtain ⟨bytes, hbytes⟩ := h.tracks htracked ((hwalk.2 other).mp hwalked)
      exact hpointer other bytes hbytes
  · exact fun hblob => hpushed.kept (h.kept hblob)
  · intro id ct hblob
    rcases hpushed.blobs hblob with hold | ⟨file, bytes, htracked, hbytes, rfl⟩
    · exact h.blobs hold
    · -- what this push has found is what the ones before have left of some file
      obtain ⟨original, htracks⟩ := h.tracks htracked (hbytes ▸ Option.some_ne_none _)
      obtain rfl := Option.some.inj ((h.content htracks).symm.trans hbytes)
      exact .inr ⟨pushes, push, back, file, original, hpushes, htracks, rfl⟩

/-- What pushes leave. -/
theorem held (hfresh : run.FreshObjects) (hpushes : run.pushes = pushes ++ back) :
    Held run pushes (run.after pushes) := by
  induction pushes using List.reverseRecOn generalizing back with
  | nil => exact held_nil
  | append_singleton pushes push ih =>
    have hsplit : run.pushes = pushes ++ push :: back := by
      rw [hpushes, List.append_assoc]
      rfl
    have hheld := ih hsplit
    have hwalk : IsWalk (run.after pushes).files push.walk := run.walks hsplit
    have hlast : run.after (pushes ++ [push]) =
        (lfsPush run.json run.transport run.patterns push (run.after pushes)).1 := by
      rw [after, pushAll, List.foldl_append]
      rfl
    rw [hlast]
    refine hheld.step hsplit hwalk (filesPushed_lfsPush hwalk ?_ hfresh.ideal ?_ ?_)
    · intro file htracked hfile
      obtain ⟨bytes, hbytes⟩ := hheld.tracks htracked hfile
      exact hbytes.endsInName
    · intro id ct hct
      rcases hheld.blobs hct with hold | huploaded
      · exact .inr ⟨id, hold⟩
      · exact .inl huploaded
    · intro file bytes htracked hbytes
      obtain ⟨original, htracks⟩ := hheld.tracks htracked (hbytes ▸ Option.some_ne_none _)
      obtain rfl := Option.some.inj ((hheld.content htracks).symm.trans hbytes)
      exact .inl ⟨pushes, push, back, file, original, hsplit, htracks, rfl⟩

/-- An object that was uploaded is read back. -/
theorem getSealedObject_after {front : List LfsPush} {push : LfsPush} (hfresh : run.FreshObjects)
    (hpushes : run.pushes = front ++ push :: back) (htracks : run.Tracks file bytes) :
    (run.after run.pushes).blobs.getSealedObject run.transport
        (objectId D run.transport push file (contentAfter D run.transport file front bytes)) =
      .ok (contentAfter D run.transport file front bytes) := by
  have hheld := held hfresh (List.append_nil run.pushes).symm
  exact getSealedObject_eq_ok (push.length_nonces file) (hheld.stored hpushes htracks)

end Held

end LfsRun

end SafeHub
