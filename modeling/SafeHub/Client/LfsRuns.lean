import SafeHub.Client.LfsPushes

/-!
# Does a fetch restore what pushes replaced?

A fetch follows one name of each file it reads. It restores a file after two pushes only if it reads
the pointer file first, which writes the stub of the first push, and then the file; after more
pushes it never does. After one push the order matters only for contents that name an object
themselves.

## Main definitions

* `LfsRun.Inverse` — the fetch restores the tracked files
* `LfsRun.Restored` — the files that it restores

## Main results

* `LfsRun.inverse_iff` — the runs whose fetch restores the tracked files
-/

namespace SafeHub

open Perform Trim

namespace LfsRun

variable {D : Type} [Sha512 D] [DigestBytes D] [DecidableEq D] [HashPrimitives]

/-- The fetch succeeds, and every tracked file has its original contents. -/
def Inverse (run : LfsRun D) : Prop :=
  ∃ files, lfsFetch run.json run.transport run.walk (run.after run.pushes) = (files, .ok ()) ∧
    ∀ file bytes, run.Tracks file bytes → files file = some bytes

/-- The fetch finds one file before another. -/
def Before (run : LfsRun D) (file other : String) : Prop :=
  run.walk.idxOf file < run.walk.idxOf other

/-- Contents that name nothing, or an object on the host with these contents. -/
def PointsBack (run : LfsRun D) (bytes : Bytes) : Prop :=
  ∀ oid, readPointer run.json bytes = some oid →
    ∃ id, BlobId.fromHex D (String.ofList (Trim.trim oid.toList)) = some id ∧
      run.start.blobs.getSealedObject run.transport id = .ok bytes

/-- A file that the fetch restores: after one push, if it is found before its pointer file or its
contents name nothing else; and after two, if its pointer file is found first. -/
def Restored (run : LfsRun D) (file : String) (bytes : Bytes) : Prop :=
  run.pushes.length = 1 ∧ (run.Before file (pointerPath file) ∨ run.PointsBack bytes) ∨
    run.pushes.length = 2 ∧ run.Before (pointerPath file) file

/-! ### What a fetch writes -/

section Fetch

variable {run : LfsRun D} {front back : List LfsPush} {push : LfsPush} {files left : Files}
variable {file oid : String} {bytes : Bytes} {names : List String} {id : BlobId D}

/-- Fetching some of the files. -/
def fetchOver (run : LfsRun D) (names : List String) (files : Files) : Files × Bool :=
  performAll (names.map fun file files => fetchFile run.json run.transport
    (run.after run.pushes).blobs files file) files

/-- Only tracked files have changed since the pushes. -/
def Steady (run : LfsRun D) (files : Files) : Prop :=
  ∀ file, (∀ bytes, ¬ run.Tracks file bytes) → files file = (run.after run.pushes).files file

/-- A file that is not tracked, and no pointer file of one that is, is passed over. -/
theorem fetch_other (hfresh : run.FreshObjects) (hsteady : run.Steady files)
    (hfile : ∀ bytes, ¬ run.Tracks file bytes)
    (hpointer : ∀ tracked bytes, run.Tracks tracked bytes → file ≠ pointerPath tracked) :
    (files file).bind (readPointer run.json) = none := by
  have hheld := held hfresh (List.append_nil run.pushes).symm
  rw [hsteady file hfile, hheld.others hfile hpointer]
  cases hbytes : run.start.files file with
  | none => rfl
  | some bytes =>
    have huntracked : isTracked run.patterns file = false :=
      Bool.eq_false_iff.mpr fun htracked => hfile bytes ⟨htracked, hbytes⟩
    refine run.passed hbytes huntracked ?_
    intro tracked htracked hstart
    obtain ⟨original, horiginal⟩ := Option.ne_none_iff_exists'.mp hstart
    exact hpointer tracked original ⟨htracked, horiginal⟩

/-- Fetching changes tracked files only. -/
theorem steady_fetchFile (hfresh : run.FreshObjects) (hsteady : run.Steady files)
    (hfetch : fetchFile run.json run.transport (run.after run.pushes).blobs files file = .ok left) :
    run.Steady left := by
  rcases fetchFile_eq_ok_iff.mp hfetch with ⟨-, rfl⟩ | ⟨oid, id, plaintext, hread, -, -, rfl⟩
  · exact hsteady
  · -- what was written belongs to a tracked file
    have hout : ∃ bytes, run.Tracks (outPath file) bytes := by
      by_contra hnone
      have hother : (files file).bind (readPointer run.json) = none := by
        apply fetch_other hfresh hsteady
        · intro bytes htracks
          exact hnone ⟨bytes, by rwa [outPath_eq_self htracks.1]⟩
        · rintro tracked bytes htracks rfl
          exact hnone ⟨bytes, by rwa [outPath_pointerPath htracks.endsInName]⟩
      rw [hother] at hread
      cases hread
    intro other hother
    obtain ⟨bytes, hbytes⟩ := hout
    rw [Function.update_of_ne, hsteady other hother]
    rintro rfl
    exact hother bytes hbytes

theorem steady_fetchOver {ok : Bool} (hfresh : run.FreshObjects) (hsteady : run.Steady files)
    (hfetch : run.fetchOver names files = (left, ok)) : run.Steady left := by
  have hleft : left = (run.fetchOver names files).1 := by rw [hfetch]
  rw [hleft]
  refine performAll_invariant ?_ hsteady
  intro op hop s t hs hstep
  obtain ⟨file, -, rfl⟩ := List.mem_map.mp hop
  exact steady_fetchFile hfresh hs hstep

/-- A file changes only when it or its pointer file is fetched. -/
theorem fetchOver_of_not_mem {ok : Bool} (hfile : file ∉ names)
    (hpointer : pointerPath file ∉ names) (hfetch : run.fetchOver names files = (left, ok)) :
    left file = files file := by
  have hleft : left = (run.fetchOver names files).1 := by rw [hfetch]
  rw [hleft]
  refine performAll_invariant (I := fun s : Files => s file = files file) ?_ rfl
  intro op hop s t hs hstep
  obtain ⟨other, hother, rfl⟩ := List.mem_map.mp hop
  rcases fetchFile_eq_ok_iff.mp hstep with ⟨-, rfl⟩ | ⟨oid, id, plaintext, -, -, -, rfl⟩
  · exact hs
  · rw [Function.update_of_ne, hs]
    intro hout
    rcases outPath_cases hout.symm with rfl | rfl
    · exact hfile hother
    · exact hpointer hother

/-- Fetching the pointer file writes what the last push sealed. -/
theorem fetch_pointer (hfresh : run.FreshObjects) (hpushes : run.pushes = front ++ [push])
    (htracks : run.Tracks file bytes) (hsteady : run.Steady files) :
    fetchFile run.json run.transport (run.after run.pushes).blobs files (pointerPath file) =
      .ok (Function.update files file
        (some (contentAfter D run.transport file front bytes))) := by
  have hheld := held hfresh (List.append_nil run.pushes).symm
  have huntracked : ∀ bytes, ¬ run.Tracks (pointerPath file) bytes := by
    intro bytes hpointer
    rw [Tracks, isTracked_pointerPath htracks.endsInName] at hpointer
    cases hpointer.1
  rw [fetchFile_eq_ok_iff]
  refine .inr ⟨(pushedPointer D run.transport push file (contentAfter D run.transport file front
    bytes)).oid, _, _, ?_, fromHex_oid, getSealedObject_after hfresh hpushes htracks, ?_⟩
  · rw [hsteady _ huntracked, hheld.pointer hpushes htracks]
    exact readPointer_pointerFile written_pointerTo
  · rw [outPath_pointerPath htracks.endsInName]

/-- Fetching a stub writes what its push sealed. -/
theorem fetch_stub (hfresh : run.FreshObjects) (hpushes : run.pushes = front ++ push :: back)
    (htracks : run.Tracks file bytes) (hfile : files file =
      some (contentAfter D run.transport file (front ++ [push]) bytes)) :
    fetchFile run.json run.transport (run.after run.pushes).blobs files file =
      .ok (Function.update files file
        (some (contentAfter D run.transport file front bytes))) := by
  rw [fetchFile_eq_ok_iff]
  refine .inr ⟨(pushedPointer D run.transport push file (contentAfter D run.transport file front
    bytes)).oid, _, _, ?_, fromHex_oid, getSealedObject_after hfresh hpushes htracks, ?_⟩
  · rw [hfile, contentAfter, List.foldl_append]
    exact readPointer_stub
  · rw [outPath_eq_self htracks.1]

theorem fetchOver_split {names' : List String} :
    run.fetchOver (names ++ file :: names') files = (left, true) ↔
      ∃ mid next, run.fetchOver names files = (mid, true) ∧
        fetchFile run.json run.transport (run.after run.pushes).blobs mid file = .ok next ∧
        run.fetchOver names' next = (left, true) := by
  rw [fetchOver, List.map_append, List.map_cons, performAll_append_eq]
  constructor
  · rintro ⟨mid, hnames, hrest⟩
    obtain ⟨next, hfile, hnames'⟩ := performAll_cons_eq.mp hrest
    exact ⟨mid, next, hnames, hfile, hnames'⟩
  · rintro ⟨mid, next, hnames, hfile, hnames'⟩
    exact ⟨mid, hnames, performAll_cons_eq.mpr ⟨next, hfile, hnames'⟩⟩

omit [HashPrimitives] in
/-- A list without repetitions, split at two of its elements. -/
theorem exists_split {α : Type*} [DecidableEq α] {x y : α} {xs : List α} (hnodup : xs.Nodup)
    (hy : y ∈ xs) (hlt : xs.idxOf x < xs.idxOf y) :
    ∃ a b c, xs = a ++ x :: (b ++ y :: c) ∧ (x ∉ a ∧ y ∉ a) ∧ (x ∉ b ∧ y ∉ b) ∧
      x ∉ c ∧ y ∉ c := by
  have hx : x ∈ xs := List.idxOf_lt_length_iff.mp (hlt.trans (List.idxOf_lt_length_iff.mpr hy))
  obtain ⟨a, r, rfl⟩ := List.append_of_mem hx
  obtain ⟨-, hxr, hdisjoint⟩ := List.nodup_append.mp hnodup
  have hxa : x ∉ a := fun hmem => hdisjoint x hmem x List.mem_cons_self rfl
  have hya : y ∉ a := by
    intro hmem
    rw [List.idxOf_append_of_notMem hxa, List.idxOf_append_of_mem hmem] at hlt
    have hbound := List.idxOf_lt_length_iff.mpr hmem
    omega
  have hne : y ≠ x := by
    rintro rfl
    exact lt_irrefl _ hlt
  have hyr : y ∈ r := by
    rcases List.mem_append.mp hy with hmem | hmem
    · exact absurd hmem hya
    · exact (List.mem_cons.mp hmem).resolve_left hne
  obtain ⟨b, c, rfl⟩ := List.append_of_mem hyr
  obtain ⟨hxbc, hbc⟩ := List.nodup_cons.mp hxr
  rw [List.mem_append, List.mem_cons, not_or, not_or] at hxbc
  obtain ⟨-, hyc, hbcdisjoint⟩ := List.nodup_append.mp hbc
  exact ⟨a, b, c, rfl, ⟨hxa, hya⟩,
    ⟨hxbc.1, fun hmem => hbcdisjoint y hmem y List.mem_cons_self rfl⟩,
    hxbc.2.2, (List.nodup_cons.mp hyc).1⟩

/-- A tracked file and its pointer file are found by the fetch. -/
theorem mem_walk (hfresh : run.FreshObjects) (hpushes : run.pushes = front ++ [push])
    (htracks : run.Tracks file bytes) : file ∈ run.walk ∧ pointerPath file ∈ run.walk := by
  have hheld : Held run run.pushes (pushAll run.json run.transport run.patterns run.pushes
    run.start) := held hfresh (List.append_nil run.pushes).symm
  rw [run.isWalk.2, run.isWalk.2, hheld.content htracks, hheld.pointer hpushes htracks]
  exact ⟨Option.some_ne_none _, Option.some_ne_none _⟩

omit [DigestBytes D] in
theorem steady_after : run.Steady (run.after run.pushes).files := fun _ _ => rfl

/-- A file that is found before its pointer file has what the last push sealed. -/
theorem fetch_file_first (hfresh : run.FreshObjects) (hpushes : run.pushes = front ++ [push])
    (htracks : run.Tracks file bytes) (hbefore : run.Before file (pointerPath file))
    (hfetch : run.fetchOver run.walk (run.after run.pushes).files = (left, true)) :
    left file = some (contentAfter D run.transport file front bytes) := by
  have hheld := held hfresh (List.append_nil run.pushes).symm
  obtain ⟨a, b, c, hwalk, ha, hb, hc⟩ :=
    exists_split run.isWalk.1 (mem_walk hfresh hpushes htracks).2 hbefore
  rw [hwalk] at hfetch
  obtain ⟨f₁, f₂, hfirst, hfile, hrest⟩ := fetchOver_split.mp hfetch
  obtain ⟨f₃, f₄, hmid, hpointer, hlast⟩ := fetchOver_split.mp hrest
  have hstub : f₁ file = some (contentAfter D run.transport file (front ++ [push]) bytes) := by
    rw [fetchOver_of_not_mem ha.1 ha.2 hfirst, hheld.content htracks, hpushes]
  have hsteady : run.Steady f₃ :=
    steady_fetchOver hfresh (steady_fetchFile hfresh
      (steady_fetchOver hfresh steady_after hfirst) hfile) hmid
  rw [fetch_pointer hfresh hpushes htracks hsteady] at hpointer
  rw [fetchOver_of_not_mem hc.1 hc.2 hlast, ← Except.ok.inj hpointer, Function.update_self]

/-- A file that is found after its pointer file has what the last push sealed, or what that
names. -/
theorem fetch_pointer_first (hfresh : run.FreshObjects) (hpushes : run.pushes = front ++ [push])
    (htracks : run.Tracks file bytes) (hbefore : run.Before (pointerPath file) file)
    (hfetch : run.fetchOver run.walk (run.after run.pushes).files = (left, true)) :
    ∃ files, files file = some (contentAfter D run.transport file front bytes) ∧
      ∃ next, fetchFile run.json run.transport (run.after run.pushes).blobs files file = .ok next ∧
        left file = next file := by
  obtain ⟨a, b, c, hwalk, ha, hb, hc⟩ :=
    exists_split run.isWalk.1 (mem_walk hfresh hpushes htracks).1 hbefore
  rw [hwalk] at hfetch
  obtain ⟨f₁, f₂, hfirst, hpointer, hrest⟩ := fetchOver_split.mp hfetch
  obtain ⟨f₃, f₄, hmid, hfile, hlast⟩ := fetchOver_split.mp hrest
  have hsteady : run.Steady f₁ := steady_fetchOver hfresh steady_after hfirst
  rw [fetch_pointer hfresh hpushes htracks hsteady] at hpointer
  refine ⟨f₃, ?_, f₄, hfile, fetchOver_of_not_mem hc.2 hc.1 hlast⟩
  rw [fetchOver_of_not_mem hb.2 hb.1 hmid, ← Except.ok.inj hpointer, Function.update_self]

end Fetch

/-! ### Which runs restore the files -/

section Restored

variable {run : LfsRun D} {front back : List LfsPush} {push : LfsPush} {files left : Files}
variable {file oid : String} {bytes : Bytes} {names : List String} {id : BlobId D}

/-- No contents that were there before are a stub of these pushes. -/
theorem contentAfter_ne (hfresh : run.FreshObjects) (hpushes : run.pushes = front ++ push :: back)
    (htracks : run.Tracks file bytes) :
    contentAfter D run.transport file (front ++ [push]) bytes ≠ bytes := by
  intro hsame
  rw [contentAfter, List.foldl_append] at hsame
  have hread : readPointer run.json bytes = some (pushedPointer D run.transport push file
      (contentAfter D run.transport file front bytes)).oid := by
    conv_lhs => rw [← hsame]
    exact readPointer_stub
  exact hfresh.unnamed htracks hread ⟨front, push, back, file, bytes, hpushes, htracks, rfl⟩
    fromHex_oid

theorem eq_nil_of_contentAfter (hfresh : run.FreshObjects) (hpushes : run.pushes = front ++ back)
    (htracks : run.Tracks file bytes)
    (hsame : contentAfter D run.transport file front bytes = bytes) : front = [] := by
  rcases List.eq_nil_or_concat' front with rfl | ⟨before, last, rfl⟩
  · rfl
  · rw [List.append_assoc] at hpushes
    exact absurd hsame (contentAfter_ne hfresh hpushes htracks)

/-- An object that original contents name was there before the pushes. -/
theorem getSealedObject_start (hfresh : run.FreshObjects) (htracks : run.Tracks file bytes)
    (hread : readPointer run.json bytes = some oid)
    (hid : BlobId.fromHex D (String.ofList (Trim.trim oid.toList)) = some id) :
    (run.after run.pushes).blobs.getSealedObject run.transport id =
      run.start.blobs.getSealedObject run.transport id := by
  have hheld := held hfresh (List.append_nil run.pushes).symm
  have hsame : (run.after run.pushes).blobs.files id = run.start.blobs.files id := by
    cases hstart : run.start.blobs.files id with
    | some ct => exact hheld.kept hstart
    | none =>
      cases hafter : (run.after run.pushes).blobs.files id with
      | none => rfl
      | some ct =>
        rcases hheld.blobs hafter with hold | huploaded
        · rw [hstart] at hold
          cases hold
        · rw [(run.after run.pushes).blobs.addressed hafter] at hid
          exact absurd hid (hfresh.unnamed htracks hread huploaded)
  rw [BlobFiles.getSealedObject, BlobFiles.getSealedObject, hsame]

theorem before_or_before (hfresh : run.FreshObjects) (hpushes : run.pushes = front ++ [push])
    (htracks : run.Tracks file bytes) :
    run.Before file (pointerPath file) ∨ run.Before (pointerPath file) file := by
  have hmem := mem_walk hfresh hpushes htracks
  have hne : file ≠ pointerPath file := (pointerPath_ne htracks.endsInName htracks.1).symm
  apply lt_or_gt_of_ne
  intro hsame
  exact hne ((List.idxOf_inj hmem.1).mp hsame)

/-- A tracked file that has its contents after the fetch is one that the fetch restores. -/
theorem restored_of_fetchOver (hfresh : run.FreshObjects) (htracks : run.Tracks file bytes)
    (hfetch : run.fetchOver run.walk (run.after run.pushes).files = (left, true))
    (hleft : left file = some bytes) : run.Restored file bytes := by
  obtain ⟨front, push, hpushes⟩ :=
    (List.eq_nil_or_concat' run.pushes).resolve_left run.pushes_ne_nil
  rcases before_or_before hfresh hpushes htracks with hbefore | hbefore
  · have hsame := fetch_file_first hfresh hpushes htracks hbefore hfetch
    rw [hleft, Option.some.injEq] at hsame
    obtain rfl := eq_nil_of_contentAfter hfresh hpushes htracks hsame.symm
    exact .inl ⟨congrArg List.length hpushes, .inl hbefore⟩
  · obtain ⟨files, hfile, next, hnext, hsame⟩ :=
      fetch_pointer_first hfresh hpushes htracks hbefore hfetch
    rw [hleft] at hsame
    rcases List.eq_nil_or_concat' front with rfl | ⟨before, last, rfl⟩
    · -- after one push, the file held its contents when it was read
      refine .inl ⟨congrArg List.length hpushes, .inr ?_⟩
      intro oid hread
      rcases fetchFile_eq_ok_iff.mp hnext with ⟨hnone, -⟩ | ⟨oid', id, y, hsome, hid, hget, rfl⟩
      · rw [hfile, Option.bind_some] at hnone
        exact absurd (hread.symm.trans hnone) (Option.some_ne_none _)
      · rw [hfile, Option.bind_some] at hsome
        obtain rfl := Option.some.inj (hread.symm.trans hsome)
        rw [outPath_eq_self htracks.1, Function.update_self, Option.some.injEq] at hsame
        rw [getSealedObject_start hfresh htracks hread hid, ← hsame] at hget
        exact ⟨id, hid, hget⟩
    · rw [List.append_assoc] at hpushes
      have hstub := fetch_stub hfresh hpushes htracks hfile
      rw [hnext, Except.ok.injEq] at hstub
      rw [hstub, Function.update_self, Option.some.injEq] at hsame
      obtain rfl := eq_nil_of_contentAfter hfresh hpushes htracks hsame.symm
      exact .inr ⟨congrArg List.length hpushes, hbefore⟩

theorem fetchFile_of_ne {other : String}
    (hfetch : fetchFile run.json run.transport (run.after run.pushes).blobs files other = .ok left)
    (hne : file ≠ outPath other) : left file = files file := by
  rcases fetchFile_eq_ok_iff.mp hfetch with ⟨-, rfl⟩ | ⟨oid, id, plaintext, -, -, -, rfl⟩
  · rfl
  · rw [Function.update_of_ne hne]

/-- A restored file whose pointer file is found first can be fetched once that is done, and then
has its contents. -/
theorem fetch_restored (hfresh : run.FreshObjects) (hpushes : run.pushes = front ++ [push])
    (htracks : run.Tracks file bytes) (hrestored : run.Restored file bytes)
    (hbefore : run.Before (pointerPath file) file)
    (hfile : files file = some (contentAfter D run.transport file front bytes)) :
    ∃ next, fetchFile run.json run.transport (run.after run.pushes).blobs files file = .ok next ∧
      next file = some bytes := by
  have hlength : run.pushes.length = front.length + 1 := by
    rw [hpushes, List.length_append, List.length_singleton]
  rcases hrestored with ⟨hone, hfirst | hback⟩ | ⟨htwo, -⟩
  · exact absurd hfirst (Nat.lt_asymm hbefore)
  · obtain rfl := List.length_eq_zero_iff.mp (by omega : front.length = 0)
    have hfile' : files file = some bytes := hfile
    cases hread : readPointer run.json bytes with
    | none =>
      refine ⟨files, fetchFile_eq_ok_iff.mpr (.inl ⟨?_, rfl⟩), hfile'⟩
      rw [hfile', Option.bind_some, hread]
    | some oid =>
      obtain ⟨id, hid, hget⟩ := hback oid hread
      refine ⟨Function.update files file (some bytes), fetchFile_eq_ok_iff.mpr (.inr ?_),
        Function.update_self ..⟩
      refine ⟨oid, id, bytes, ?_, hid, ?_, ?_⟩
      · rw [hfile', Option.bind_some, hread]
      · rw [getSealedObject_start hfresh htracks hread hid, hget]
      · rw [outPath_eq_self htracks.1]
  · obtain ⟨first, rfl⟩ := List.length_eq_one_iff.mp (by omega : front.length = 1)
    have hpushes' : run.pushes = [] ++ first :: [push] := hpushes
    exact ⟨_, fetch_stub hfresh hpushes' htracks hfile, Function.update_self ..⟩

/-- A file can be fetched that has its stub, or what its pointer file named. Of the other tracked
files this changes none but the one of a pointer file. -/
theorem exists_fetchFile {name : String} (hfresh : run.FreshObjects)
    (hpushes : run.pushes = front ++ [push])
    (hrestored : ∀ file bytes, run.Tracks file bytes → run.Restored file bytes)
    (hsteady : run.Steady files)
    (hready : ∀ bytes, run.Tracks name bytes →
      files name = some (contentAfter D run.transport name run.pushes bytes) ∨
        run.Before (pointerPath name) name ∧
          files name = some (contentAfter D run.transport name front bytes)) :
    ∃ next, fetchFile run.json run.transport (run.after run.pushes).blobs files name = .ok next ∧
      ∀ file bytes, run.Tracks file bytes → file ≠ name →
        next file = files file ∨ name = pointerPath file ∧
          next file = some (contentAfter D run.transport file front bytes) := by
  by_cases htracked : ∃ bytes, run.Tracks name bytes
  · obtain ⟨bytes, htracks⟩ := htracked
    have hfetch : ∃ next, fetchFile run.json run.transport (run.after run.pushes).blobs files
        name = .ok next := by
      rcases hready bytes htracks with hstub | ⟨hbefore, hfile⟩
      · rw [hpushes] at hstub
        exact ⟨_, fetch_stub hfresh hpushes htracks hstub⟩
      · obtain ⟨next, hfetch, -⟩ := fetch_restored hfresh hpushes htracks
          (hrestored name bytes htracks) hbefore hfile
        exact ⟨next, hfetch⟩
    obtain ⟨next, hfetch⟩ := hfetch
    refine ⟨next, hfetch, fun file bytes' _ hne => .inl (fetchFile_of_ne hfetch ?_)⟩
    rwa [outPath_eq_self htracks.1]
  · by_cases hpointer : ∃ tracked bytes, run.Tracks tracked bytes ∧ name = pointerPath tracked
    · obtain ⟨tracked, bytes, htracks, rfl⟩ := hpointer
      have hfetch := fetch_pointer hfresh hpushes htracks hsteady
      refine ⟨_, hfetch, fun file bytes' htracks' _ => ?_⟩
      by_cases hsame : file = tracked
      · subst hsame
        obtain rfl := Option.some.inj (htracks.2.symm.trans htracks'.2)
        exact .inr ⟨rfl, Function.update_self ..⟩
      · exact .inl (Function.update_of_ne hsame _ _)
    · -- what is neither tracked nor a pointer file names nothing
      have hother := fetch_other hfresh hsteady (fun bytes h => htracked ⟨bytes, h⟩)
        fun tracked bytes h heq => hpointer ⟨tracked, bytes, h, heq⟩
      exact ⟨files, fetchFile_eq_ok_iff.mpr (.inl ⟨hother, rfl⟩), fun _ _ _ _ => .inl rfl⟩

/-- The files that are left are fetched: each still has its stub, or has what its pointer file
named. -/
theorem exists_fetchOver {done rest : List String} (hfresh : run.FreshObjects)
    (hpushes : run.pushes = front ++ [push])
    (hrestored : ∀ file bytes, run.Tracks file bytes → run.Restored file bytes)
    (hwalk : run.walk = done ++ rest) (hsteady : run.Steady files)
    (hready : ∀ file bytes, run.Tracks file bytes → file ∈ rest →
      files file = some (contentAfter D run.transport file run.pushes bytes) ∨
        pointerPath file ∈ done ∧
          files file = some (contentAfter D run.transport file front bytes)) :
    ∃ left, run.fetchOver rest files = (left, true) := by
  induction rest generalizing done files with
  | nil => exact ⟨files, rfl⟩
  | cons name rest ih =>
    have hnext : run.walk = (done ++ [name]) ++ rest := by
      rw [hwalk, List.append_assoc]
      rfl
    have hnodup := run.isWalk.1
    rw [hwalk] at hnodup
    obtain ⟨-, hnotMem, hdisjoint⟩ := List.nodup_append.mp hnodup
    have hname : name ∉ rest := (List.nodup_cons.mp hnotMem).1
    obtain ⟨next, hfetch, hkeep⟩ := @exists_fetchFile _ _ _ _ _ run front push files name hfresh
      hpushes hrestored hsteady (by
        intro bytes htracks
        refine (hready name bytes htracks List.mem_cons_self).imp_right fun ⟨hpointer, hfile⟩ => ?_
        -- its pointer file has been fetched, and this one has not
        refine ⟨?_, hfile⟩
        have hdone : name ∉ done := fun hold => hdisjoint name hold name List.mem_cons_self rfl
        have hbound := List.idxOf_lt_length_iff.mpr hpointer
        rw [Before, hwalk, List.idxOf_append_of_mem hpointer, List.idxOf_append_of_notMem hdone]
        omega)
    obtain ⟨left, hleft⟩ := ih hnext (steady_fetchFile hfresh hsteady hfetch) (by
      intro file bytes htracks hfile
      rcases hkeep file bytes htracks (fun heq => hname (heq ▸ hfile)) with hsame | ⟨rfl, hwritten⟩
      · rw [hsame]
        refine (hready file bytes htracks (List.mem_cons_of_mem _ hfile)).imp_right ?_
        exact fun hold => ⟨List.mem_append_left _ hold.1, hold.2⟩
      · exact .inr ⟨List.mem_append_right _ (List.mem_singleton_self _), hwritten⟩)
    have hall : run.fetchOver ([] ++ name :: rest) files = (left, true) :=
      fetchOver_split.mpr ⟨files, next, rfl, hfetch, hleft⟩
    exact ⟨left, hall⟩

end Restored

/-- The fetch restores the tracked files exactly if it restores each by one of the two ways. -/
theorem inverse_iff (run : LfsRun D) (hfresh : run.FreshObjects) :
    run.Inverse ↔ ∀ file bytes, run.Tracks file bytes → run.Restored file bytes := by
  obtain ⟨front, push, hpushes⟩ :=
    (List.eq_nil_or_concat' run.pushes).resolve_left run.pushes_ne_nil
  constructor
  · rintro ⟨left, hfetch, hleft⟩ file bytes htracks
    exact restored_of_fetchOver hfresh htracks (tryAll_eq_ok_iff.mp hfetch)
      (hleft file bytes htracks)
  · intro hrestored
    have hheld := held hfresh (List.append_nil run.pushes).symm
    have hwalk : run.walk = [] ++ run.walk := rfl
    obtain ⟨left, hfetch⟩ := exists_fetchOver hfresh hpushes hrestored hwalk steady_after
      fun file bytes htracks _ => .inl (hheld.content htracks)
    refine ⟨left, tryAll_eq_ok_iff.mpr hfetch, fun file bytes htracks => ?_⟩
    -- the fetch comes to the file itself or to its pointer file first
    rcases before_or_before hfresh hpushes htracks with hbefore | hbefore
    · rw [fetch_file_first hfresh hpushes htracks hbefore hfetch]
      rcases hrestored file bytes htracks with ⟨hone, -⟩ | ⟨-, hpointer⟩
      · rw [hpushes, List.length_append, List.length_singleton] at hone
        obtain rfl := List.length_eq_zero_iff.mp (by omega : front.length = 0)
        rfl
      · exact absurd hpointer (Nat.lt_asymm hbefore)
    · obtain ⟨files, hfile, next, hnext, hsame⟩ :=
        fetch_pointer_first hfresh hpushes htracks hbefore hfetch
      obtain ⟨next', hnext', hrestore⟩ := fetch_restored hfresh hpushes htracks
        (hrestored file bytes htracks) hbefore hfile
      obtain rfl := Except.ok.inj (hnext.symm.trans hnext')
      rw [hsame, hrestore]

end LfsRun

/-! ### Two pushes -/

section Sample

attribute [local instance] leadingSha512 leadingDigestBytes transparentHash

/-- What precedes the identifier. -/
def jsonFront : List Char := "\x7b\n  \"version\": \"safehub-lfs-v1\",\n  \"oid\": \"".toList

/-- What stands between the identifier and the size. -/
def jsonMiddle : List Char := "\",\n  \"size\": ".toList

/-- The lines of a pointer. -/
theorem textLines_pretty {oid digits : List Char} (hoid : ∀ c ∈ oid, isWhitespace c = false)
    (hdigits : ∀ c ∈ digits, c.isDigit = true) :
    textLines (String.ofList (jsonFront ++ oid ++ jsonMiddle ++ digits ++ "\n\x7d".toList)) =
      ["\x7b".toList, "  \"version\": \"safehub-lfs-v1\",".toList,
        "  \"oid\": \"".toList ++ oid ++ "\",".toList, "  \"size\": ".toList ++ digits,
        "\x7d".toList] := by
  have hcut : ∀ line rest : List Char, '\n' ∉ line → '\r' ∉ line →
      textLines (String.ofList (line ++ '\n' :: rest)) =
        line :: textLines (String.ofList rest) := by
    intro line rest hnewline hreturn
    exact textLines_append (by rw [String.toList_ofList, String.toList_ofList]) hnewline hreturn
  have hfront : jsonFront = "\x7b".toList ++ '\n' ::
      ("  \"version\": \"safehub-lfs-v1\",".toList ++ '\n' :: "  \"oid\": \"".toList) := by
    decide
  have hmiddle : jsonMiddle = "\",".toList ++ '\n' :: "  \"size\": ".toList := by decide
  have hend : "\n\x7d".toList = '\n' :: "\x7d".toList := by decide
  have hlast : textLines (String.ofList "\x7d".toList) = ["\x7d".toList] := by decide
  -- the object is cut into its five lines
  have hlines : jsonFront ++ oid ++ jsonMiddle ++ digits ++ "\n\x7d".toList =
      "\x7b".toList ++ '\n' :: ("  \"version\": \"safehub-lfs-v1\",".toList ++ '\n' ::
        (("  \"oid\": \"".toList ++ oid ++ "\",".toList) ++ '\n' ::
          (("  \"size\": ".toList ++ digits) ++ '\n' :: "\x7d".toList))) := by
    rw [hfront, hmiddle, hend]
    simp only [List.append_assoc, List.cons_append]
  have hblank : ∀ c, isWhitespace c = true → c ∉ "  \"oid\": \"".toList → c ∉ "\",".toList →
      c ∉ "  \"oid\": \"".toList ++ oid ++ "\",".toList := by
    intro c hc hfirst hlast
    rw [List.mem_append, List.mem_append, not_or, not_or]
    refine ⟨⟨hfirst, fun hmem => ?_⟩, hlast⟩
    rw [hoid c hmem] at hc
    cases hc
  have hsize : ∀ c, c.isDigit = false → c ∉ "  \"size\": ".toList →
      c ∉ "  \"size\": ".toList ++ digits := by
    intro c hc hfirst
    rw [List.mem_append, not_or]
    refine ⟨hfirst, fun hmem => ?_⟩
    rw [hdigits c hmem] at hc
    cases hc
  rw [hlines, hcut _ _ (by decide) (by decide), hcut _ _ (by decide) (by decide),
    hcut _ _ (hblank _ (by decide) (by decide) (by decide))
      (hblank _ (by decide) (by decide) (by decide)),
    hcut _ _ (hsize _ (by decide) (by decide)) (hsize _ (by decide) (by decide)), hlast]

/-- Pointers in JSON, with two spaces of indentation. -/
def prettyJson : PointerJson where
  toStringPretty ptr := String.ofList (jsonFront ++ ptr.oid.toList ++ jsonMiddle ++
    Nat.toDigits 10 ptr.size.toNat ++ "\n\x7d".toList)
  fromStr text :=
    if jsonFront.isPrefixOf text.toList then
      let rest := text.toList.drop jsonFront.length
      let size := (rest.dropWhile (· ≠ '"')).drop jsonMiddle.length
      some ⟨"safehub-lfs-v1", String.ofList (rest.takeWhile (· ≠ '"')),
        UInt64.ofNat (Nat.ofDigitChars 10 (size.takeWhile Char.isDigit) 0)⟩
    else none
  fromStr_toStringPretty {ptr} h := by
    obtain ⟨version, oid, size⟩ := ptr
    obtain ⟨rfl, bytes, rfl⟩ := h
    have hoid : ∀ c ∈ (hexEncode bytes).toList, decide (c ≠ '"') = true := by
      intro c hc
      obtain ⟨n, hn, rfl⟩ := exists_of_mem_hexEncode hc
      have hdigits : ∀ n < 16, decide (Nat.digitChar n ≠ '"') = true := by decide
      exact hdigits n hn
    have hsize : ∀ c ∈ Nat.toDigits 10 size.toNat, c.isDigit = true :=
      fun c hc => Nat.isDigit_of_mem_toDigits (by decide) (by decide) hc
    have hmiddle : jsonMiddle = '"' :: jsonMiddle.drop 1 := rfl
    have hend : "\n\x7d".toList = ['\n', '\x7d'] := rfl
    rw [String.toList_ofList, List.append_assoc, List.append_assoc, List.append_assoc,
      if_pos (List.isPrefixOf_iff_prefix.mpr (List.prefix_append _ _)), List.drop_left]
    dsimp only
    rw [List.takeWhile_append_of_pos hoid, List.dropWhile_append_of_pos hoid, hmiddle,
      List.cons_append, List.takeWhile_cons_of_neg (by decide),
      List.dropWhile_cons_of_neg (by decide), ← List.cons_append, ← hmiddle, List.drop_left,
      List.takeWhile_append_of_pos hsize, hend, List.takeWhile_cons_of_neg (by decide),
      List.append_nil, List.append_nil, Nat.ofDigitChars_ten_toDigits, UInt64.ofNat_toNat,
      String.ofList_toList]
  not_oidMark {ptr line} h hline := by
    obtain ⟨version, oid, size⟩ := ptr
    obtain ⟨rfl, bytes, rfl⟩ := h
    -- no line begins with the first letter of the mark
    suffices hhead : ∃ c rest, line = c :: rest ∧ c ≠ 'o' by
      obtain ⟨c, rest, rfl, hc⟩ := hhead
      intro hprefix
      exact hc (List.cons_prefix_cons.mp hprefix).1.symm
    rw [textLines_pretty (isWhitespace_hexEncode bytes)
      fun c hc => Nat.isDigit_of_mem_toDigits (by decide) (by decide) hc] at hline
    simp only [List.mem_cons, List.not_mem_nil, or_false] at hline
    rcases hline with rfl | rfl | rfl | rfl | rfl
    · exact ⟨'\x7b', _, rfl, by decide⟩
    · exact ⟨' ', _, rfl, by decide⟩
    · exact ⟨' ', _, rfl, by decide⟩
    · exact ⟨' ', _, rfl, by decide⟩
    · exact ⟨'\x7d', _, rfl, by decide⟩

/-- A checkout with one file. -/
def binCheckout : LfsState Digest where
  files file := if file = "a.bin" then some (strBytes "data") else none
  blobs := ⟨fun _ => none, fun h => by cases h⟩

/-- A push that seals with one nonce. -/
def binPush (walk : List String) (k : UInt8) : LfsPush where
  walk := walk
  nonces _ := List.replicate 12 k
  length_nonces _ := List.length_replicate

/-- The order in which the stub is found before its pointer file. -/
def stubFirst : List String := ["a.bin", "a.bin.safehub-lfs"]

def pushBins (pushes : List LfsPush) : LfsState Digest :=
  pushAll prettyJson [] ["*.bin"] pushes binCheckout

theorem pushBins_one : ∃ x y, (pushBins [binPush ["a.bin"] 0]).files =
    Function.update (Function.update binCheckout.files "a.bin.safehub-lfs" (some x)) "a.bin"
      (some y) :=
  ⟨_, _, rfl⟩

theorem pushBins_two : ∃ x y x' y', (pushBins [binPush ["a.bin"] 0, binPush stubFirst 1]).files =
    Function.update (Function.update (Function.update (Function.update binCheckout.files
      "a.bin.safehub-lfs" (some x)) "a.bin" (some y)) "a.bin.safehub-lfs" (some x')) "a.bin"
      (some y') :=
  ⟨_, _, _, _, rfl⟩

theorem isWalk_stubFirst {files : Files} {x y : Bytes}
    (h : ∀ file, file ≠ "a.bin" → file ≠ "a.bin.safehub-lfs" → files file = none) :
    IsWalk (Function.update (Function.update files "a.bin.safehub-lfs" (some x)) "a.bin" (some y))
      stubFirst := by
  refine ⟨by decide, fun file => ?_⟩
  by_cases hbin : file = "a.bin"
  · subst hbin
    simp [stubFirst]
  · by_cases hpointer : file = "a.bin.safehub-lfs"
    · subst hpointer
      simp [stubFirst]
    · simp [stubFirst, hbin, hpointer, h]

theorem binCheckout_files {file : String} (h : file ≠ "a.bin") : binCheckout.files file = none :=
  if_neg h

theorem isWalk_binCheckout : IsWalk binCheckout.files ["a.bin"] := by
  refine ⟨by decide, fun file => ?_⟩
  by_cases hbin : file = "a.bin"
  · subst hbin
    simp [binCheckout]
  · simp [hbin, binCheckout_files]

/-- A run with the file, whose contents name nothing. -/
def binRun (pushes : List LfsPush) (hne : pushes ≠ [])
    (hwalks : ∀ front push back, pushes = front ++ push :: back →
      IsWalk (pushBins front).files push.walk)
    (hwalk : IsWalk (pushBins pushes).files stubFirst) : LfsRun Digest where
  json := prettyJson
  transport := []
  patterns := ["*.bin"]
  start := binCheckout
  endsInName {file} h := by
    by_cases hbin : file = "a.bin"
    · exact ⟨"a.bi".toList, 'n', by rw [hbin]; rfl, by decide⟩
    · exact absurd (binCheckout_files hbin) h
  passed {file bytes} hfile htracked _ := by
    by_cases hbin : file = "a.bin"
    · subst hbin
      exact absurd htracked (by decide)
    · rw [binCheckout_files hbin] at hfile
      cases hfile
  pushes := pushes
  pushes_ne_nil := hne
  walks {front back push} := hwalks front push back
  walk := stubFirst
  isWalk := hwalk

/-- One push. -/
def oneBinPush : LfsRun Digest :=
  binRun [binPush ["a.bin"] 0] (List.cons_ne_nil _ _)
    (by
      intro front push back h
      cases front with
      | nil =>
        obtain ⟨rfl, -⟩ := List.cons.inj h
        exact isWalk_binCheckout
      | cons first front => simp at h)
    (by
      obtain ⟨x, y, hfiles⟩ := pushBins_one
      rw [hfiles]
      exact isWalk_stubFirst fun file hbin _ => binCheckout_files hbin)

/-- Two pushes. -/
def twoBinPushes : LfsRun Digest :=
  binRun [binPush ["a.bin"] 0, binPush stubFirst 1] (List.cons_ne_nil _ _)
    (by
      intro front push back h
      match front with
      | [] =>
        obtain ⟨rfl, -⟩ := List.cons.inj h
        exact isWalk_binCheckout
      | [first] =>
        obtain ⟨rfl, htail⟩ := List.cons.inj h
        obtain ⟨rfl, -⟩ := List.cons.inj htail
        obtain ⟨x, y, hfiles⟩ := pushBins_one
        rw [hfiles]
        exact isWalk_stubFirst fun file hbin _ => binCheckout_files hbin
      | _ :: _ :: front => simp at h)
    (by
      obtain ⟨x, y, x', y', hfiles⟩ := pushBins_two
      rw [hfiles]
      refine isWalk_stubFirst fun file hbin hpointer => ?_
      rw [Function.update_of_ne hbin, Function.update_of_ne hpointer, binCheckout_files hbin])

theorem tracks_binRun {pushes : List LfsPush} {hne hwalks hwalk} {file : String} {bytes : Bytes}
    (h : (binRun pushes hne hwalks hwalk).Tracks file bytes) :
    file = "a.bin" ∧ bytes = strBytes "data" := by
  obtain ⟨-, hfile⟩ := h
  by_cases hbin : file = "a.bin"
  · subst hbin
    exact ⟨rfl, (Option.some.inj hfile).symm⟩
  · exact absurd (hfile.symm.trans (binCheckout_files hbin)) (Option.some_ne_none _)

/-- The contents of the file name nothing. -/
theorem readPointer_data : readPointer prettyJson (strBytes "data") = none := by
  decide +kernel

/-- Objects whose digests are different are fresh here. -/
theorem freshObjects_binRun {pushes : List LfsPush} {hne hwalks hwalk}
    (hideal : ∀ front push back front' push' back', pushes = front ++ push :: back →
      pushes = front' ++ push' :: back' →
      objectId Digest [] push "a.bin" (contentAfter Digest [] "a.bin" front (strBytes "data")) =
        objectId Digest [] push' "a.bin" (contentAfter Digest [] "a.bin" front' (strBytes "data")) →
      push = push' ∧ front = front') :
    (binRun pushes hne hwalks hwalk).FreshObjects where
  ideal := by
    rintro ct (⟨front, push, back, file, bytes, hsplit, htracks, rfl⟩ | ⟨id, hid⟩) ct'
      (⟨front', push', back', file', bytes', hsplit', htracks', rfl⟩ | ⟨id', hid'⟩) hdigest
    · obtain ⟨rfl, rfl⟩ := tracks_binRun htracks
      obtain ⟨rfl, rfl⟩ := tracks_binRun htracks'
      obtain ⟨rfl, rfl⟩ := hideal _ _ _ _ _ _ hsplit hsplit' hdigest
      rfl
    · cases hid'
    · cases hid
    · cases hid
  unnamed {file oid bytes ct} htracks hread := by
    obtain ⟨rfl, rfl⟩ := tracks_binRun htracks
    cases hread.symm.trans readPointer_data

/-- The digest of an object begins with the nonce. -/
theorem objectId_binPush {walk walk' : List String} {k k' : UInt8} {bytes bytes' : Bytes}
    (h : objectId Digest [] (binPush walk k) "a.bin" bytes =
      objectId Digest [] (binPush walk' k') "a.bin" bytes') : k = k' := by
  have hhead : ∀ (walk : List String) (k : UInt8) (bytes : Bytes),
      (objectId Digest [] (binPush walk k) "a.bin" bytes)[0] = k := by
    intro walk k bytes
    change (byteArray 64 (sealObject [] bytes (List.replicate 12 k)))[0] = k
    rw [byteArray, Vector.getElem_ofFn]
    rfl
  rw [← hhead walk k bytes, h, hhead]

theorem freshObjects_oneBinPush : oneBinPush.FreshObjects := by
  apply freshObjects_binRun
  have hsplit : ∀ front push back, [binPush ["a.bin"] 0] = front ++ push :: back →
      push = binPush ["a.bin"] 0 ∧ front = [] := by
    intro front push back h
    cases front with
    | nil => exact ⟨(List.cons.inj h).1.symm, rfl⟩
    | cons first front => simp at h
  intro front push back front' push' back' h h' _
  obtain ⟨rfl, rfl⟩ := hsplit _ _ _ h
  obtain ⟨rfl, rfl⟩ := hsplit _ _ _ h'
  exact ⟨rfl, rfl⟩

theorem freshObjects_twoBinPushes : twoBinPushes.FreshObjects := by
  apply freshObjects_binRun
  have hsplit : ∀ front push back,
      [binPush ["a.bin"] 0, binPush stubFirst 1] = front ++ push :: back →
        push = binPush ["a.bin"] 0 ∧ front = [] ∨
          push = binPush stubFirst 1 ∧ front = [binPush ["a.bin"] 0] := by
    intro front push back h
    match front with
    | [] => exact .inl ⟨(List.cons.inj h).1.symm, rfl⟩
    | [first] =>
      obtain ⟨rfl, htail⟩ := List.cons.inj h
      exact .inr ⟨(List.cons.inj htail).1.symm, rfl⟩
    | _ :: _ :: front => simp at h
  intro front push back front' push' back' h h' hid
  rcases hsplit _ _ _ h with ⟨rfl, rfl⟩ | ⟨rfl, rfl⟩
  · rcases hsplit _ _ _ h' with ⟨rfl, rfl⟩ | ⟨rfl, rfl⟩
    · exact ⟨rfl, rfl⟩
    · exact absurd (objectId_binPush hid) (by decide)
  · rcases hsplit _ _ _ h' with ⟨rfl, rfl⟩ | ⟨rfl, rfl⟩
    · exact absurd (objectId_binPush hid) (by decide)
    · exact ⟨rfl, rfl⟩

/-- After one push, contents that name nothing are restored. -/
theorem inverse_oneBinPush : oneBinPush.FreshObjects ∧ oneBinPush.Inverse := by
  refine ⟨freshObjects_oneBinPush, (LfsRun.inverse_iff _ freshObjects_oneBinPush).mpr ?_⟩
  intro file bytes htracks
  obtain ⟨rfl, rfl⟩ := tracks_binRun htracks
  refine .inl ⟨rfl, .inr fun oid hread => ?_⟩
  cases hread.symm.trans readPointer_data

/-- The second push has sealed the stub of the first. -/
theorem not_inverse_twoBinPushes : ¬ twoBinPushes.Inverse := by
  rintro ⟨files, hfetch, hfiles⟩
  have htracks : twoBinPushes.Tracks "a.bin" (strBytes "data") := ⟨by decide, rfl⟩
  rcases LfsRun.restored_of_fetchOver freshObjects_twoBinPushes htracks
    (tryAll_eq_ok_iff.mp hfetch) (hfiles _ _ htracks) with ⟨hone, -⟩ | ⟨-, hbefore⟩
  · cases hone
  · have hlater : ¬ stubFirst.idxOf "a.bin.safehub-lfs" < stubFirst.idxOf "a.bin" := by decide
    exact hlater hbefore

end Sample

end SafeHub
