import SafeHub.Lib.Paths
import SafeHub.Lib.FixedWidth
import Mathlib.Data.List.AList

/-!
# File trees

Directories and files by their resolved paths. A path is followed one piece at a time through
directories that are there; creating directories makes those that are missing; a file is written
in a directory that is there and not in place of a directory. A directory lists its entries in
any order.

## Main definitions

* `FileTree`, `followDirs`, `makeDirs` — directories
* `target`, `writeFile` — writing a file
* `entries`, `pathExists` — what a directory lists, and whether a path leads to anything

## Main results

* `makeDirs_join_plain` — making an entry of a directory that is there
* `target_join_plain` — where a write to a plain name goes
* `followDirs_insert` — what stays in reach when something is written
-/

namespace Paths

/-- A directory or a file. -/
inductive Node
  | dir
  | file (bytes : Bytes)
  deriving DecidableEq, Repr

/-- What there is at each resolved path below the root. -/
abbrev FileTree := AList fun _ : List String => Node

namespace FileTree

/-- Whether there is a directory at a resolved path. -/
def IsDir (tree : FileTree) (path : List String) : Prop :=
  path = [] ∨ tree.lookup path = some .dir

instance (tree : FileTree) (path : List String) : Decidable (tree.IsDir path) :=
  inferInstanceAs (Decidable (_ ∨ _))

/-- Follow pieces from a directory through directories. -/
def followDirs (tree : FileTree) : (dir path : List String) → Option (List String)
  | dir, [] => some dir
  | dir, piece :: rest =>
    if tree.IsDir (enter dir piece) then followDirs tree (enter dir piece) rest else none

/-- Make the directories of a path that are missing; nothing is made below a file. -/
def makeDirs (tree : FileTree) : (dir path : List String) → FileTree × Option (List String)
  | dir, [] => (tree, some dir)
  | dir, piece :: rest =>
    if tree.IsDir (enter dir piece) then makeDirs tree (enter dir piece) rest
    else if (tree.lookup (enter dir piece)).isSome then (tree, none)
    else makeDirs (tree.insert (enter dir piece) .dir) (enter dir piece) rest

/-- Where the last piece of a path is, if the directories on the way are there. -/
def location (tree : FileTree) (path : List String) : Option (List String) :=
  (tree.followDirs [] path.dropLast).map fun dir => enter dir (path.getLastD "")

/-- Where a write to a path goes, unless it is refused. -/
def target (tree : FileTree) (path : List String) : Option (List String) :=
  (tree.location path).filter fun place => ¬ tree.IsDir place

/-- Write a file. -/
def writeFile (tree : FileTree) (path : List String) (bytes : Bytes) : Option FileTree :=
  (tree.target path).map fun place => tree.insert place (.file bytes)

/-- Whether a path leads to a directory or a file. -/
def pathExists (tree : FileTree) (path : List String) : Bool :=
  (tree.location path).any fun place => tree.IsDir place ∨ (tree.lookup place).isSome

/-- The name of a path as an entry of a directory. -/
def entryName (dir path : List String) : Option String :=
  path.getLast?.filter fun _ => path.dropLast = dir

/-- The names of a directory's entries. -/
def entries (tree : FileTree) (dir : List String) : List String :=
  tree.keys.filterMap (entryName dir)

variable {tree : FileTree} {dir path more place : List String} {name : String} {node : Node}

/-! ### Following and making directories -/

theorem followDirs_append : tree.followDirs dir (path ++ more) =
    (tree.followDirs dir path).bind fun dir => tree.followDirs dir more := by
  induction path generalizing dir with
  | nil => rfl
  | cons piece rest ih =>
    rw [List.cons_append, followDirs, followDirs]
    split_ifs
    · exact ih
    · rfl

/-- Pieces that are there are followed before the others are made. -/
theorem makeDirs_append (h : tree.followDirs dir path = some place) :
    tree.makeDirs dir (path ++ more) = tree.makeDirs place more := by
  induction path generalizing dir with
  | nil =>
    obtain rfl := Option.some.inj h
    rfl
  | cons piece rest ih =>
    rw [followDirs] at h
    split_ifs at h with hdir
    rw [List.cons_append, makeDirs, if_pos hdir]
    exact ih h

/-- A plain name of a directory that is there. -/
theorem followDirs_join_plain (h : tree.followDirs [] path = some dir) (hname : Plain name) :
    tree.followDirs [] (join path name) =
      if tree.IsDir (dir ++ [name]) then some (dir ++ [name]) else none := by
  have henter : enter dir name = dir ++ [name] := walk_singleton hname
  rw [join, if_neg (not_isAbsolute hname.2.2.2), pieces_eq_singleton hname.2.2.2,
    followDirs_append, h, Option.bind_some, followDirs, henter]
  rfl

/-- Making a plain name of a directory that is there. -/
theorem makeDirs_join_plain (h : tree.followDirs [] path = some dir) (hname : Plain name) :
    tree.makeDirs [] (join path name) =
      if tree.IsDir (dir ++ [name]) then (tree, some (dir ++ [name]))
      else if (tree.lookup (dir ++ [name])).isSome then (tree, none)
      else (tree.insert (dir ++ [name]) .dir, some (dir ++ [name])) := by
  have henter : enter dir name = dir ++ [name] := walk_singleton hname
  rw [join, if_neg (not_isAbsolute hname.2.2.2), pieces_eq_singleton hname.2.2.2,
    makeDirs_append h, makeDirs, henter]
  rfl

/-- Writing under a plain name to a directory that is there. -/
theorem target_join_plain (h : tree.followDirs [] path = some dir) (hname : Plain name) :
    tree.target (join path name) =
      if tree.IsDir (dir ++ [name]) then none else some (dir ++ [name]) := by
  have henter : enter dir name = dir ++ [name] := walk_singleton hname
  rw [target, location, join, if_neg (not_isAbsolute hname.2.2.2),
    pieces_eq_singleton hname.2.2.2, List.dropLast_concat, h, Option.map_some,
    List.getLastD_concat, henter]
  by_cases hdir : tree.IsDir (dir ++ [name])
  · rw [if_pos hdir, Option.filter_some, if_neg (by simpa using hdir)]
  · rw [if_neg hdir, Option.filter_some, if_pos (by simpa using hdir)]

/-- Whether there is anything under a plain name of a directory that is there. -/
theorem pathExists_join_plain (h : tree.followDirs [] path = some dir) (hname : Plain name) :
    tree.pathExists (join path name) =
      decide (tree.IsDir (dir ++ [name]) ∨ (tree.lookup (dir ++ [name])).isSome) := by
  have henter : enter dir name = dir ++ [name] := walk_singleton hname
  rw [pathExists, location, join, if_neg (not_isAbsolute hname.2.2.2),
    pieces_eq_singleton hname.2.2.2, List.dropLast_concat, h, Option.map_some,
    List.getLastD_concat, henter, Option.any_some]

/-- Every directory but the root has an entry. -/
theorem isDir_append_cons_iff : tree.IsDir (dir ++ name :: more) ↔
    tree.lookup (dir ++ name :: more) = some .dir :=
  or_iff_right (by simp)

/-- Directories stay, unless a file is written in their place. -/
theorem IsDir.insert (h : tree.IsDir path) (hplace : node = .dir ∨ ¬ tree.IsDir place) :
    IsDir (tree.insert place node) path := by
  rcases h with rfl | h
  · exact .inl rfl
  · refine .inr ?_
    by_cases heq : path = place
    · subst heq
      rw [AList.lookup_insert, hplace.resolve_right (not_not.mpr (.inr h))]
    · rw [AList.lookup_insert_ne heq, h]

/-- What is in reach stays in reach. -/
theorem followDirs_insert (h : tree.followDirs dir path = some more)
    (hplace : node = .dir ∨ ¬ tree.IsDir place) :
    followDirs (tree.insert place node) dir path = some more := by
  induction path generalizing dir with
  | nil => exact h
  | cons piece rest ih =>
    rw [followDirs] at h ⊢
    split_ifs at h with hdir
    rw [if_pos (hdir.insert hplace)]
    exact ih h

/-! ### Listing a directory -/

theorem entryName_eq_some_iff : entryName dir path = some name ↔ path = dir ++ [name] := by
  rw [entryName, Option.filter_eq_some_iff, List.getLast?_eq_some_iff, decide_eq_true_iff]
  constructor
  · rintro ⟨⟨front, rfl⟩, hdir⟩
    rw [List.dropLast_concat] at hdir
    rw [hdir]
  · rintro rfl
    exact ⟨⟨dir, rfl⟩, List.dropLast_concat⟩

/-- A directory lists the names that there is something at. -/
theorem mem_entries_iff :
    name ∈ tree.entries dir ↔ ∃ node, tree.lookup (dir ++ [name]) = some node := by
  rw [entries, List.mem_filterMap, ← Option.isSome_iff_exists, AList.lookup_isSome,
    AList.mem_keys]
  simp only [entryName_eq_some_iff]
  exact ⟨fun ⟨_, hpath, heq⟩ => heq ▸ hpath, fun h => ⟨_, h, rfl⟩⟩

theorem nodup_entries : (tree.entries dir).Nodup := by
  refine tree.keys_nodup.filterMap fun path other name hpath hother => ?_
  rw [entryName_eq_some_iff.mp hpath, entryName_eq_some_iff.mp hother]

end FileTree

end Paths
