import SafeHub.Lib.Paths

/-!
# Paths of repository records

The host keeps the directory record of a repository under `repos/{owner}/` and its members under
`membership/{owner}/`. The owner is a registered username and the name is the one in the request;
both become parts of the paths as they are. What the file system refuses (a missing directory, a
name it does not allow) is left out.

## Main definitions

* `register` — which usernames are accepted
* `directoryPath`, `membersPath` — the paths of the two records
* `Isolated` — two repositories keep to their owners' trees and share no path
* `place` — where the records are below the owner's directories, if they are

## Main results

* `inOwnTree_iff` — a repository keeps to its owner's trees exactly when it has a place
* `isolated_iff` — which repositories are isolated from each other
* `isolated_of_plain` — names without separators are enough
-/

namespace SafeHub

open Paths

/-- Why an account is not created. -/
inductive AuthError
  | badRequest (message : String)
  | conflict (message : String)
  deriving DecidableEq, Repr

/-- The usernames after a registration. -/
def register (users : List String) (username password : String) :
    Except AuthError (List String) :=
  if username = "" ∨ password = "" then .error (.badRequest "user and password required")
  else if username ∈ users then .error (.conflict "user already exists")
  else .ok (username :: users)

/-- A repository by its owner and its name. -/
structure RepoName where
  owner : String
  name : String
  deriving DecidableEq, Repr

/-- The directory that the host keeps its files in. -/
structure DataRoot where
  path : List String
  noSeparator : ∀ piece ∈ path, '/' ∉ piece.toList

/-- The path of a record of a repository in one of the host's directories. -/
def recordPath (data : DataRoot) (top : String) (r : RepoName) : List String :=
  join (join (join data.path top) r.owner) (r.name ++ ".json")

/-- The path of the directory record. -/
def directoryPath (data : DataRoot) (r : RepoName) : List String := recordPath data "repos" r

/-- The path of the members record. -/
def membersPath (data : DataRoot) (r : RepoName) : List String := recordPath data "membership" r

/-- The places that creating a repository writes its two records to. -/
def recordPlaces (data : DataRoot) (r : RepoName) : List (List String) :=
  [resolve (directoryPath data r), resolve (membersPath data r)]

/-- Both records are in the directories of the owner. -/
def InOwnTree (data : DataRoot) (r : RepoName) : Prop :=
  Below (resolve data.path ++ ["repos", r.owner]) (resolve (directoryPath data r)) ∧
    Below (resolve data.path ++ ["membership", r.owner]) (resolve (membersPath data r))

/-- Two repositories keep to their owners' directories, and share no path unless they are one. -/
def Isolated (data : DataRoot) (r r' : RepoName) : Prop :=
  InOwnTree data r ∧ InOwnTree data r' ∧
    (r ≠ r' → ∀ path ∈ recordPlaces data r, path ∉ recordPlaces data r')

/-- Where the records of a repository are below the directories of its owner: the owner is a plain
name, and the repository's name, taken as a relative path, stays below the owner's directory or
comes back to it without going above the directory of all owners. -/
def place (r : RepoName) : Option (List String) :=
  if Plain r.owner ∧ ¬ IsAbsolute (r.name ++ ".json") then
    match walkWithin [r.owner] (pieces (r.name ++ ".json")) with
    | .ok (owner :: rest) => if owner = r.owner ∧ rest ≠ [] then some rest else none
    | _ => none
  else none

variable {data : DataRoot} {r r' : RepoName} {top : String} {rest rest' : List String}

/-- Where a record is, for a plain owner. -/
theorem resolve_recordPath (htop : Plain top) (howner : Plain r.owner) :
    resolve (recordPath data top r) =
      if IsAbsolute (r.name ++ ".json") then walk [] (pieces (r.name ++ ".json"))
      else
        match walkWithin [r.owner] (pieces (r.name ++ ".json")) with
        | .ok dir => resolve data.path ++ [top] ++ dir
        | .error rest => walk (resolve data.path) rest := by
  rw [recordPath, resolve_join]
  split_ifs
  · rfl
  · rw [resolve_join_plain howner, resolve_join_plain htop]
    refine (walk_append _ _ _).trans ?_
    cases walkWithin [r.owner] (pieces (r.name ++ ".json")) with
    | ok dir => rfl
    | error rest => exact congrArg (walk · rest) List.dropLast_concat

theorem place_eq_some_iff : place r = some rest ↔ Plain r.owner ∧
    ¬ IsAbsolute (r.name ++ ".json") ∧ rest ≠ [] ∧
      walkWithin [r.owner] (pieces (r.name ++ ".json")) = .ok (r.owner :: rest) := by
  rw [place]
  split_ifs with hplain
  · rw [and_iff_right hplain.1, and_iff_right hplain.2]
    cases walkWithin [r.owner] (pieces (r.name ++ ".json")) with
    | error left => simp
    | ok dir =>
      cases dir with
      | nil => simp
      | cons owner below =>
        rw [Except.ok.injEq, List.cons.injEq]
        dsimp only
        split_ifs with hbelow
        · rw [Option.some_inj]
          constructor
          · rintro rfl
            exact ⟨hbelow.2, hbelow.1, rfl⟩
          · exact fun h => h.2.2
        · refine iff_of_false (by simp) fun h => hbelow ⟨h.2.1, ?_⟩
          rw [h.2.2]
          exact h.1
  · exact iff_of_false (by simp) fun h => hplain ⟨h.1, h.2.1⟩

/-- The two records of a repository that has a place. -/
theorem recordPlaces_of_place (data : DataRoot) (h : place r = some rest) :
    resolve (directoryPath data r) = resolve data.path ++ ["repos", r.owner] ++ rest ∧
      resolve (membersPath data r) = resolve data.path ++ ["membership", r.owner] ++ rest := by
  obtain ⟨howner, hrelative, -, hwalk⟩ := place_eq_some_iff.mp h
  constructor
  · rw [directoryPath, resolve_recordPath (by decide) howner, if_neg hrelative, hwalk]
    simp
  · rw [membersPath, resolve_recordPath (by decide) howner, if_neg hrelative, hwalk]
    simp

/-- A path is not below entries of one directory that have different names. -/
theorem not_below_of_ne {dir path : List String} {top top' owner : String} (hne : top ≠ top')
    (h : Below (dir ++ [top, owner]) path) : ¬ Below (dir ++ [top', owner]) path := by
  rintro ⟨rest', -, heq'⟩
  obtain ⟨rest, -, heq⟩ := h
  rw [heq, List.append_assoc, List.append_assoc] at heq'
  exact hne (List.cons.inj (List.append_cancel_left heq')).1

/-- A repository keeps to its owner's directories exactly when it has a place there. -/
theorem inOwnTree_iff : InOwnTree data r ↔ ∃ rest, place r = some rest := by
  constructor
  · rintro ⟨hdirectory, hmembers⟩
    have hseparator : ∀ piece ∈ directoryPath data r, '/' ∉ piece.toList :=
      not_mem_of_mem_join (not_mem_of_mem_join (not_mem_of_mem_join data.noSeparator))
    -- the owner is a piece of a resolved path
    have howner : Plain r.owner := by
      refine plain_of_mem_resolve hseparator r.owner ?_
      rw [List.append_cons] at hdirectory
      exact hdirectory.mem
    rw [directoryPath, resolve_recordPath (by decide) howner] at hdirectory
    rw [membersPath, resolve_recordPath (by decide) howner] at hmembers
    split_ifs at hdirectory hmembers with habsolute
    · exact absurd hmembers (not_below_of_ne (by decide) hdirectory)
    · cases hwalk : walkWithin [r.owner] (pieces (r.name ++ ".json")) with
      | error left =>
        -- above the directory of all owners both records go to the same place
        rw [hwalk] at hdirectory hmembers
        exact absurd hmembers (not_below_of_ne (by decide) hdirectory)
      | ok dir =>
        rw [hwalk] at hdirectory
        obtain ⟨rest, hne, heq⟩ := hdirectory
        dsimp only at heq
        refine ⟨rest, place_eq_some_iff.mpr ⟨howner, habsolute, hne, ?_⟩⟩
        rw [hwalk, Except.ok.injEq]
        rw [List.append_assoc, List.append_assoc] at heq
        exact (List.cons.inj (List.append_cancel_left heq)).2
  · rintro ⟨rest, hplace⟩
    obtain ⟨hdirectory, hmembers⟩ := recordPlaces_of_place data hplace
    have hne := (place_eq_some_iff.mp hplace).2.2.1
    exact ⟨⟨rest, hne, hdirectory⟩, rest, hne, hmembers⟩

/-- Two repositories are isolated exactly when each has a place below the directories of its
owner, and the places differ if they are different repositories of one owner. -/
theorem isolated_iff :
    Isolated data r r' ↔ ∃ rest rest', place r = some rest ∧ place r' = some rest' ∧
      (r.owner = r'.owner → r.name ≠ r'.name → rest ≠ rest') := by
  constructor
  · rintro ⟨htree, htree', hdisjoint⟩
    obtain ⟨rest, hplace⟩ := inOwnTree_iff.mp htree
    obtain ⟨rest', hplace'⟩ := inOwnTree_iff.mp htree'
    refine ⟨rest, rest', hplace, hplace', fun howner hname heq => ?_⟩
    obtain ⟨hdirectory, -⟩ := recordPlaces_of_place data hplace
    obtain ⟨hdirectory', -⟩ := recordPlaces_of_place data hplace'
    -- the directory records are at one path
    refine hdisjoint (fun hsame => hname (congrArg RepoName.name hsame)) _ List.mem_cons_self ?_
    rw [hdirectory, howner, heq, ← hdirectory']
    exact List.mem_cons_self
  · rintro ⟨rest, rest', hplace, hplace', hdiffer⟩
    refine ⟨inOwnTree_iff.mpr ⟨rest, hplace⟩, inOwnTree_iff.mpr ⟨rest', hplace'⟩, ?_⟩
    obtain ⟨hdirectory, hmembers⟩ := recordPlaces_of_place data hplace
    obtain ⟨hdirectory', hmembers'⟩ := recordPlaces_of_place data hplace'
    have hdistinct : ∀ top top' : String, r ≠ r' →
        resolve data.path ++ [top, r.owner] ++ rest ≠
          resolve data.path ++ [top', r'.owner] ++ rest' := by
      intro top top' hne heq
      rw [List.append_assoc, List.append_assoc] at heq
      obtain ⟨-, htail⟩ := List.cons.inj (List.append_cancel_left heq)
      obtain ⟨howner, hrest⟩ := List.cons.inj htail
      refine hdiffer howner (fun hname => hne ?_) hrest
      cases r
      cases r'
      rw [RepoName.mk.injEq]
      exact ⟨howner, hname⟩
    intro hne path hpath hpath'
    rw [recordPlaces, hdirectory, hmembers, List.mem_pair] at hpath
    rw [recordPlaces, hdirectory', hmembers', List.mem_pair] at hpath'
    rcases hpath with rfl | rfl
    · exact hpath'.elim (hdistinct _ _ hne) (hdistinct _ _ hne)
    · exact hpath'.elim (hdistinct _ _ hne) (hdistinct _ _ hne)

/-! ### Names without separators -/

theorem place_of_plain (howner : Plain r.owner) (hname : '/' ∉ r.name.toList) :
    place r = some [r.name ++ ".json"] := by
  have hfile : Plain (r.name ++ ".json") := plain_append hname (by decide) (by decide)
  refine place_eq_some_iff.mpr ⟨howner, not_isAbsolute hfile.2.2.2, List.cons_ne_nil _ _, ?_⟩
  rw [pieces_eq_singleton hfile.2.2.2, walkWithin,
    if_neg (not_or.mpr ⟨hfile.1, hfile.2.1⟩), if_neg hfile.2.2.1]
  rfl

/-- Repositories of plain usernames whose names have no separators are isolated. -/
theorem isolated_of_plain (howner : Plain r.owner) (howner' : Plain r'.owner)
    (hname : '/' ∉ r.name.toList) (hname' : '/' ∉ r'.name.toList) : Isolated data r r' := by
  refine isolated_iff.mpr ⟨_, _, place_of_plain howner hname, place_of_plain howner' hname', ?_⟩
  intro _ hne heq
  have htext := congrArg String.toList (List.cons.inj heq).1
  rw [String.toList_append, String.toList_append] at htext
  exact hne (String.toList_inj.mp (List.append_cancel_right htext))

section Sample

/-- The data directory of a host. -/
def sampleRoot : DataRoot := ⟨["data"], by decide⟩

/-- A username that is accepted, and a name that leads to another owner's records. -/
theorem not_isolated_climbing :
    register ["victim"] "mallory" "password" = .ok ["mallory", "victim"] ∧
      recordPlaces sampleRoot ⟨"mallory", "../victim/notes"⟩ =
        recordPlaces sampleRoot ⟨"victim", "notes"⟩ ∧
      ¬ Isolated sampleRoot ⟨"mallory", "../victim/notes"⟩ ⟨"victim", "notes"⟩ := by
  refine ⟨by decide, by decide, fun h => ?_⟩
  obtain ⟨rest, -, hplace, -⟩ := isolated_iff.mp h
  exact absurd hplace (by rw [show place _ = none by decide]; simp)

end Sample

end SafeHub
