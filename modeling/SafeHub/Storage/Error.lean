import SafeHub.Types.RefHead

/-!
# Storage errors
-/

namespace SafeHub

/-- Persistence and compare-and-swap failures. -/
inductive StorageError (D : Type)
  /-- Blob missing. -/
  | notFound (id : String)
  /-- Compare-and-swap lost the race; `expected` is the hash to build on. -/
  | casConflict (expected : HeadHash D)
  | io
  | serde
  | other (message : String)
  /-- The request's task panicked. -/
  | panicked (message : String)
  deriving DecidableEq, Repr

end SafeHub
