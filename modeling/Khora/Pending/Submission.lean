import Mathlib.Data.Nat.Notation

/-!
# The statuses of staged documents

What `submit_batch` does with a document that is already stored, by its status.
-/

namespace Khora

/-! ## Staging -/

/-- `DocumentStatus` -/
inductive DocumentStatus where
  | pending
  | processing
  | completed
  | failed
  | archived
deriving DecidableEq, Repr

/-- What `submit_batch` does with a document that is already stored. -/
inductive Route where
  /-- reported as skipped -/
  | skip
  /-- reset to PENDING and queued; `clears` is set if its partial output is to be removed -/
  | requeue (clears : Bool)
deriving DecidableEq, Repr

def route (reprocessArchived : Bool) : DocumentStatus → Route
  | .completed => .skip
  | .processing => .skip
  | .archived => if reprocessArchived then .requeue true else .skip
  | .failed => .requeue true
  | .pending => .requeue false

end Khora
