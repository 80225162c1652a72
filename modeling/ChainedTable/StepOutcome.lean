/-!
# ChainedTable.StepOutcome

What one density step did to the bucket array.

Density steps are best effort: a resize whose new bucket array could not be
had is abandoned. The table is then valid at its old size, and the operation
that took the step does not fail.
-/

namespace ChainedTable

/-- Outcome of one density step, in bucket counts. -/
inductive StepOutcome where
  /-- The density is inside its band, or there is no level to move to. -/
  | steady
  /-- The bucket array became larger. -/
  | grew (before after : Nat)
  /-- The bucket array became smaller. -/
  | shrank (before after : Nat)
  /-- A resize was called for, and its bucket array was refused. -/
  | abandoned (before wanted : Nat)
deriving DecidableEq, Repr

/-- Whether the bucket array was replaced. -/
def StepOutcome.resized : StepOutcome → Bool
  | steady | abandoned _ _ => false
  | grew _ _ | shrank _ _ => true

end ChainedTable
