/-!
# ChainedTable.Failure

Why an operation of the table can fail.

There are two kinds of failure:

1. storage could not be had, for the bucket array, for the arena of entries
   or for a copy that a storage policy makes;
2. an argument or a configuration was rejected, with a reason.

A failed operation has no visible effect on the table it was called on.
The wording of every failure is in this module only.
-/

namespace ChainedTable

/-- Reasons for which a configuration or an argument is rejected. -/
inductive Rejection where
  /-- One of the two density thresholds is infinite or not a number. -/
  | thresholdNotFinite
  /-- The lower threshold is negative, or the upper one is not above zero. -/
  | thresholdNotPositive
  /-- The table would grow at less than one entry per bucket. -/
  | growthBelowOne
  /-- The upper threshold is less than four times the lower one. -/
  | thresholdsTooClose
  /-- A table was asked for without a hash policy. -/
  | hashPolicyMissing
  /-- A storage policy declined, in its own words. -/
  | declined (what : String)
deriving DecidableEq, Repr

/-- What was wrong, in words. -/
def Rejection.what : Rejection → String
  | thresholdNotFinite => "density bounds must be finite"
  | thresholdNotPositive => "density bounds must be positive"
  | growthBelowOne => "grow threshold must be at least one entry per bucket"
  | thresholdsTooClose => "grow threshold must be at least four times the shrink threshold"
  | hashPolicyMissing => "a hash policy is required"
  | declined what => what

/-- Failure of an operation. -/
inductive Failure where
  /-- The bucket array, the arena or a copy could not obtain storage. -/
  | storage
  /-- A rejected argument or configuration. -/
  | invalid (reason : Rejection)
deriving DecidableEq, Repr

/-- The text shown for a failure. -/
def Failure.message : Failure → String
  | storage => "allocation failure"
  | invalid reason => "invalid argument: " ++ reason.what

end ChainedTable
