import ChainedTable.Failure
import ChainedTable.Level

/-!
# ChainedTable.Density

When a table grows and when it shrinks.

The density of a table is its number of entries divided by its number of
buckets. A `DensityBand` is the interval that the density should stay inside,
and `DensityBand.target?` is the whole rule:

1. above the bottom level, a density at or under the lower end calls for the
   level below;
2. otherwise, under the top level, a density at or over the upper end calls
   for the level above;
3. otherwise the level is right.

The rule is written once, for any `Scale` of numbers to measure densities in.
Tables run on `Float`, where the quotient is rounded; on `Rat` the same rule
compares densities exactly.
-/

namespace ChainedTable

/-- Numbers that densities are measured in. -/
class Scale (F : Type) where
  /-- A count as a number of the scale. -/
  ofNat : Nat → F
  /-- The quotient of two numbers. -/
  div : F → F → F
  /-- Four times a number. -/
  quadruple : F → F
  /-- Whether a number is neither infinite nor undefined. -/
  isFinite : F → Bool
  /-- Whether one number is less than another. -/
  lt : F → F → Bool
  /-- Whether one number is at most another. -/
  le : F → F → Bool

instance : Scale Float where
  ofNat := Float.ofNat
  div := (· / ·)
  quadruple x := x * 4.0
  isFinite := Float.isFinite
  lt x y := x < y
  le x y := x ≤ y

instance : Scale Rat where
  ofNat n := (n : Rat)
  div := (· / ·)
  quadruple x := x * 4
  isFinite _ := true
  lt x y := x < y
  le x y := x ≤ y

/-- Entries per bucket. -/
def density {F : Type} [Scale F] (entries buckets : Nat) : F :=
  Scale.div (Scale.ofNat entries) (Scale.ofNat buckets)

/-- The interval that the density of a table should stay inside. -/
structure DensityBand (F : Type) where
  /-- A density at or under this threshold calls for fewer buckets. -/
  low : F
  /-- A density at or over this threshold calls for more buckets. -/
  high : F
deriving BEq, DecidableEq, Repr

namespace DensityBand

variable {F : Type} [Scale F]

/-- The band of a table that asks for none: from a quarter to two. -/
def default : DensityBand F where
  low := Scale.div (Scale.ofNat 1) (Scale.ofNat 4)
  high := Scale.ofNat 2

/-- Checks two thresholds, in this order: both are finite, none is negative
and the upper one is above zero, the upper one is at one entry per bucket or
more, and they are a factor of four apart. The factor keeps a step in one
direction from calling for a step in the other, and an upper end at one entry
per bucket or more keeps a handful of entries from pushing a table up the
levels. -/
def checked (low high : F) : Except Rejection (DensityBand F) :=
  if !Scale.isFinite low || !Scale.isFinite high then .error .thresholdNotFinite
  else if Scale.lt low (Scale.ofNat 0) || Scale.le high (Scale.ofNat 0) then
    .error .thresholdNotPositive
  else if Scale.lt high (Scale.ofNat 1) then .error .growthBelowOne
  else if Scale.lt high (Scale.quadruple low) then .error .thresholdsTooClose
  else .ok ⟨low, high⟩

/-- The level a table should move to, if it should move; one level at a time. -/
def target? (band : DensityBand F) (level : Level) (entries : Nat) : Option Level :=
  let now : F := density entries level.buckets
  if level ≠ Level.bottom ∧ Scale.le now band.low then level.down?
  else if Scale.le band.high now then level.up?
  else none

/-- Accepted thresholds are kept as they were given. -/
theorem eq_of_checked_eq_ok {low high : F} {band : DensityBand F}
    (h : checked low high = .ok band) : band = ⟨low, high⟩ := by
  unfold checked at h
  grind

/-- A target is a neighbouring level. -/
theorem down?_or_up?_of_target? {band : DensityBand F} {level target : Level} {entries : Nat}
    (h : band.target? level entries = some target) :
    level.down? = some target ∨ level.up? = some target := by
  unfold target? at h
  grind

end DensityBand

end ChainedTable
