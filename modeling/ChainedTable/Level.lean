/-!
# ChainedTable.Level

The sizes that a bucket array can have.

A table is always at one of 37 levels. `Level.buckets` gives the number of
buckets there: a fixed ascending sequence of primes, each a little more or
less than twice the one before. A table moves one level at a time, so the
only arithmetic on levels is `up?` and `down?`, which fail at the two ends.
-/

namespace ChainedTable

/-- Number of levels. -/
def levelCount : Nat := 37

/-- Bucket counts by level. -/
def bucketCounts : Vector Nat 37 := #v[
  37, 79, 181, 359, 743, 1511, 3023, 6037, 12073, 24001,
  48017, 96001, 192007, 384001, 768013, 1536011, 3072001, 6144001, 12288011, 24576001,
  49152001, 98304053, 196608007, 393216007, 786432001, 1572864001, 3145728023, 6291456071,
  12582912157, 25165824377, 50331648797, 100663297627, 201326595259, 402653190619,
  805306381259, 1610612762543, 3221225525093]

/-- A position in the sequence of bucket counts. -/
abbrev Level := Fin levelCount

namespace Level

/-- The level that every table starts at. -/
def bottom : Level := ⟨0, by decide⟩

/-- The last level: past it density may grow without bound. -/
def top : Level := ⟨36, by decide⟩

/-- Number of buckets at a level. -/
def buckets (level : Level) : Nat := bucketCounts.get level

/-- The next level, if there is one. -/
def up? (level : Level) : Option Level :=
  if h : level.val + 1 < levelCount then some ⟨level.val + 1, h⟩ else none

/-- The level before, if there is one. -/
def down? (level : Level) : Option Level :=
  if level.val = 0 then none else some ⟨level.val - 1, by have := level.isLt; omega⟩

/-- The level with a given number, if there is one. -/
def ofNat? (n : Nat) : Option Level :=
  if h : n < levelCount then some ⟨n, h⟩ else none

/-- All levels in ascending order. -/
def all : List Level := List.finRange levelCount

/-! ## the sequence -/

theorem buckets_pos (level : Level) : 0 < level.buckets := by
  revert level; decide

/-- The sequence ascends strictly. -/
theorem buckets_lt_of_up? {level higher : Level} (h : level.up? = some higher) :
    level.buckets < higher.buckets := by
  revert level higher; decide

/-! ## moving by one -/

theorem up?_eq_none_iff {level : Level} : level.up? = none ↔ level = top := by
  revert level; decide

theorem down?_eq_none_iff {level : Level} : level.down? = none ↔ level = bottom := by
  revert level; decide

/-- Going up and going down undo each other. -/
theorem up?_eq_some_iff {lower higher : Level} :
    lower.up? = some higher ↔ higher.down? = some lower := by
  revert lower higher; decide

end Level

end ChainedTable
