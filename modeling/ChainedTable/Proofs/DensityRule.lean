import ChainedTable.Density
import Mathlib.Algebra.Order.Field.Basic
import Mathlib.Data.Rat.Cast.Order
import Mathlib.Tactic.Linarith
import Mathlib.Tactic.NormNum
import Mathlib.Tactic.Ring

/-!
# ChainedTable.Proofs.DensityRule

The density rule, with densities compared exactly.

On `Rat` a density is the quotient itself, and the rule is arithmetic of three
numbers: the count of entries and the bucket counts of two neighbouring levels.
`Above` and `Below` say that a count is on the right side of one end of the
band, or that there is no level to move to on that side. The rule finds nothing
to do exactly if both hold (`target?_eq_none_iff`).

If a count was on the right side of an end, and there is one entry more or one
less, then after one step it is so again

1. at the upper end, whatever the band (`Accepted.below_next`,
   `Accepted.below_next_succ`);
2. at the lower end, if the entry came (`Accepted.above_next`);
3. at the lower end, if the entry went, unless that end is so low that one or
   two entries decide (`above_next_pred`, `Accepted.exists_not_above_of_lt`).
-/

namespace ChainedTable

namespace Level

variable {lower higher : Level}

/-- Neighbouring levels are less than a factor of four apart. -/
theorem buckets_lt_four_mul (h : lower.up? = some higher) :
    higher.buckets < 4 * lower.buckets := by
  revert lower higher
  decide

/-- Above the two lowest levels the next one is far away, but for the first two
of these. -/
theorem gap_of_up? (h : lower.up? = some higher) (hlower : lower ≠ bottom) :
    (lower.buckets = 79 ∧ higher.buckets = 181) ∨ (lower.buckets = 181 ∧ higher.buckets = 359) ∨
      2 * lower.buckets + 359 < 2 * higher.buckets := by
  revert lower higher
  decide

theorem ne_bottom_of_up? (h : lower.up? = some higher) : higher ≠ bottom := by
  revert lower higher
  decide

theorem val_of_down? {level : Level} (h : level.down? = some lower) :
    lower.val + 1 = level.val := by
  revert lower level
  decide

end Level

namespace DensityBand

variable {band : DensityBand Rat} {level lower higher target : Level} {n : Nat}

/-! ## the two ends -/

/-- The count is over the lower end, or there is no level below. -/
def Above (band : DensityBand Rat) (level : Level) (entries : Nat) : Prop :=
  level = Level.bottom ∨ band.low < density entries level.buckets

/-- The count is under the upper end, or there is no level above. -/
def Below (band : DensityBand Rat) (level : Level) (entries : Nat) : Prop :=
  level = Level.top ∨ density entries level.buckets < band.high

/-- The count is on the right side of both ends. -/
def Inside (band : DensityBand Rat) (level : Level) (entries : Nat) : Prop :=
  band.Above level entries ∧ band.Below level entries

instance : Decidable (band.Above level n) :=
  inferInstanceAs (Decidable (level = Level.bottom ∨ band.low < density n level.buckets))

instance : Decidable (band.Below level n) :=
  inferInstanceAs (Decidable (level = Level.top ∨ density n level.buckets < band.high))

instance : Decidable (band.Inside level n) :=
  inferInstanceAs (Decidable (band.Above level n ∧ band.Below level n))

theorem lt_density_iff {x : Rat} : x < density n level.buckets ↔ x * level.buckets < n :=
  lt_div_iff₀ (Nat.cast_pos.mpr level.buckets_pos)

theorem density_lt_iff {x : Rat} : density n level.buckets < x ↔ n < x * level.buckets :=
  div_lt_iff₀ (Nat.cast_pos.mpr level.buckets_pos)

theorem above_iff : band.Above level n ↔ level = Level.bottom ∨ band.low * level.buckets < n := by
  rw [Above, lt_density_iff]

theorem below_iff : band.Below level n ↔ level = Level.top ∨ n < band.high * level.buckets := by
  rw [Below, density_lt_iff]

/-- The rule, with the comparisons as propositions. -/
theorem target?_eq (band : DensityBand Rat) (level : Level) (n : Nat) :
    band.target? level n =
      if level ≠ Level.bottom ∧ density n level.buckets ≤ band.low then level.down?
      else if band.high ≤ density n level.buckets then level.up? else none := by
  simp [target?, Scale.le]

/-- There is nothing to do exactly inside the band. -/
theorem target?_eq_none_iff : band.target? level n = none ↔ band.Inside level n := by
  rw [target?_eq, Inside, Above, Below]
  split
  · next h =>
    have hnone : level.down? ≠ none := Level.down?_eq_none_iff.not.mpr h.1
    simp only [hnone, false_iff]
    rintro ⟨hbottom | hover, -⟩
    · exact h.1 hbottom
    · exact absurd h.2 (not_le.mpr hover)
  · next h =>
    have habove : level = Level.bottom ∨ band.low < density n level.buckets := by
      by_cases hlevel : level = Level.bottom
      · exact .inl hlevel
      · exact .inr (not_le.mp fun hle => h ⟨hlevel, hle⟩)
    split
    · next hover =>
      rw [Level.up?_eq_none_iff]
      exact ⟨fun htop => ⟨habove, .inl htop⟩,
        fun hin => hin.2.resolve_right (not_lt.mpr hover)⟩
    · next hunder => exact iff_of_true rfl ⟨habove, .inr (not_le.mp hunder)⟩

/-- A step goes down from a count that is not over the lower end, and up from
one that is, but is not under the upper end. -/
theorem down?_or_up?_of_target?_eq_some (h : band.target? level n = some target) :
    (level.down? = some target ∧ ¬band.Above level n) ∨
      (level.up? = some target ∧ band.Above level n ∧ ¬band.Below level n) := by
  have hin : ¬band.Inside level n := fun hin => by simp [target?_eq_none_iff.mpr hin] at h
  rw [target?_eq] at h
  split at h
  · next hdown =>
    refine .inl ⟨h, ?_⟩
    rintro (hbottom | hover)
    · exact hdown.1 hbottom
    · exact absurd hdown.2 (not_le.mpr hover)
  · next hdown =>
    split at h
    · have habove : band.Above level n := by
        by_cases hlevel : level = Level.bottom
        · exact .inl hlevel
        · exact .inr (not_le.mp fun hle => hdown ⟨hlevel, hle⟩)
      exact .inr ⟨h, habove, fun hbelow => hin ⟨habove, hbelow⟩⟩
    · contradiction

/-! ## accepted bands -/

/-- What is known of thresholds that were checked. -/
structure Accepted (band : DensityBand Rat) : Prop where
  low_nonneg : 0 ≤ band.low
  one_le_high : 1 ≤ band.high
  four_mul_low_le : 4 * band.low ≤ band.high

theorem accepted_of_checked {low high : Rat} (h : checked low high = .ok band) :
    band.Accepted := by
  obtain rfl := eq_of_checked_eq_ok h
  simp only [checked, Scale.isFinite, Scale.lt, Scale.le, Scale.ofNat, Scale.quadruple] at h
  constructor <;> grind

theorem accepted_default : (default : DensityBand Rat).Accepted := by
  constructor <;> norm_num [default, Scale.div, Scale.ofNat]

theorem low_default : (default : DensityBand Rat).low = 1 / 4 := by
  norm_num [default, Scale.div, Scale.ofNat]

/-- The lower end of the default band is high enough for single steps. -/
theorem bound_le_low_default : 2 / 359 ≤ (default : DensityBand Rat).low := by
  rw [low_default]
  norm_num

theorem high_default : (default : DensityBand Rat).high = 2 := by
  norm_num [default, Scale.ofNat]

/-- The lower end of the default band, without a quotient. -/
theorem above_default_iff :
    default.Above level n ↔ level = Level.bottom ∨ level.buckets < 4 * n := by
  have hcast : (1 / 4 * (level.buckets : Rat) < n) ↔ level.buckets < 4 * n := by
    rw [← Nat.cast_lt (α := Rat)]
    push_cast
    constructor <;> intro h <;> linarith
  rw [above_iff, low_default, hcast]

/-- The upper end of the default band, without a quotient. -/
theorem below_default_iff :
    default.Below level n ↔ level = Level.top ∨ n < 2 * level.buckets := by
  rw [below_iff, high_default]
  norm_cast

/-- A table with no entries is inside the default band at the bottom. -/
theorem inside_default_bottom : default.Inside Level.bottom 0 :=
  ⟨.inl rfl, below_default_iff.mpr (.inr (by decide))⟩

/-! ## one step -/

/-- The level after one step that is granted. -/
def next (band : DensityBand Rat) (level : Level) (entries : Nat) : Level :=
  (band.target? level entries).getD level

/-- A step that finds nothing to do was inside already; another one is to a
neighbour. -/
theorem next_cases (band : DensityBand Rat) (level : Level) (n : Nat) :
    (band.next level n = level ∧ band.Inside level n) ∨
      (level.down? = some (band.next level n) ∧ ¬band.Above level n) ∨
      (level.up? = some (band.next level n) ∧ band.Above level n ∧ ¬band.Below level n) := by
  unfold next
  cases h : band.target? level n with
  | none => exact .inl ⟨rfl, target?_eq_none_iff.mp h⟩
  | some target => exact .inr (down?_or_up?_of_target?_eq_some h)

theorem next_eq_self (h : band.Inside level n) : band.next level n = level := by
  rw [next, target?_eq_none_iff.mpr h]
  rfl

variable (hband : band.Accepted)
include hband

/-- Whoever comes down finds the count under the upper end. -/
theorem Accepted.below_of_down? (h : level.down? = some lower) (hover : ¬band.Above level n) :
    band.Below lower n := by
  have hlt := Level.buckets_lt_four_mul (Level.up?_eq_some_iff.mpr h)
  have hlt : (level.buckets : Rat) < 4 * lower.buckets := by exact_mod_cast hlt
  simp only [above_iff, not_or, not_lt] at hover
  refine below_iff.mpr (.inr ?_)
  have hhigh : 0 < band.high := by linarith [hband.one_le_high]
  calc (n : Rat)
    _ ≤ band.low * level.buckets := hover.2
    _ ≤ band.high / 4 * level.buckets := by
        gcongr
        linarith [hband.four_mul_low_le]
    _ < band.high / 4 * (4 * lower.buckets) := by gcongr
    _ = band.high * lower.buckets := by ring

/-- Whoever goes up with at least one entry finds the count over the lower end. -/
theorem Accepted.above_of_up? (h : level.up? = some higher) (hn : 0 < n)
    (hunder : ¬band.Below level n) : band.Above higher n := by
  have hlt := Level.buckets_lt_four_mul h
  have hlt : (higher.buckets : Rat) < 4 * level.buckets := by exact_mod_cast hlt
  have hn : (0 : Rat) < n := by exact_mod_cast hn
  simp only [below_iff, not_or, not_lt] at hunder
  refine above_iff.mpr (.inr ?_)
  rcases hband.low_nonneg.eq_or_lt with hzero | hpos
  · simpa [← hzero] using hn
  · calc band.low * higher.buckets
      _ < band.low * (4 * level.buckets) := by gcongr
      _ = 4 * band.low * level.buckets := by ring
      _ ≤ band.high * level.buckets := by
          gcongr
          exact hband.four_mul_low_le
      _ ≤ n := hunder.2

/-- One entry more is one bucket more, and the next level has that. -/
theorem Accepted.below_succ_of_up? (h : level.up? = some higher) (hn : band.Below level n) :
    band.Below higher (n + 1) := by
  have hlt : level.buckets + 1 ≤ higher.buckets := Level.buckets_lt_of_up? h
  have hlt : (level.buckets : Rat) + 1 ≤ higher.buckets := by exact_mod_cast hlt
  have hnone : level ≠ Level.top := fun htop => by
    simp [Level.up?_eq_none_iff.mpr htop] at h
  have hn := (below_iff.mp hn).resolve_left hnone
  refine below_iff.mpr (.inr ?_)
  push_cast
  nlinarith [hband.one_le_high]

/-! ## the upper end -/

/-- A step without a change of the count stays under the upper end. -/
theorem Accepted.below_next (hn : band.Below level n) : band.Below (band.next level n) n := by
  obtain ⟨hsame, hin⟩ | ⟨hdown, hover⟩ | ⟨-, -, hunder⟩ := next_cases band level n
  · rw [hsame]
    exact hin.2
  · exact hband.below_of_down? hdown hover
  · exact absurd hn hunder

/-- One entry more, and a step: the count is under the upper end. -/
theorem Accepted.below_next_succ (hn : band.Below level n) :
    band.Below (band.next level (n + 1)) (n + 1) := by
  obtain ⟨hsame, hin⟩ | ⟨hdown, hover⟩ | ⟨hup, -, -⟩ := next_cases band level (n + 1)
  · rw [hsame]
    exact hin.2
  · exact hband.below_of_down? hdown hover
  · exact hband.below_succ_of_up? hup hn

omit hband in
/-- Fewer entries are under the upper end where more are. -/
theorem Below.of_le {m : Nat} (hn : band.Below level n) (hle : m ≤ n) : band.Below level m := by
  have hle : (m : Rat) ≤ n := by exact_mod_cast hle
  rw [below_iff] at hn ⊢
  exact hn.imp_right fun hlt => hle.trans_lt hlt

/-! ## the lower end -/

omit hband in
/-- More entries are over the lower end where fewer are. -/
theorem Above.of_le {m : Nat} (hn : band.Above level n) (hle : n ≤ m) : band.Above level m := by
  have hle : (n : Rat) ≤ m := by exact_mod_cast hle
  rw [above_iff] at hn ⊢
  exact hn.imp_right fun hlt => hlt.trans_le hle

/-- Where a count with at least one entry is over the lower end, it is so after
a step. -/
theorem Accepted.above_next (hpos : 0 < n) (hn : band.Above level n) :
    band.Above (band.next level n) n := by
  obtain ⟨hsame, hin⟩ | ⟨-, hover⟩ | ⟨hup, -, hunder⟩ := next_cases band level n
  · rw [hsame]
    exact hin.1
  · exact absurd hn hover
  · exact hband.above_of_up? hup hpos hunder

omit hband in
/-- If the lower end is at least `2 / 359`, a count that was over it and lost
one entry is over it at the level below. -/
theorem above_of_down? (hlow : 2 / 359 ≤ band.low) (h : level.down? = some lower)
    (hn : band.Above level (n + 1)) : band.Above lower n := by
  have hup := Level.up?_eq_some_iff.mpr h
  have hlevel := Level.ne_bottom_of_up? hup
  by_cases hbottom : lower = Level.bottom
  · exact .inl hbottom
  have hn := (above_iff.mp hn).resolve_left hlevel
  push_cast at hn
  refine above_iff.mpr (.inr (not_le.mp fun hle => ?_))
  -- The count was over the end by less than one entry, at either level.
  have hgap : band.low * (level.buckets - lower.buckets) < 1 := by linarith
  obtain ⟨hl, hh⟩ | ⟨hl, hh⟩ | hfar := Level.gap_of_up? hup hbottom
  · rw [hl] at hle hgap
    rw [hh] at hn hgap
    push_cast at hle hn hgap
    have hzero : n < 1 := by
      rw [← Nat.cast_lt (α := Rat)]
      push_cast
      linarith
    have hzero : (n : Rat) = 0 := by exact_mod_cast Nat.lt_one_iff.mp hzero
    linarith
  · rw [hl] at hle hgap
    rw [hh] at hn hgap
    push_cast at hle hn hgap
    have hone : n < 2 := by
      rw [← Nat.cast_lt (α := Rat)]
      push_cast
      linarith
    have hone : (n : Rat) ≤ 1 := by exact_mod_cast Nat.lt_succ_iff.mp hone
    linarith
  · have hfar : 2 * (lower.buckets : Rat) + 359 < 2 * level.buckets := by exact_mod_cast hfar
    nlinarith

omit hband in
/-- One entry less, and a step: the count is over the lower end, if this is at
least `2 / 359`. -/
theorem above_next_pred (hlow : 2 / 359 ≤ band.low) (hn : band.Above level (n + 1))
    (hbelow : band.Below level (n + 1)) : band.Above (band.next level n) n := by
  obtain ⟨hsame, hin⟩ | ⟨hdown, -⟩ | ⟨-, -, hunder⟩ := next_cases band level n
  · rw [hsame]
    exact hin.1
  · exact above_of_down? hlow hdown hn
  · exact absurd (hbelow.of_le (Nat.le_succ n)) hunder

/-- Where the count is at or under the lower end also at the level below, a
step down leaves it there. -/
theorem Accepted.not_above_next (h : level.down? = some lower) (hlower : lower ≠ Level.bottom)
    (hunder : band.Below level n) (hle : n ≤ band.low * lower.buckets) :
    ¬band.Above (band.next level n) n := by
  have hup := Level.up?_eq_some_iff.mpr h
  have hlt : (lower.buckets : Rat) ≤ level.buckets := by
    exact_mod_cast (Level.buckets_lt_of_up? hup).le
  have hover : ¬band.Above level n := by
    rw [above_iff, not_or, not_lt]
    exact ⟨Level.ne_bottom_of_up? hup,
      hle.trans (mul_le_mul_of_nonneg_left hlt hband.low_nonneg)⟩
  obtain ⟨-, hin⟩ | ⟨hdown, -⟩ | ⟨-, -, hnot⟩ := next_cases band level n
  · exact absurd hin.1 hover
  · rw [← Option.some.inj (h.symm.trans hdown), above_iff, not_or, not_lt]
    exact ⟨hlower, hle⟩
  · exact absurd hunder hnot

/-- If the lower end is less than `2 / 359`, there is a count inside the band
that one entry less and a step leave at or under the lower end. -/
theorem Accepted.exists_not_above_of_lt (hlow : band.low < 2 / 359) :
    ∃ level n, band.Inside level (n + 1) ∧ ¬band.Above (band.next level n) n := by
  have hzero := hband.low_nonneg
  have hone := hband.one_le_high
  have h79 : Level.buckets ⟨1, by decide⟩ = 79 := rfl
  have h181 : Level.buckets ⟨2, by decide⟩ = 181 := rfl
  have h359 : Level.buckets ⟨3, by decide⟩ = 359 := rfl
  -- One entry in 181 buckets is too many for the end, or else two in 359 are.
  rcases lt_or_ge (band.low * 181) 1 with hfew | hmany
  · have hin : band.Inside ⟨2, by decide⟩ (0 + 1) := by
      refine ⟨above_iff.mpr (.inr ?_), below_iff.mpr (.inr ?_)⟩ <;> norm_num [h181] <;> linarith
    refine ⟨_, 0, hin, hband.not_above_next rfl (by decide) (hin.2.of_le (Nat.zero_le 1)) ?_⟩
    norm_num [h79]
    linarith
  · have hin : band.Inside ⟨3, by decide⟩ (1 + 1) := by
      refine ⟨above_iff.mpr (.inr ?_), below_iff.mpr (.inr ?_)⟩ <;> norm_num [h359] <;> linarith
    refine ⟨_, 1, hin, hband.not_above_next rfl (by decide) (hin.2.of_le (Nat.le_succ 1)) ?_⟩
    norm_num [h181]
    linarith

end DensityBand

end ChainedTable
