import ChainedTable.Proofs.Drift

/-!
# ChainedTable.Proofs.Hysteresis

Resizes are far apart.

A table with the default band that never leaves it resizes at one count of
entries exactly, coming from the level before or after. There the count is far
from both ends of the band at the new level (`Arrives.le_of_departs`): at least
a fifth of the new bucket count, by what is known of neighbouring levels. The
size moves by one per structural change, so that many changes lie between a
resize and the next one.
-/

namespace ChainedTable

variable {ε K KS V VS σ ω : Type} {κ : Keeper} {p : Policies ε K KS V VS κ}

/-- Neighbouring levels are about a factor of two apart. -/
theorem Level.ratio_of_up? {lower higher : Level} (h : lower.up? = some higher) :
    9 * lower.buckets + 15 ≤ 5 * higher.buckets ∧ higher.buckets ≤ 3 * lower.buckets := by
  revert lower higher
  decide

/-! ## gauges -/

namespace Gauge

variable {g g' : Gauge Rat} {level : Level} {n m k : Nat}

/-- The count at which a table with the default band comes to a level: the least
that is too many for the level below, or the greatest that is too few for the
level above. -/
def Arrives (level : Level) (n : Nat) : Prop :=
  (∃ lower : Level, lower.up? = some level ∧ n = 2 * lower.buckets) ∨
    ∃ higher : Level, higher.down? = some level ∧ 4 * n ≤ higher.buckets ∧
      higher.buckets < 4 * n + 4

/-- A count at which a table with the default band leaves a level. -/
def Departs (level : Level) (n : Nat) : Prop :=
  2 * level.buckets ≤ n ∨ 4 * n ≤ level.buckets

/-- **From arriving to departing** it is a fifth of the buckets, in all four
orders of growing and shrinking. -/
theorem Arrives.le_of_departs (h : Arrives level n) (hdeparts : Departs level m)
    (hle : m ≤ n + k) (hge : n ≤ m + k) : level.buckets ≤ 5 * k := by
  obtain ⟨lower, hup, hn⟩ | ⟨higher, hdown, hfew, hmany⟩ := h
  · have hratio := Level.ratio_of_up? hup
    rcases hdeparts with hgrows | hshrinks <;> omega
  · have hratio := Level.ratio_of_up? (Level.up?_eq_some_iff.mpr hdown)
    rcases hdeparts with hgrows | hshrinks <;> omega

/-- A change that leads to another level from inside the default band leaves the
one and comes to the other at these counts. -/
theorem Shifts.departs_arrives (h : g.Shifts g') (hband : g.band = .default) (hin : g.Inside)
    (hlevel : g'.level ≠ g.level) : Departs g.level g'.size ∧ Arrives g'.level g'.size := by
  rw [Inside, hband, DensityBand.Inside, DensityBand.above_default_iff,
    DensityBand.below_default_iff] at hin
  have hcases := DensityBand.next_cases g.band g.level g'.size
  rw [← h.level, hband, DensityBand.Inside, DensityBand.above_default_iff,
    DensityBand.below_default_iff] at hcases
  have hsize := h.size
  obtain ⟨hsame, -⟩ | ⟨hdown, hover⟩ | ⟨hup, -, hunder⟩ := hcases
  · exact absurd hsame hlevel
  · have hbottom : g.level ≠ Level.bottom := fun hbottom => hover (.inl hbottom)
    have habove := hin.1.resolve_left hbottom
    have hover : 4 * g'.size ≤ g.level.buckets := not_lt.mp fun hlt => hover (.inr hlt)
    exact ⟨.inr hover, .inr ⟨g.level, hdown, hover, by omega⟩⟩
  · have htop : g.level ≠ Level.top := fun htop => hunder (.inl htop)
    have hbelow := hin.2.resolve_left htop
    have hunder : 2 * g.level.buckets ≤ g'.size := not_lt.mp fun hlt => hunder (.inr hlt)
    exact ⟨.inl hunder, .inl ⟨g.level, hup, by omega⟩⟩

/-- After a table has come to a level, it is there still, or there were as many
changes as a fifth of the buckets of that level. -/
theorem Drifts.stays_or_le (h : g.Drifts n g') (harrives : Arrives level m)
    (hband : g.band = .default) (hin : g.Inside) (hlevel : g.level = level)
    (hle : g.size ≤ m + k) (hge : m ≤ g.size + k) :
    g'.level = level ∨ level.buckets ≤ 5 * (k + n) := by
  -- `k` bounds how far the size is from where it was on arrival
  induction h generalizing k with
  | refl => exact .inl hlevel
  | rest hrest _ ih =>
      rw [← hrest.size] at hle hge
      exact ih (hrest.band.trans hband) (hrest.inside hin) (hrest.level.trans hlevel) hle hge
  | @shift g g₁ g' n hshift _ ih =>
      have hmoved := hshift.size
      have hle' : g₁.size ≤ m + (k + 1) := by omega
      have hge' : m ≤ g₁.size + (k + 1) := by omega
      by_cases hsame : g₁.level = g.level
      · have hrest := ih (hshift.band.trans hband) (hshift.inside_of_default hband hin)
          (hsame.trans hlevel) hle' hge'
        rwa [Nat.add_assoc, Nat.add_comm 1 n] at hrest
      · have hdeparts := (hshift.departs_arrives hband hin hsame).1
        rw [hlevel] at hdeparts
        have hfifth := harrives.le_of_departs hdeparts hle' hge'
        exact .inr (by omega)

end Gauge

/-! ## tables -/

namespace Table

variable {t : Table Rat p}

/-- A request that resizes a table. -/
def Resizes (t : Table Rat p) (supply : Supply ε) (request : Request Rat ε K V VS σ ω) : Prop :=
  (request.run supply t).table.buckets ≠ t.buckets

/-- A sound table inside the default band. -/
structure Calm (t : Table Rat p) : Prop where
  sound : t.Sound
  band : t.band = .default
  inside : t.Inside

namespace Calm

theorem of_make {supply : Supply ε} (hmade : make supply = .ok t) : t.Calm := by
  rw [eq_empty_of_withBand hmade]
  refine ⟨.empty _, rfl, ?_⟩
  rw [Inside, size_empty]
  exact DensityBand.inside_default_bottom

variable {supply : Supply ε} {request : Request Rat ε K V VS σ ω}
  {requests : List (Supply ε × Request Rat ε K V VS σ ω)}

theorem drifts (h : t.Calm) (hrun : t.Continues Request.IsGradual requests) :
    t.gauge.Drifts (t.changes requests) (t.runAll requests).table.gauge :=
  h.sound.drifts_runAll h.band
    ⟨fun call hcall => (hrun.1 call hcall).imp_right fun hstep => ⟨hstep, h.inside⟩, hrun.2⟩

theorem runAll (h : t.Calm) (hrun : t.Continues Request.IsGradual requests) :
    (t.runAll requests).table.Calm where
  sound := h.sound.runAll requests
  band := (h.drifts hrun).band_eq.trans h.band
  inside := (h.drifts hrun).inside_of_default h.band h.inside

/-- A single request leaves it calm. -/
theorem run (h : t.Calm) (hkind : request.IsGradual)
    (hrefused : NothingRefused (request.run supply t).journal) :
    (request.run supply t).table.Calm := by
  have hnil : (request.run supply t).table.Continues Request.IsGradual
      ([] : List (Supply ε × Request Rat ε K V VS σ ω)) :=
    ⟨by simp, by simp [NothingRefused, Table.runAll]⟩
  exact h.runAll (continues_cons.mpr ⟨⟨hkind, hrefused⟩, hnil⟩)

theorem level_ne_of_resizes (h : t.Calm) (hresizes : t.Resizes supply request) :
    (request.run supply t).table.level ≠ t.level := fun hlevel =>
  hresizes ((h.sound.run supply request).buckets.trans (hlevel ▸ h.sound.buckets.symm))

/-- A resize comes to its level at one of the counts for that. -/
theorem arrives_of_resizes (h : t.Calm) (hkind : request.IsGradual)
    (hrefused : NothingRefused (request.run supply t).journal)
    (hresizes : t.Resizes supply request) :
    Gauge.Arrives (request.run supply t).table.level (request.run supply t).table.size := by
  have hlevel := h.level_ne_of_resizes hresizes
  have hmoved := h.sound.rests_or_shifts
    (hkind.imp_right fun hstep => ⟨hstep, h.inside⟩) hrefused
  have hshifts := hmoved.resolve_left fun hrests => hlevel hrests.level
  exact (hshifts.departs_arrives h.band h.inside hlevel).2

end Calm

/-- **Hysteresis**: on a new table with the default band, where no bucket array is
refused, a resize to some number of buckets is followed by a fifth of that number
of changes before anything resizes again. -/
theorem buckets_le_changes {supply supply₁ supply₂ : Supply ε} (hmade : make supply = .ok t)
    {first middle last : List (Supply ε × Request Rat ε K V VS σ ω)}
    {request₁ request₂ : Request Rat ε K V VS σ ω}
    (hrun : t.Continues Request.IsGradual
      (first ++ (supply₁, request₁) :: (middle ++ (supply₂, request₂) :: last))) :
    let before := (t.runAll first).table
    let resized := (request₁.run supply₁ before).table
    let later := (resized.runAll middle).table
    before.Resizes supply₁ request₁ → later.Resizes supply₂ request₂ →
      resized.buckets ≤ 5 * resized.changes (middle ++ [(supply₂, request₂)]) := by
  intro before resized later hfirst hsecond
  obtain ⟨hrun₀, hrest⟩ := continues_append.mp hrun
  obtain ⟨⟨hkind, hrefused⟩, hrest⟩ := continues_cons.mp hrest
  rw [List.append_cons, continues_append] at hrest
  obtain ⟨hboth, -⟩ := hrest
  obtain ⟨hmiddle, hsecond'⟩ := continues_append.mp hboth
  have hbefore : before.Calm := (Calm.of_make hmade).runAll hrun₀
  have hresized : resized.Calm := hbefore.run hkind hrefused
  have hlater : later.Calm := hresized.runAll hmiddle
  have harrives := hbefore.arrives_of_resizes hkind hrefused hfirst
  -- The second resize leaves a level: the one that the first came to, or another.
  have hstays {n : Nat} {g : Gauge Rat} (h : resized.gauge.Drifts n g) :
      g.level = resized.level ∨ resized.level.buckets ≤ 5 * n := by
    have hstays := h.stays_or_le (k := 0) harrives hresized.band hresized.inside rfl
      (Nat.le_refl _) (Nat.le_refl _)
    rwa [Nat.zero_add] at hstays
  have hbuckets : resized.buckets = resized.level.buckets := hresized.sound.buckets
  rw [hbuckets]
  rcases hstays (hresized.drifts hboth) with hback | hle
  · rcases hstays (hresized.drifts hmiddle) with huntil | hle
    · refine absurd ?_ (hlater.level_ne_of_resizes hsecond)
      rw [table_runAll_append] at hback
      exact hback.trans huntil.symm
    · rw [changes_append]
      omega
  · omega

/-- Growing at 74 entries, and shrinking back when 55 of them are erased. -/
theorem buckets_le_changes_spread :
    let insert (key : Nat) : Request Rat Unit Nat Nat Nat Unit Unit := .insert key none
    let erase (key : Nat) : Request Rat Unit Nat Nat Nat Unit Unit := .erase key
    let inserts := (List.range 73).map fun key => (plenty, insert key)
    let erases := (List.range 54).map fun key => (plenty, erase key)
    let before : Table Rat spread := ((empty .default).runAll inserts).table
    let grown := ((insert 73).run plenty before).table
    let later := (grown.runAll erases).table
    before.Resizes plenty (insert 73) ∧ later.Resizes plenty (erase 54) ∧
      grown.buckets ≤ 5 * grown.changes (erases ++ [(plenty, erase 54)]) := by
  intro insert erase inserts erases before grown later
  have hrun : (empty .default : Table Rat spread).Continues Request.IsGradual
      (inserts ++ (plenty, insert 73) :: (erases ++ (plenty, erase 54) :: [])) := by
    refine ⟨fun call hcall => .inl ?_, by decide +kernel⟩
    simp only [inserts, erases, List.mem_append, List.mem_cons, List.mem_map] at hcall
    rcases hcall with ⟨_, -, rfl⟩ | rfl | ⟨_, -, rfl⟩ | rfl | hnil
    · trivial
    · trivial
    · trivial
    · trivial
    · exact absurd hnil List.not_mem_nil
  have hbuckets : before.buckets = 37 ∧ grown.buckets = 79 ∧ later.buckets = 79 ∧
      ((erase 54).run plenty later).table.buckets = 37 := by
    decide +kernel
  obtain ⟨hbefore, hgrown, hlater, hshrunk⟩ := hbuckets
  have hgrows : before.Resizes plenty (insert 73) := by
    rw [Resizes, hgrown, hbefore]
    decide
  have hshrinks : later.Resizes plenty (erase 54) := by
    rw [Resizes, hshrunk, hlater]
    decide
  have hmade : make plenty = .ok (empty .default : Table Rat spread) := rfl
  exact ⟨hgrows, hshrinks, buckets_le_changes hmade hrun hgrows hshrinks⟩

end Table

end ChainedTable
