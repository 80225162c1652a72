import ChainedTable.Proofs.Band

/-!
# ChainedTable.Proofs.OneStep

How far one density step goes, for a band that the caller chose.

Every key that comes or goes is followed by one density step. Is that enough to
stay inside a band of one's own? At the upper end it is, for every band that is
accepted. At the lower end it is as long as entries come, and when they go it
depends on how low that end is (`OneStep`):

1. from `2 / 359` on, tables stay inside, and a table that is emptied key by key
   is at the bottom level in the end;
2. under `2 / 359` there is a count inside the band that one removal takes out of
   it: the step goes one level down, and would have to go two.

So with the band from zero to one, `lastKey` is inside its band, and is stranded
above the bottom level when its only key is erased (`lastKey_strays`).
-/

namespace ChainedTable

variable {ε K KS V VS σ ω : Type} {κ : Keeper} {p : Policies ε K KS V VS κ}

/-- A request for one key. -/
def Request.IsForKey {F : Type} : Request F ε K V VS σ ω → Prop
  | insert .. | openSlot .. | contains _ | lookUp _ | take _ | erase _ => True
  | clear | densityStep | walk .. => False

/-- The count of entries is strictly inside the band, but for the two ends of
the levels. -/
def Table.Inside (t : Table Rat p) : Prop := t.band.Inside t.level t.size

namespace Gauge

variable {g g' : Gauge Rat} {granted : Nat → Bool} {request : Request Rat ε K V VS σ ω}

/-- A request for a key changes nothing, or one entry comes or goes and a step is
taken. -/
theorem moves_for_key (hkey : request.IsForKey) (hmoves : request.Moves granted g g') :
    g' = g ∨ g' = { g with size := g.size + 1 }.step granted ∨
      ∃ size, g.size = size + 1 ∧ g' = { g with size }.step granted := by
  cases request with
  | insert | openSlot => exact hmoves.imp_right .inl
  | take | erase => exact hmoves.imp_right .inr
  | contains | lookUp => exact .inl hmoves
  | clear | densityStep | walk => exact hkey.elim

/-- Under the upper end, whether an entry comes or goes. -/
theorem below_of_moves (hband : g.band.Accepted) (hin : g.band.Inside g.level g.size)
    (hkey : request.IsForKey) (hmoves : request.Moves granted g g')
    (hgranted : g'.size ≠ g.size → g'.lastStep.Granted) : g.band.Below g'.level g'.size := by
  rcases moves_for_key hkey hmoves with rfl | rfl | ⟨size, hsize, rfl⟩
  · exact hin.2
  · rw [level_step (hgranted (by simp)), size_step]
    exact hband.below_next_succ hin.2
  · rw [level_step (hgranted (by simp [hsize])), size_step]
    exact hband.below_next (hin.2.of_le (hsize ▸ Nat.le_succ size))

/-- Over the lower end, if an entry comes, or that end is not too low. -/
theorem above_of_moves (hband : g.band.Accepted) (hin : g.band.Inside g.level g.size)
    (hkey : request.IsForKey) (hmoves : request.Moves granted g g')
    (hgranted : g'.size ≠ g.size → g'.lastStep.Granted)
    (hlow : g.size ≤ g'.size ∨ 2 / 359 ≤ g.band.low) : g.band.Above g'.level g'.size := by
  rcases moves_for_key hkey hmoves with rfl | rfl | ⟨size, hsize, rfl⟩
  · exact hin.1
  · rw [level_step (hgranted (by simp)), size_step]
    exact hband.above_next (Nat.succ_pos _) (hin.1.of_le (Nat.le_succ _))
  · have hlow : 2 / 359 ≤ g.band.low := hlow.resolve_left (by simp [hsize])
    rw [level_step (hgranted (by simp [hsize])), size_step]
    exact DensityBand.above_next_pred hlow (hsize ▸ hin.1) (hsize ▸ hin.2)

end Gauge

namespace Table

/-- The step that a request may have taken found its bucket array. -/
def StepGranted {F : Type} {p : Policies ε K KS V VS κ} (before after : Table F p) : Prop :=
  after.size ≠ before.size → after.lastStep.Granted

variable {t t' : Table Rat p} {supply : Supply ε} {request : Request Rat ε K V VS σ ω}

/-- One request for a key leaves a table under the upper end. -/
theorem Sound.below_run (h : t.Sound) (hband : t.band.Accepted) (hin : t.Inside)
    (hkey : request.IsForKey) (hgranted : t.StepGranted (request.run supply t).table) :
    t.band.Below (request.run supply t).table.level (request.run supply t).table.size :=
  Gauge.below_of_moves (g := t.gauge) hband hin hkey (h.moves_run supply request) hgranted

/-- **One request for a key** leaves a table inside its band, if no entry went or
the lower end is not too low. -/
theorem Sound.inside_run (h : t.Sound) (hband : t.band.Accepted) (hin : t.Inside)
    (hkey : request.IsForKey) (hgranted : t.StepGranted (request.run supply t).table)
    (hlow : t.size ≤ (request.run supply t).table.size ∨ 2 / 359 ≤ t.band.low) :
    (request.run supply t).table.Inside := by
  have hmoves := h.moves_run supply request
  have habove := Gauge.above_of_moves (g := t.gauge) hband hin hkey hmoves hgranted hlow
  have hbelow := Gauge.below_of_moves (g := t.gauge) hband hin hkey hmoves hgranted
  rw [← hmoves.band_eq] at habove hbelow
  exact ⟨habove, hbelow⟩

/-- A run of requests for keys, in which every step finds its bucket array. -/
inductive KeyByKey (t : Table Rat p) : Table Rat p → Prop where
  | start : KeyByKey t t
  | request {t' : Table Rat p} {σ ω : Type} (supply : Supply ε)
    (request : Request Rat ε K V VS σ ω) : KeyByKey t t' → request.IsForKey →
      t'.StepGranted (request.run supply t').table → KeyByKey t (request.run supply t').table

/-- A run of such requests leaves a table inside its band. -/
theorem Sound.inside_keyByKey (h : t.Sound) (hband : t.band.Accepted) (hin : t.Inside)
    (hlow : 2 / 359 ≤ t.band.low) (hrun : t.KeyByKey t') :
    t'.Sound ∧ t'.band = t.band ∧ t'.Inside := by
  induction hrun with
  | start => exact ⟨h, rfl, hin⟩
  | request supply request _ hkey hgranted ih =>
      obtain ⟨hsound, heq, hin'⟩ := ih
      have hband' := (hsound.moves_run supply request).band_eq
      exact ⟨hsound.run supply request, hband'.trans heq,
        hsound.inside_run (heq ▸ hband) hin' hkey hgranted (.inr (heq ▸ hlow))⟩

/-- An empty table inside a band is at the bottom level. -/
theorem Inside.eq_bottom (h : t.Inside) (hband : t.band.Accepted) (hzero : t.size = 0) :
    t.level = .bottom := by
  refine (DensityBand.above_iff.mp h.1).resolve_right (not_lt.mpr ?_)
  rw [hzero]
  exact mul_nonneg hband.low_nonneg (Nat.cast_nonneg _)

end Table

/-- What one density step per key achieves for a band. -/
structure OneStep (p : Policies ε K KS V VS κ) (band : DensityBand Rat) : Prop where
  /-- A table is under the upper end again, whether an entry came or went. -/
  below {t : Table Rat p} {σ ω : Type} {supply : Supply ε} {request : Request Rat ε K V VS σ ω} :
    t.Sound → t.band = band → t.Inside → request.IsForKey →
      t.StepGranted (request.run supply t).table →
      band.Below (request.run supply t).table.level (request.run supply t).table.size
  /-- If an entry came, the table is inside the band again. -/
  came {t : Table Rat p} {σ ω : Type} {supply : Supply ε} {request : Request Rat ε K V VS σ ω} :
    t.Sound → t.band = band → t.Inside → request.IsForKey →
      t.StepGranted (request.run supply t).table →
      t.size ≤ (request.run supply t).table.size → (request.run supply t).table.Inside
  /-- If the lower end is not too low, the table stays inside the band, and is at
  the bottom level when all entries are gone. -/
  stays : 2 / 359 ≤ band.low → ∀ {t t' : Table Rat p}, t.Sound → t.band = band → t.Inside →
    t.KeyByKey t' → t'.Inside ∧ (t'.size = 0 → t'.level = .bottom)
  /-- One step after a removal is enough for every count exactly then. -/
  sharp : (∀ level n, band.Inside level (n + 1) → band.Inside (band.next level n) n) ↔
    2 / 359 ≤ band.low

/-- **How far one step goes**, for every band that is accepted. -/
theorem oneStep_of_checked (p : Policies ε K KS V VS κ) {low high : Rat} {band : DensityBand Rat}
    (h : DensityBand.checked low high = .ok band) : OneStep p band where
  below hsound hband hin hkey hgranted := by
    subst hband
    exact hsound.below_run (DensityBand.accepted_of_checked h) hin hkey hgranted
  came hsound hband hin hkey hgranted hcame := by
    subst hband
    exact hsound.inside_run (DensityBand.accepted_of_checked h) hin hkey hgranted (.inl hcame)
  stays hlow _ _ hsound hband hin hrun := by
    subst hband
    have haccepted := DensityBand.accepted_of_checked h
    obtain ⟨-, hband, hin'⟩ := hsound.inside_keyByKey haccepted hin hlow hrun
    exact ⟨hin', hin'.eq_bottom (hband ▸ haccepted)⟩
  sharp := by
    have haccepted := DensityBand.accepted_of_checked h
    refine ⟨fun hall => not_lt.mp fun hlow => ?_, fun hlow level n hin =>
      ⟨DensityBand.above_next_pred hlow hin.1 hin.2,
        haccepted.below_next (hin.2.of_le (Nat.le_succ n))⟩⟩
    obtain ⟨level, n, hin, hout⟩ := haccepted.exists_not_above_of_lt hlow
    exact hout (hall level n hin).1

theorem oneStep_quarter_two :
    DensityBand.checked (1 / 4 : Rat) 2 = .ok ⟨1 / 4, 2⟩ ∧ OneStep Table.oneChain ⟨1 / 4, 2⟩ := by
  have hchecked : DensityBand.checked (1 / 4 : Rat) 2 = .ok ⟨1 / 4, 2⟩ := by decide +kernel
  exact ⟨hchecked, oneStep_of_checked Table.oneChain hchecked⟩

/-! ## a band from zero -/

namespace Table

/-- A table with the band from zero to one that grew twice and has one key. -/
def lastKey : Table Rat spread :=
  let grow : List (Supply Unit × Request Rat Unit Nat Nat Nat Unit Unit) :=
    (List.range 79).map fun key => (plenty, .insert key none)
  ((Table.empty ⟨0, 1⟩).runAll (grow ++ [(plenty, .clear), (plenty, .insert 0 none)])).table

theorem reachable_lastKey : lastKey.Reachable :=
  Reachable.runAll (reachable_of_withBand (show withBand plenty ⟨(0 : Rat), 1⟩ = .ok _ from rfl)) _

/-- One key in 181 buckets is inside the band. Without it the table is empty, and
has gone one level down of the two that there are. -/
theorem lastKey_strays :
    DensityBand.checked (0 : Rat) 1 = .ok lastKey.band ∧ lastKey.Reachable ∧ lastKey.Inside ∧
      lastKey.StepGranted (lastKey.erase plenty 0).table ∧
      (lastKey.erase plenty 0).table.size = 0 ∧
      (lastKey.erase plenty 0).table.level ≠ .bottom ∧ ¬(lastKey.erase plenty 0).table.Inside := by
  have hgauges : lastKey.gauge = ⟨1, ⟨2, by decide⟩, ⟨0, 1⟩, .steady⟩ ∧
      (lastKey.erase plenty 0).table.gauge =
        ⟨0, ⟨1, by decide⟩, ⟨0, 1⟩, .shrank 181 79⟩ := by
    rw [Gauge.ext_iff, Gauge.ext_iff]
    decide +kernel
  simp only [gauge, Gauge.mk.injEq] at hgauges
  obtain ⟨⟨hsize, hlevel, hband, -⟩, hsize', hlevel', hband', hstep⟩ := hgauges
  refine ⟨?_, reachable_lastKey, ?_, fun _ => ?_, hsize', ?_, ?_⟩
  · rw [hband]
    decide +kernel
  · rw [Inside, hsize, hlevel, hband]
    decide +kernel
  · rw [hstep]
    nofun
  · rw [hlevel']
    decide
  · rw [Inside, hsize', hlevel', hband']
    decide +kernel

end Table

end ChainedTable
