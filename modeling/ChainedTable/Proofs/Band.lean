import ChainedTable.Proofs.DensityRule
import ChainedTable.Proofs.Gauge

/-!
# ChainedTable.Proofs.Band

Tables stay inside the default band.

As long as no bucket array is refused, a table with the default band is under
the upper end after every request. It is over the lower end too, but for what
clearing does: that takes all entries away, and no level down. The density is
back at the next density step that finds nothing to do, or after the next walk
that removes an entry. `Phase` tells how far a run has come in this, and
`Request.phaseAfter` what a request does to it.

What holds at one end after one step is proved in `ChainedTable.Proofs.DensityRule`.
Here it is carried along a run, with gauges for tables (`Kept.moves`).
-/

namespace ChainedTable

variable {F ε K KS V VS σ ω : Type} {κ : Keeper} {p : Policies ε K KS V VS κ}

/-! ## refusals -/

/-- The step found its bucket array, or had no need of one. -/
def StepOutcome.Granted (step : StepOutcome) : Prop :=
  ∀ before wanted, step ≠ .abandoned before wanted

/-- Whether the event tells of a bucket array that was refused. -/
def Event.isRefusal : Event K KS V VS → Bool
  | .noticed (.abandoned ..) => true
  | _ => false

/-- No bucket array was refused: the journal tells of none. -/
def NothingRefused (events : List (Event K KS V VS)) : Prop :=
  ∀ event ∈ events, event.isRefusal = false

instance (events : List (Event K KS V VS)) : Decidable (NothingRefused events) :=
  inferInstanceAs (Decidable (∀ event ∈ events, event.isRefusal = false))

namespace Table

variable [Scale F] {t t' : Table F p} {events : List (Event K KS V VS)}

theorem granted_densityStep {supply : Supply ε}
    (h : NothingRefused (t.densityStep supply).journal) :
    (t.densityStep supply).table.lastStep.Granted := by
  rw [lastStep_densityStep]
  unfold densityStep resize at h ⊢
  split at h
  · next target _ =>
      dsimp only at h ⊢
      split at h
      · next hgranted =>
          rw [if_pos hgranted]
          dsimp only
          split <;> nofun
      · exact absurd (h _ (List.mem_singleton.mpr rfl)) (by simp [Event.isRefusal])
  · nofun

/-- A refusal that is on record was there before, or the journal tells of it. -/
theorem Edits.granted (hedits : Edits t events t') (hrefused : NothingRefused events)
    (h : t.lastStep.Granted) : t'.lastStep.Granted := by
  induction hedits with
  | nil => exact h
  | cons hedit _ ih =>
      refine ih (fun event hevent => hrefused event (List.mem_append_right _ hevent)) ?_
      have hrefused := fun event hevent => hrefused event (List.mem_append_left _ hevent)
      cases hedit with
      | step supply => exact granted_densityStep hrefused
      | remark | room | giveBack | link | value | take | erase | clear => exact h

end Table

/-! ## steps of a gauge -/

namespace Gauge

variable {g : Gauge Rat} {granted : Nat → Bool}

/-- A step that was granted is to the level that the rule names. -/
theorem level_step (h : (g.step granted).lastStep.Granted) :
    (g.step granted).level = g.band.next g.level g.size := by
  unfold step resize at h ⊢
  unfold DensityBand.next
  split at h
  · next target htarget =>
      rw [htarget]
      dsimp only at h ⊢
      split at h
      · next hgranted =>
          rw [if_pos hgranted]
          rfl
      · exact absurd rfl (h _ _)
  · next htarget => rw [htarget]; rfl

/-- A step that finds nothing to do is taken inside the band. -/
theorem inside_of_steady (h : (g.step granted).lastStep = .steady) :
    g.band.Inside g.level g.size := by
  refine DensityBand.target?_eq_none_iff.mp ?_
  unfold step resize at h
  split at h
  · dsimp only at h
    split at h
    · dsimp only at h
      split at h <;> contradiction
    · contradiction
  · next htarget => exact htarget

theorem level_of_steady (h : (g.step granted).lastStep = .steady) :
    (g.step granted).level = g.level := by
  have hnone := DensityBand.target?_eq_none_iff.mpr (inside_of_steady h)
  unfold step
  rw [hnone]

/-- A step that resizes found its bucket array. -/
theorem granted_of_resized {step : StepOutcome} (h : step.resized = true) : step.Granted := by
  rintro before wanted rfl
  contradiction

/-- A step that was granted and does not resize finds nothing to do. -/
theorem steady_of_not_resized {step : StepOutcome} (hgranted : step.Granted)
    (h : step.resized = false) : step = .steady := by
  cases step with
  | steady => rfl
  | grew | shrank => contradiction
  | abandoned before wanted => exact absurd rfl (hgranted before wanted)

/-- From under the upper end, a step that resizes goes one level down. -/
theorem val_level_of_resized (hbelow : g.band.Below g.level g.size)
    (h : (g.step granted).lastStep.resized = true) :
    (g.step granted).level.val + 1 = g.level.val := by
  rw [level_step (granted_of_resized h)]
  obtain ⟨-, hin⟩ | ⟨hdown, -⟩ | ⟨-, -, hunder⟩ := DensityBand.next_cases g.band g.level g.size
  · have hnone := DensityBand.target?_eq_none_iff.mpr hin
    simp [step, hnone, StepOutcome.resized] at h
  · exact Level.val_of_down? hdown
  · exact absurd hbelow hunder

/-- From under the upper end, steps that are granted lead into the band: each
goes down, so there are no more of them than levels. -/
theorem inside_settle (hband : g.band.Accepted) {bound : Nat} (hbound : g.level.val < bound)
    (hbelow : g.band.Below g.level g.size)
    (hgranted : (g.settle granted bound).lastStep.Granted) :
    g.band.Inside (g.settle granted bound).level g.size := by
  induction bound generalizing g with
  | zero => omega
  | succ bound ih =>
      unfold settle at hgranted ⊢
      split at hgranted
      · next hresized =>
          rw [if_pos hresized]
          have hlower := val_level_of_resized hbelow hresized
          have hbelow' := hband.below_next hbelow
          rw [← level_step (granted_of_resized hresized)] at hbelow'
          have hrest := ih (g := g.step granted) (by rwa [band_step]) (by omega)
            (by rwa [band_step, size_step]) hgranted
          rwa [band_step, size_step] at hrest
      · next hresized =>
          rw [if_neg hresized]
          have hsteady := steady_of_not_resized hgranted (by simpa using hresized)
          rw [level_of_steady hsteady]
          exact inside_of_steady hsteady

end Gauge

/-! ## phases -/

/-- How far a run has come since the table was cleared. -/
inductive Phase where
  /-- The table was never cleared. -/
  | untouched
  /-- It was cleared, and nothing has brought the density back since. -/
  | cleared
  /-- It was cleared, and the density is back. -/
  | recovered
deriving DecidableEq, Repr

/-- Whether a request brings the density back: a walk that removes an entry, and
a density step that finds nothing to do. A key that comes or goes takes a step. -/
def Request.recovers (before after : Gauge F) : Request F ε K V VS σ ω → Bool
  | walk _ _ => after.size < before.size
  | densityStep => after.lastStep = .steady
  | insert _ _ | openSlot _ _ | take _ | erase _ =>
    after.size ≠ before.size ∧ after.lastStep = .steady
  | contains _ | lookUp _ | clear => false

/-- The phase after a request. -/
def Request.phaseAfter (before after : Gauge F) (request : Request F ε K V VS σ ω)
    (phase : Phase) : Phase :=
  match request with
  | clear => .cleared
  | _ => if phase = .cleared ∧ request.recovers before after then .recovered else phase

/-- A request that does not leave the table as cleared found it so, or has
brought the density back. -/
theorem Request.ne_cleared_or_recovers {before after : Gauge F} {phase : Phase}
    (request : Request F ε K V VS σ ω)
    (h : request.phaseAfter before after phase ≠ .cleared) :
    phase ≠ .cleared ∨ request.recovers before after = true := by
  unfold phaseAfter at h
  grind

/-! ## the invariant -/

/-- A gauge with the default band is on the right side of its ends. -/
structure Gauge.Kept (g : Gauge Rat) (phase : Phase) : Prop where
  band : g.band = .default
  granted : g.lastStep.Granted
  below : g.band.Below g.level g.size
  above : phase ≠ .cleared → g.band.Above g.level g.size

namespace Gauge.Kept

open DensityBand

variable {g : Gauge Rat} {phase : Phase} {granted : Nat → Bool} {size : Nat}

theorem accepted (h : g.Kept phase) : g.band.Accepted := by
  rw [h.band]
  exact accepted_default

theorem bound_le_low (h : g.Kept phase) : 2 / 359 ≤ g.band.low := by
  rw [h.band]
  exact bound_le_low_default

/-- What is known before a request that changes nothing is known after it. -/
theorem still (h : g.Kept phase) {phase' : Phase}
    (hphase : phase' ≠ .cleared → phase ≠ .cleared) : g.Kept phase' :=
  ⟨h.band, h.granted, h.below, fun hne => h.above (hphase hne)⟩

/-- A step that was granted: at each end, what the rule does there. The lower
end is also known to hold if the step found nothing to do. -/
theorem of_step (phase : Phase) {phase' : Phase} (hband : g.band = .default)
    (hgranted : (g.step granted).lastStep.Granted)
    (hbelow : g.band.Below (g.band.next g.level g.size) g.size)
    (habove : phase ≠ .cleared → g.band.Above (g.band.next g.level g.size) g.size)
    (hphase : phase' ≠ .cleared → phase ≠ .cleared ∨ (g.step granted).lastStep = .steady) :
    (g.step granted).Kept phase' where
  band := by rw [band_step, hband]
  granted := hgranted
  below := by
    rw [level_step hgranted, band_step, size_step]
    exact hbelow
  above hne := by
    rw [band_step, size_step]
    rcases hphase hne with hbefore | hsteady
    · rw [level_step hgranted]
      exact habove hbefore
    · rw [level_of_steady hsteady]
      exact (inside_of_steady hsteady).1

/-- Steps after a walk that has taken entries away lead into the band. -/
theorem of_settle (h : g.Kept phase) {phase' : Phase} {size : Nat} (hsize : size ≤ g.size)
    (hgranted : ({ g with size }.settle granted levelCount).lastStep.Granted) :
    ({ g with size }.settle granted levelCount).Kept phase' := by
  have hin := inside_settle (g := { g with size }) h.accepted g.level.isLt (h.below.of_le hsize)
    hgranted
  refine ⟨?_, hgranted, ?_, fun _ => ?_⟩
  · rw [band_settle, h.band]
  · rw [band_settle, size_settle]
    exact hin.2
  · rw [band_settle, size_settle]
    exact hin.1

/-- **A request keeps the gauge in its band**, unless a bucket array is refused. -/
theorem moves (h : g.Kept phase) {g' : Gauge Rat} {request : Request Rat ε K V VS σ ω}
    (hmoves : request.Moves granted g g') (hgranted : g'.lastStep.Granted) :
    g'.Kept (request.phaseAfter g g' phase) := by
  have hphase : request.phaseAfter g g' phase ≠ .cleared →
      phase ≠ .cleared ∨ request.recovers g g' = true := request.ne_cleared_or_recovers
  cases request with
  | insert | openSlot =>
      rcases hmoves with rfl | rfl
      · exact h.still (by simpa [Request.recovers] using hphase)
      · refine of_step phase h.band hgranted (h.accepted.below_next_succ h.below)
          (fun hne => ?_) fun hne => (hphase hne).imp_right fun hrec => ?_
        · exact h.accepted.above_next (Nat.succ_pos _) ((h.above hne).of_le (Nat.le_succ _))
        · exact (of_decide_eq_true hrec).2
  | take | erase =>
      rcases hmoves with rfl | ⟨size, hsize, rfl⟩
      · exact h.still (by simpa [Request.recovers] using hphase)
      · refine of_step phase h.band hgranted
          (h.accepted.below_next (h.below.of_le (hsize ▸ Nat.le_succ size)))
          (fun hne => ?_) fun hne => (hphase hne).imp_right fun hrec => ?_
        · exact above_next_pred h.bound_le_low (hsize ▸ h.above hne) (hsize ▸ h.below)
        · exact (of_decide_eq_true hrec).2
  | contains | lookUp =>
      rcases hmoves with rfl
      exact h.still (by simpa [Request.recovers] using hphase)
  | clear =>
      rcases hmoves with rfl
      exact ⟨h.band, hgranted, h.below.of_le (Nat.zero_le _), fun hne => absurd rfl hne⟩
  | densityStep =>
      rcases hmoves with rfl
      refine of_step phase h.band hgranted (h.accepted.below_next h.below)
        (fun hne => ?_) fun hne => (hphase hne).imp_right of_decide_eq_true
      rw [next_eq_self ⟨h.above hne, h.below⟩]
      exact h.above hne
  | walk =>
      rcases hmoves with rfl | ⟨size, hsize, rfl⟩
      · exact h.still (by simpa [Request.recovers] using hphase)
      · exact h.of_settle hsize.le hgranted

end Gauge.Kept

/-! ## runs -/

namespace Table

/-- A run of requests on a new table with the default band, in which no bucket
array is refused: the table that it ends with, and the phase it is in. -/
inductive Unrefused : Table Rat p → Phase → Prop where
  | made {t : Table Rat p} (supply : Supply ε) : make supply = .ok t → Unrefused t .untouched
  | request {t : Table Rat p} {phase : Phase} {σ ω : Type} (supply : Supply ε)
    (request : Request Rat ε K V VS σ ω) : Unrefused t phase →
      NothingRefused (request.run supply t).journal →
      Unrefused (request.run supply t).table
        (request.phaseAfter t.gauge (request.run supply t).table.gauge phase)

/-- Where the size of a table is, as its buckets go. -/
structure WithinBand (t : Table Rat p) (phase : Phase) : Prop where
  /-- Less than two entries per bucket, unless there is no level above. -/
  below : t.size < 2 * t.buckets ∨ t.level = .top
  /-- More than one entry per four buckets, unless there is no level below. -/
  above : phase ≠ .cleared → t.buckets < 4 * t.size ∨ t.level = .bottom
  /-- A table that was never cleared and has no entries is all the way down. -/
  drained : phase = .untouched → t.size = 0 → t.level = .bottom

variable {t : Table Rat p} {phase : Phase}

theorem Unrefused.sound (h : Unrefused t phase) : t.Sound := by
  induction h with
  | made supply hmade =>
      rw [eq_empty_of_withBand hmade]
      exact .empty _
  | request supply request _ _ ih => exact ih.run supply request

theorem Unrefused.kept (h : Unrefused t phase) : t.gauge.Kept phase := by
  induction h with
  | made supply hmade =>
      obtain ⟨habove, hbelow⟩ := DensityBand.inside_default_bottom
      rw [eq_empty_of_withBand hmade, gauge_empty]
      exact ⟨rfl, nofun, hbelow, fun _ => habove⟩
  | @request t _ _ _ supply request hrun hrefused ih =>
      have hsound := hrun.sound
      exact ih.moves (hsound.moves_run supply request)
        ((hsound.edits_run supply request).granted hrefused ih.granted)

/-- **A table with the default band stays inside it**, from clearing to clearing
and at the upper end always. -/
theorem withinBand_of_unrefused (h : Unrefused t phase) : t.WithinBand phase := by
  have hkept := h.kept
  have hbuckets : t.buckets = t.level.buckets := h.sound.buckets
  have hband : t.gauge.band = .default := hkept.band
  have hbelow := hkept.below
  have habove := hkept.above
  rw [hband, DensityBand.below_default_iff] at hbelow
  simp only [hband, DensityBand.above_default_iff] at habove
  refine ⟨?_, fun hne => ?_, fun huntouched hzero => ?_⟩
  · rw [hbuckets]
    exact hbelow.symm
  · rw [hbuckets]
    exact (habove hne).symm
  · have hover : t.level = Level.bottom ∨ t.level.buckets < 4 * t.size :=
      habove (huntouched ▸ nofun)
    exact hover.resolve_right (by omega)

/-- The phase after requests in order. -/
def phaseAfterAll (t : Table Rat p) (phase : Phase) :
    List (Supply ε × Request Rat ε K V VS σ ω) → Phase
  | [] => phase
  | (supply, request) :: rest =>
    let t' := (request.run supply t).table
    t'.phaseAfterAll (request.phaseAfter t.gauge t'.gauge phase) rest

theorem Unrefused.runAll (h : Unrefused t phase)
    {requests : List (Supply ε × Request Rat ε K V VS σ ω)}
    (hrefused : NothingRefused (t.runAll requests).journal) :
    Unrefused (t.runAll requests).table (t.phaseAfterAll phase requests) := by
  induction requests generalizing t phase with
  | nil => exact h
  | cons first rest ih =>
      have hfirst : NothingRefused (first.2.run first.1 t).journal := fun event hevent =>
        hrefused event (List.mem_append_left _ hevent)
      exact ih (h.request first.1 first.2 hfirst) fun event hevent =>
        hrefused event (List.mem_append_right _ hevent)

/-- A run in which a table grows, is cleared, comes down with the first key after that,
is inside the band with the second, and grows once more. -/
def recovery : List (Supply Unit × Request Rat Unit Nat Nat Nat Unit Unit) :=
  let grow := (List.range 74).map fun key => (plenty, .insert key none)
  grow ++ (plenty, .clear) :: grow

/-- What comes of this run. -/
def restored : Outcome Rat spread (List (Reply Nat Nat Unit Unit)) :=
  (empty .default).runAll recovery

theorem withinBand_restored :
    restored.table.Unrefused .recovered ∧
      restored.table.gauge = ⟨74, ⟨1, by decide⟩, .default, .grew 37 79⟩ ∧
      restored.table.WithinBand .recovered := by
  have hmade : Unrefused (empty .default : Table Rat spread) .untouched := .made plenty rfl
  obtain ⟨hrefused, hphase, hgauge⟩ : NothingRefused restored.journal ∧
      (empty .default : Table Rat spread).phaseAfterAll .untouched recovery = .recovered ∧
      restored.table.gauge = ⟨74, ⟨1, by decide⟩, .default, .grew 37 79⟩ := by
    rw [Gauge.ext_iff]
    decide +kernel
  have hrun : restored.table.Unrefused .recovered := hphase ▸ hmade.runAll hrefused
  exact ⟨hrun, hgauge, withinBand_of_unrefused hrun⟩

end Table

end ChainedTable
