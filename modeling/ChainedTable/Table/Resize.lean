import ChainedTable.Table.Basic

/-!
# ChainedTable.Table.Resize

Density steps.

`Table.densityStep` asks `DensityBand.target?` where to go and moves the
entries there. If the bucket array for the new level is refused, the table
stays as it is, and the step is recorded as abandoned. Every step is recorded,
also one that found nothing to do.

`Table.restoreBand` repeats the step until it does not resize. From any level
there are fewer levels on either side than there are levels, so that many
steps are enough.
-/

namespace ChainedTable

namespace Table

variable {F ε K KS V VS : Type} {κ : Keeper} {p : Policies ε K KS V VS κ}

/-- Moves all entries to the bucket array of another level, if it is granted. -/
def resize (t : Table F p) (supply : Supply ε) (target : Level) : Outcome F p StepOutcome :=
  let before := t.buckets
  let after := target.buckets
  if supply.buckets after then
    let step := if t.level < target then .grew before after else .shrank before after
    let moved : Table F p :=
      { t with toChains := t.toChains.rehash after, level := target, lastStep := step }
    ⟨step, moved, [.noticed (.rehashed moved.size before after target.val)]⟩
  else
    let step := .abandoned before after
    ⟨step, { t with lastStep := step }, [.noticed (.abandoned before after)]⟩

/-- One density step. -/
def densityStep [Scale F] (t : Table F p) (supply : Supply ε) : Outcome F p StepOutcome :=
  match t.band.target? t.level t.size with
  | some target => t.resize supply target
  | none => ⟨.steady, { t with lastStep := .steady }, []⟩

/-- A bounded number of density steps, up to the first that does not resize. -/
def restoreBandWithin [Scale F] (supply : Supply ε) :
    Nat → Table F p → Outcome F p StepOutcome
  | 0, t => ⟨t.lastStep, t, []⟩
  | bound + 1, t =>
    let step := t.densityStep supply
    if step.answer.resized then
      (restoreBandWithin supply bound step.table).after step.journal
    else
      step

/-- Density steps up to the first that does not resize. A refusal at the end
is worth a notice, for it leaves the table outside its band. -/
def restoreBand [Scale F] (t : Table F p) (supply : Supply ε) : Outcome F p StepOutcome :=
  let restored := restoreBandWithin supply levelCount t
  match restored.answer with
  | .abandoned before wanted =>
    ⟨restored.answer, restored.table,
      restored.journal ++ [.noticed (.unsettled restored.table.size before wanted)]⟩
  | _ => restored

/-! ## what a step keeps and records -/

/-- A resize answers what it records. -/
theorem lastStep_resize (t : Table F p) (supply : Supply ε) (target : Level) :
    (t.resize supply target).table.lastStep = (t.resize supply target).answer := by
  simp only [resize]
  split <;> rfl

/-- A step answers what it records. -/
theorem lastStep_densityStep [Scale F] (t : Table F p) (supply : Supply ε) :
    (t.densityStep supply).table.lastStep = (t.densityStep supply).answer := by
  unfold densityStep
  split
  · exact lastStep_resize ..
  · rfl

/-- A resize leaves the band as it was chosen. -/
theorem band_resize (t : Table F p) (supply : Supply ε) (target : Level) :
    (t.resize supply target).table.band = t.band := by
  simp only [resize]
  split <;> rfl

/-- A step leaves the band as it was chosen. -/
theorem band_densityStep [Scale F] (t : Table F p) (supply : Supply ε) :
    (t.densityStep supply).table.band = t.band := by
  unfold densityStep
  split
  · exact band_resize ..
  · rfl

/-- Without a target the table only records that it is steady. -/
theorem densityStep_of_target?_eq_none [Scale F] {t : Table F p} (supply : Supply ε)
    (h : t.band.target? t.level t.size = none) :
    t.densityStep supply = ⟨.steady, { t with lastStep := .steady }, []⟩ := by
  unfold densityStep
  rw [h]

end Table

end ChainedTable
