import ChainedTable.Proofs.Effects

/-!
# ChainedTable.Proofs.Gauge

What density steps look at, and what requests do to it.

A density step looks at the number of entries, the level and the band. A
`Gauge` holds these and the record of the last step, and forgets the entries.
On gauges a step is arithmetic (`Gauge.step`), and so is bringing the density
back into its band (`Gauge.settle`).

Nothing else decides on the level of a table: every request moves the gauge of
a sound table in one of the few ways that `Request.Moves` lists for it
(`Sound.moves_run`). So the density of tables is studied on gauges.
-/

namespace ChainedTable

variable {F ε K KS V VS σ ω : Type} {κ : Keeper} {p : Policies ε K KS V VS κ}

/-- The number of entries of a table, and what it needs to know for a density
step. -/
@[ext] structure Gauge (F : Type) where
  size : Nat
  level : Level
  band : DensityBand F
  /-- Outcome of the most recent density step. -/
  lastStep : StepOutcome

namespace Gauge

variable [Scale F]

/-- A move to another level, if its bucket array is granted. -/
def resize (granted : Nat → Bool) (target : Level) (g : Gauge F) : Gauge F :=
  let before := g.level.buckets
  let after := target.buckets
  if granted after then
    { g with
      level := target
      lastStep := if g.level < target then .grew before after else .shrank before after }
  else { g with lastStep := .abandoned before after }

/-- One density step. -/
def step (granted : Nat → Bool) (g : Gauge F) : Gauge F :=
  match g.band.target? g.level g.size with
  | some target => g.resize granted target
  | none => { g with lastStep := .steady }

/-- A bounded number of density steps, up to the first that does not resize. -/
def settle (granted : Nat → Bool) : Nat → Gauge F → Gauge F
  | 0, g => g
  | bound + 1, g =>
    if (g.step granted).lastStep.resized then settle granted bound (g.step granted)
    else g.step granted

variable (granted : Nat → Bool) (g : Gauge F)

@[simp] theorem size_step : (g.step granted).size = g.size := by
  unfold step resize
  split
  · dsimp only
    split <;> rfl
  · rfl

@[simp] theorem band_step : (g.step granted).band = g.band := by
  unfold step resize
  split
  · dsimp only
    split <;> rfl
  · rfl

@[simp] theorem size_settle (bound : Nat) : (g.settle granted bound).size = g.size := by
  induction bound generalizing g with
  | zero => rfl
  | succ bound ih =>
      unfold settle
      split
      · rw [ih, size_step]
      · exact size_step granted g

@[simp] theorem band_settle (bound : Nat) : (g.settle granted bound).band = g.band := by
  induction bound generalizing g with
  | zero => rfl
  | succ bound ih =>
      unfold settle
      split
      · rw [ih, band_step]
      · exact band_step granted g

end Gauge

/-- How a request can move a gauge. -/
def Request.Moves [Scale F] (granted : Nat → Bool) (before after : Gauge F) :
    Request F ε K V VS σ ω → Prop
  | insert _ _ | openSlot _ _ =>
    after = before ∨ after = { before with size := before.size + 1 }.step granted
  | take _ | erase _ =>
    after = before ∨
      ∃ size, before.size = size + 1 ∧ after = { before with size }.step granted
  | contains _ | lookUp _ => after = before
  | clear => after = { before with size := 0 }
  | densityStep => after = before.step granted
  | walk _ _ =>
    after = before ∨
      ∃ size < before.size, after = { before with size }.settle granted levelCount

/-- No request changes the band. -/
theorem Request.Moves.band_eq [Scale F] {granted : Nat → Bool} {before after : Gauge F}
    {request : Request F ε K V VS σ ω} (h : request.Moves granted before after) :
    after.band = before.band := by
  cases request with
  | insert | openSlot => rcases h with rfl | rfl <;> simp
  | take | erase => rcases h with rfl | ⟨size, _, rfl⟩ <;> simp
  | contains | lookUp | clear => rw [show after = _ from h]
  | densityStep => rw [show after = _ from h, Gauge.band_step]
  | walk => rcases h with rfl | ⟨size, _, rfl⟩ <;> simp

namespace Table

/-- The gauge of a table. -/
def gauge (t : Table F p) : Gauge F where
  size := t.size
  level := t.level
  band := t.band
  lastStep := t.lastStep

@[simp] theorem gauge_empty (band : DensityBand F) :
    (empty band : Table F p).gauge = ⟨0, .bottom, band, .steady⟩ :=
  Gauge.ext (size_empty band) rfl rfl rfl

variable {t t' : Table F p}

namespace Sound

/-! ## density steps -/

/-- A resize of a table is one of its gauge. -/
theorem gauge_resize (h : t.Sound) (supply : Supply ε) (target : Level) :
    (t.resize supply target).table.gauge = t.gauge.resize supply.buckets target := by
  have hsize := h.size_eq_of_holding? (h.resize supply target) (h.holding?_resize supply target)
  have hbuckets : t.buckets = t.level.buckets := h.buckets
  unfold Table.resize at hsize ⊢
  unfold Gauge.resize
  by_cases hgranted : supply.buckets target.buckets = true
  · simp only [hgranted, if_true, hbuckets] at hsize ⊢
    exact Gauge.ext hsize rfl rfl rfl
  · simp only [hgranted, hbuckets] at hsize ⊢
    rfl

variable [Scale F]

/-- A density step of a table is one of its gauge. -/
theorem gauge_densityStep (h : t.Sound) (supply : Supply ε) :
    (t.densityStep supply).table.gauge = t.gauge.step supply.buckets := by
  have htarget : t.gauge.band.target? t.gauge.level t.gauge.size =
      t.band.target? t.level t.size := rfl
  unfold Table.densityStep Gauge.step
  rw [htarget]
  cases t.band.target? t.level t.size with
  | some target => exact h.gauge_resize supply target
  | none => rfl

theorem gauge_restoreBandWithin (h : t.Sound) (supply : Supply ε) (bound : Nat) :
    (restoreBandWithin supply bound t).table.gauge = t.gauge.settle supply.buckets bound := by
  induction bound generalizing t with
  | zero => rfl
  | succ bound ih =>
      have hstep := h.gauge_densityStep supply
      have hanswer : (t.gauge.step supply.buckets).lastStep = (t.densityStep supply).answer := by
        rw [← hstep]
        exact lastStep_densityStep t supply
      unfold restoreBandWithin Gauge.settle
      rw [hanswer]
      dsimp only
      split
      · rw [← hstep]
        exact ih (h.densityStep supply)
      · exact hstep

theorem gauge_restoreBand (h : t.Sound) (supply : Supply ε) :
    (t.restoreBand supply).table.gauge = t.gauge.settle supply.buckets levelCount := by
  unfold restoreBand
  dsimp only
  split <;> exact h.gauge_restoreBandWithin supply levelCount

/-! ## requests -/

omit [Scale F] in
/-- A table that lost no entry has the gauge that it had. -/
theorem gauge_trims (h : t.Trims t') : t'.gauge = { t.gauge with size := t'.size } :=
  Gauge.ext rfl h.level h.band h.lastStep

/-- **A request moves the gauge** of a sound table in one of the ways that are
listed for it. -/
theorem moves_run (h : t.Sound) (supply : Supply ε) (request : Request F ε K V VS σ ω) :
    request.Moves supply.buckets t.gauge (request.run supply t).table.gauge := by
  have heffect := h.effect_run supply request
  generalize (request.run supply t).table = t' at heffect ⊢
  cases heffect with
  | rests hrests htrims hsize =>
      have hgauge : t'.gauge = t.gauge := by
        rw [gauge_trims htrims, hsize]
        rfl
      rw [hgauge]
      cases request with
      | insert | openSlot | take | erase | walk => exact .inl rfl
      | contains | lookUp => exact rfl
      | clear | densityStep => exact hrests.elim
  | @comes _ _ arena _ key storedKey value _ hmakes hfound hroom _ htrims hsize =>
      have hlinked := h.linkNew hroom hfound storedKey value
      have hgauge : t'.gauge = { t.gauge with size := t.gauge.size + 1 }.step supply.buckets := by
        have hlink : (t.linkNew arena key storedKey value).gauge =
            { t.gauge with size := t.gauge.size + 1 } :=
          Gauge.ext (h.size_linkNew hroom hfound storedKey value) rfl rfl rfl
        rw [gauge_trims htrims, hsize, ← hlink, ← hlinked.gauge_densityStep supply]
        rfl
      cases request with
      | insert | openSlot => exact .inr hgauge
      | contains | lookUp | take | erase | clear | densityStep | walk => exact hmakes.elim
  | @leaves _ rest hremoves htrims hrest hsize =>
      have hgauge : (rest.densityStep supply).table.gauge =
          { t.gauge with size := rest.size }.step supply.buckets := by
        rw [hrest.gauge_densityStep supply, gauge_trims htrims]
      cases request with
      | take | erase => exact .inr ⟨rest.size, hsize, hgauge⟩
      | insert | openSlot | contains | lookUp | clear | densityStep | walk => exact hremoves.elim
  | clears => exact Gauge.ext h.size_clear rfl rfl rfl
  | steps => exact h.gauge_densityStep supply
  | @walks _ _ rest htrims hrest hlt =>
      refine .inr ⟨rest.size, hlt, ?_⟩
      rw [hrest.gauge_restoreBand supply, gauge_trims htrims]

end Sound

end Table

end ChainedTable
