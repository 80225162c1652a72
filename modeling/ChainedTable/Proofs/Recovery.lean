import ChainedTable.Proofs.Drift

/-!
# ChainedTable.Proofs.Recovery

How a table comes back into the default band.

Clearing takes all entries away and no level down, and a resize that is refused
leaves the level behind the size. Afterwards a table can be any number of levels
away from where its size belongs, and one level is all that one change can make
up for. It is enough that every change makes up for one:

1. from under the lower end a change leads one level down, and from over the
   upper end one level up (`Shifts.sinks`, `Shifts.rises`), unless it leads
   inside;
2. a change moves the size by one, and the two ends are too far apart for one
   entry to lead from one to the other (`Accepted.below_succ`), so the
   direction never turns;
3. there are only so many levels that way.
-/

namespace ChainedTable

variable {ε K KS V VS σ ω : Type} {κ : Keeper} {p : Policies ε K KS V VS κ}

namespace Level

theorem le_buckets (level : Level) : 37 ≤ level.buckets := by
  revert level
  decide

theorem val_of_up? {lower higher : Level} (h : lower.up? = some higher) :
    higher.val = lower.val + 1 := by
  revert lower higher
  decide

end Level

namespace DensityBand.Accepted

variable {band : DensityBand Rat} {level : Level} {n : Nat}

/-- One entry does not lead from one end of a band to the other. -/
theorem below_succ (hband : band.Accepted) (hover : ¬band.Above level n) :
    band.Below level (n + 1) := by
  have hbuckets : (37 : Rat) ≤ level.buckets := by exact_mod_cast level.le_buckets
  have hhigh := hband.one_le_high
  have hfour := hband.four_mul_low_le
  simp only [above_iff, not_or, not_lt] at hover
  refine below_iff.mpr (.inr ?_)
  push_cast
  calc (n : Rat) + 1
    _ ≤ band.low * level.buckets + 1 := by linarith [hover.2]
    _ ≤ band.high / 4 * level.buckets + 1 := by
        gcongr
        linarith
    _ < band.high * level.buckets := by nlinarith

theorem pos_of_not_below (hband : band.Accepted) (hunder : ¬band.Below level n) : 0 < n := by
  by_contra hzero
  obtain rfl : n = 0 := by omega
  have hbuckets : (37 : Rat) ≤ level.buckets := by exact_mod_cast level.le_buckets
  refine hunder (below_iff.mpr (.inr ?_))
  push_cast
  nlinarith [hband.one_le_high]

end DensityBand.Accepted

/-! ## gauges -/

namespace Gauge

variable {g g' : Gauge Rat} {n : Nat}

/-- **From under the lower end** a change leads inside, or one level down. -/
theorem Shifts.sinks (h : g.Shifts g') (hband : g.band.Accepted)
    (hover : ¬g.band.Above g.level g.size) :
    g'.Inside ∨ (¬g'.band.Above g'.level g'.size ∧ g'.level.val + 1 = g.level.val) := by
  have hle : g'.size ≤ g.size + 1 := by
    rcases h.size with hsize | hsize <;> omega
  have hbelow : g.band.Below g.level g'.size := (hband.below_succ hover).of_le hle
  rw [Inside, h.band, h.level]
  obtain ⟨hsame, hin⟩ | ⟨hdown, hout⟩ | ⟨-, -, hunder⟩ :=
    DensityBand.next_cases g.band g.level g'.size
  · rw [hsame]
    exact .inl hin
  · by_cases habove : g.band.Above (g.band.next g.level g'.size) g'.size
    · exact .inl ⟨habove, hband.below_of_down? hdown hout⟩
    · exact .inr ⟨habove, Level.val_of_down? hdown⟩
  · exact absurd hbelow hunder

/-- **From over the upper end** a change leads inside, or one level up. -/
theorem Shifts.rises (h : g.Shifts g') (hband : g.band.Accepted)
    (hunder : ¬g.band.Below g.level g.size) :
    g'.Inside ∨ (¬g'.band.Below g'.level g'.size ∧ g'.level.val = g.level.val + 1) := by
  have hle : g.size ≤ g'.size + 1 := by
    rcases h.size with hsize | hsize <;> omega
  have habove : g.band.Above g.level g'.size := by
    by_contra hover
    exact hunder ((hband.below_succ hover).of_le hle)
  rw [Inside, h.band, h.level]
  obtain ⟨hsame, hin⟩ | ⟨-, hover⟩ | ⟨hup, -, hout⟩ :=
    DensityBand.next_cases g.band g.level g'.size
  · rw [hsame]
    exact .inl hin
  · exact absurd habove hover
  · by_cases hbelow : g.band.Below (g.band.next g.level g'.size) g'.size
    · exact .inl ⟨hband.above_of_up? hup (hband.pos_of_not_below hout) hout, hbelow⟩
    · exact .inr ⟨hbelow, Level.val_of_up? hup⟩

/-- Changes from under the lower end: as many levels down, until one leads inside. -/
theorem Drifts.sinks (h : g.Drifts n g') (hband : g.band = .default)
    (hover : ¬g.band.Above g.level g.size) :
    g'.Inside ∨ (¬g'.band.Above g'.level g'.size ∧ g'.level.val + n = g.level.val) := by
  induction h with
  | refl => exact .inr ⟨hover, rfl⟩
  | rest hrest _ ih =>
      rw [← hrest.band, ← hrest.level, ← hrest.size] at hover
      rw [← hrest.level]
      exact ih (hrest.band.trans hband) hover
  | shift hshift hdrifts ih =>
      have hband' := hshift.band.trans hband
      rcases hshift.sinks (hband ▸ DensityBand.accepted_default) hover with hin | ⟨hout, hlevel⟩
      · exact .inl (hdrifts.inside_of_default hband' hin)
      · exact (ih hband' hout).imp_right (And.imp_right fun hsum => by omega)

/-- Changes from over the upper end: as many levels up, until one leads inside. -/
theorem Drifts.rises (h : g.Drifts n g') (hband : g.band = .default)
    (hunder : ¬g.band.Below g.level g.size) :
    g'.Inside ∨ (¬g'.band.Below g'.level g'.size ∧ g'.level.val = g.level.val + n) := by
  induction h with
  | refl => exact .inr ⟨hunder, rfl⟩
  | rest hrest _ ih =>
      rw [← hrest.band, ← hrest.level, ← hrest.size] at hunder
      rw [← hrest.level]
      exact ih (hrest.band.trans hband) hunder
  | shift hshift hdrifts ih =>
      have hband' := hshift.band.trans hband
      rcases hshift.rises (hband ▸ DensityBand.accepted_default) hunder with hin | ⟨hout, hlevel⟩
      · exact .inl (hdrifts.inside_of_default hband' hin)
      · exact (ih hband' hout).imp_right (And.imp_right fun hsum => by omega)

/-- After as many changes as there are levels on either side the gauge is inside. -/
theorem Drifts.inside_of_le (h : g.Drifts n g') (hband : g.band = .default)
    (hn : max g.level.val (Level.top.val - g.level.val) ≤ n) : g'.Inside := by
  have hband' := h.band_eq.trans hband
  by_cases habove : g.band.Above g.level g.size
  · by_cases hbelow : g.band.Below g.level g.size
    · exact h.inside_of_default hband ⟨habove, hbelow⟩
    · refine (h.rises hband hbelow).resolve_right fun ⟨hout, hlevel⟩ => ?_
      refine hout (.inl (Fin.ext ?_))
      have hlt := g'.level.isLt
      have htop : Level.top.val + 1 = levelCount := rfl
      omega
  · refine (h.sinks hband habove).resolve_right fun ⟨hout, hlevel⟩ => ?_
    refine hout (.inl (Fin.ext ?_))
    have hbottom : Level.bottom.val = 0 := rfl
    omega

end Gauge

/-! ## tables -/

namespace Table

variable {t : Table Rat p}

/-- Every change that leaves a table outside the default band moves its level in
a given way. -/
def Lags (t : Table Rat p) (moves : Level → Level → Prop) : Prop :=
  ∀ {σ ω : Type} {first : List (Supply ε × Request Rat ε K V VS σ ω)} {supply : Supply ε}
    {request : Request Rat ε K V VS σ ω},
    t.Continues Request.IsForKey (first ++ [(supply, request)]) →
    (t.runAll (first ++ [(supply, request)])).table.size ≠ (t.runAll first).table.size →
    ¬(t.runAll (first ++ [(supply, request)])).table.Balanced →
    moves (t.runAll first).table.level (t.runAll (first ++ [(supply, request)])).table.level

/-- A table comes back to where the default band wants it. -/
structure Recovers (t : Table Rat p) : Prop where
  /-- There it is after as many changes as there are levels under it or above it,
  whichever are more. -/
  inTime {σ ω : Type} {requests : List (Supply ε × Request Rat ε K V VS σ ω)} :
    t.Continues Request.IsForKey requests →
    max t.level.val (Level.top.val - t.level.val) ≤ t.changes requests →
    (t.runAll requests).table.Balanced
  /-- Once there, it stays. -/
  forGood {σ ω : Type} {first rest : List (Supply ε × Request Rat ε K V VS σ ω)} :
    t.Continues Request.IsForKey (first ++ rest) → (t.runAll first).table.Balanced →
    (t.runAll (first ++ rest)).table.Balanced
  /-- Until then every change leads one level on, and all in one direction. -/
  oneWay : t.Lags (fun before after => after.val = before.val + 1) ∨
    t.Lags (fun before after => after.val + 1 = before.val)

namespace Sound

/-- A run for single keys shifts the gauge once for every change. -/
theorem drifts_of_continues (h : t.Sound) (hband : t.band = .default)
    {requests : List (Supply ε × Request Rat ε K V VS σ ω)}
    (hrun : t.Continues Request.IsForKey requests) :
    t.gauge.Drifts (t.changes requests) (t.runAll requests).table.gauge :=
  h.drifts_runAll hband ⟨fun call hcall => .inl (hrun.1 call hcall), hrun.2⟩

/-- What is inside the default band after a run is balanced. -/
theorem balanced_runAll_iff (h : t.Sound) (hband : t.band = .default)
    {requests : List (Supply ε × Request Rat ε K V VS σ ω)}
    (hrun : t.Continues Request.IsForKey requests) :
    (t.runAll requests).table.Balanced ↔ (t.runAll requests).table.gauge.Inside :=
  (h.runAll requests).balanced_iff_inside
    ((h.drifts_of_continues hband hrun).band_eq.trans hband)

/-- The last change of a run, if it leaves the table outside the band: the gauge
was shifted from outside the band. -/
theorem shifts_last (h : t.Sound) (hband : t.band = .default)
    {first : List (Supply ε × Request Rat ε K V VS σ ω)} {supply : Supply ε}
    {request : Request Rat ε K V VS σ ω}
    (hrun : t.Continues Request.IsForKey (first ++ [(supply, request)]))
    (hsize : (t.runAll (first ++ [(supply, request)])).table.size ≠ (t.runAll first).table.size)
    (hout : ¬(t.runAll (first ++ [(supply, request)])).table.Balanced) :
    (t.runAll first).table.gauge.Shifts
        (t.runAll (first ++ [(supply, request)])).table.gauge ∧
      ¬(t.runAll first).table.gauge.Inside ∧
      ¬(t.runAll (first ++ [(supply, request)])).table.gauge.Inside := by
  rw [h.balanced_runAll_iff hband hrun] at hout
  obtain ⟨hfirst, hlast⟩ := continues_append.mp hrun
  have hband' := (h.drifts_of_continues hband hfirst).band_eq.trans hband
  rw [table_runAll_append] at hsize hout ⊢
  obtain ⟨⟨hkey, hrefused⟩, -⟩ := continues_cons.mp hlast
  have hmoved := (h.runAll first).rests_or_shifts (.inl hkey) hrefused
  have hshifts := hmoved.resolve_left fun hrests => hsize hrests.size
  exact ⟨hshifts, fun hin => hout (hshifts.inside_of_default hband' hin), hout⟩

end Sound

/-- **Recovery**: however far clearing and refused resizes have left a table
outside the default band, changes lead it back, one level each. -/
theorem recovers_of_reachable (h : t.Reachable) (hband : t.band = .default) : t.Recovers where
  inTime hrun hn := by
    rw [h.sound.balanced_runAll_iff hband hrun]
    exact (h.sound.drifts_of_continues hband hrun).inside_of_le hband hn
  forGood {σ ω first rest} hrun hin := by
    obtain ⟨hfirst, hrest⟩ := continues_append.mp hrun
    have hband' := (h.sound.drifts_of_continues hband hfirst).band_eq.trans hband
    rw [h.sound.balanced_runAll_iff hband hfirst] at hin
    rw [h.sound.balanced_runAll_iff hband hrun, table_runAll_append]
    exact ((h.sound.runAll first).drifts_of_continues hband' hrest).inside_of_default hband' hin
  oneWay := by
    have haccepted : t.gauge.band.Accepted := by
      rw [show t.gauge.band = .default from hband]
      exact DensityBand.accepted_default
    by_cases habove : t.gauge.band.Above t.gauge.level t.gauge.size
    · refine .inl fun hrun hsize hout => ?_
      obtain ⟨hshifts, hbefore, hafter⟩ := h.sound.shifts_last hband hrun hsize hout
      have hdrifts := h.sound.drifts_of_continues hband (continues_append.mp hrun).1
      have hbelow : ¬t.gauge.band.Below t.gauge.level t.gauge.size := fun hbelow =>
        hbefore (hdrifts.inside_of_default hband ⟨habove, hbelow⟩)
      have hunder := (hdrifts.rises hband hbelow).resolve_left hbefore
      exact ((hshifts.rises (hdrifts.band_eq ▸ haccepted) hunder.1).resolve_left hafter).2
    · refine .inr fun hrun hsize hout => ?_
      obtain ⟨hshifts, hbefore, hafter⟩ := h.sound.shifts_last hband hrun hsize hout
      have hdrifts := h.sound.drifts_of_continues hband (continues_append.mp hrun).1
      have hover := (hdrifts.sinks hband habove).resolve_left hbefore
      exact ((hshifts.sinks (hdrifts.band_eq ▸ haccepted) hover.1).resolve_left hafter).2

/-- A table that grew once, and was cleared. -/
def emptied : Table Rat spread :=
  let requests : List (Supply Unit × Request Rat Unit Nat Nat Nat Unit Unit) :=
    (List.range 74).map fun key => (plenty, .insert key none)
  ((Table.empty .default).runAll (requests ++ [(plenty, .clear)])).table

theorem recovers_emptied :
    emptied.Reachable ∧ emptied.band = .default ∧ ¬emptied.Balanced ∧ emptied.Recovers := by
  have hreachable : emptied.Reachable :=
    Reachable.runAll (reachable_of_withBand (show withBand plenty .default = .ok _ from rfl)) _
  have hgauge : emptied.gauge = ⟨0, ⟨1, by decide⟩, .default, .grew 37 79⟩ := by
    rw [Gauge.ext_iff]
    decide +kernel
  simp only [gauge, Gauge.mk.injEq] at hgauge
  obtain ⟨hsize, hlevel, hband, -⟩ := hgauge
  refine ⟨hreachable, hband, ?_, recovers_of_reachable hreachable hband⟩
  rw [hreachable.sound.balanced_iff, hsize, hlevel]
  exact fun hin => absurd hin.1 (by decide +kernel)

end Table

end ChainedTable
