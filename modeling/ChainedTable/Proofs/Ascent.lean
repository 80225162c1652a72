import ChainedTable.Proofs.BulkRemoval
import ChainedTable.Proofs.Recovery
import Mathlib.Order.Bounds.Basic

/-!
# ChainedTable.Proofs.Ascent

The level of a table whose entries only came, or only went.

A density step looks at one threshold and goes one level, so the level depends on
the run. In runs one way it does not, for a table with the default band that was
inside it:

1. while entries only come, a level is left only where there are too many for it,
   and later there are more (`Gauge.Ascended`);
2. while they only go, a level is left only where there are too few for it, and
   later there are fewer (`Gauge.Descended`).

So the level is the first one, from the start on, that the size calls for: the
least going up, the greatest going down. Which keys came or went, and in what
order, has no part in it.
-/

namespace ChainedTable

variable {F ε K KS V VS σ ω : Type} [Scale F] {κ : Keeper} {p : Policies ε K KS V VS κ}

/-! ## gauges -/

namespace Gauge

open DensityBand

variable {start : Level} {g g' : Gauge F} {granted : Nat → Bool}

/-- Inside the default band a step leaves a record only. -/
theorem step_of_inside (hexact : Scale.Exact F) (hband : g.band = .default)
    (hin : (.default : DensityBand Rat).Inside g.level g.size) :
    g.step granted = { g with lastStep := .steady } := by
  unfold step
  rw [hband, hexact, target?_eq_none_iff.mpr hin]

/-- The gauge went up from a level, and needs to go no further: its entries are too
many for all levels on its way. -/
structure Ascended (start : Level) (g : Gauge F) : Prop where
  band : g.band = .default
  le : start ≤ g.level
  below : (.default : DensityBand Rat).Below g.level g.size
  above : (.default : DensityBand Rat).Above g.level g.size
  passed {level : Level} : start ≤ level → level < g.level →
    ¬(.default : DensityBand Rat).Below level g.size

/-- A step after one entry more leads all the way: one level is enough. -/
theorem Ascended.step (h : g.Ascended start) (hexact : Scale.Exact F) :
    ({ g with size := g.size + 1 }.step fun _ => true).Ascended start := by
  have hlevel : ({ g with size := g.size + 1 }.step fun _ => true).level =
      (.default : DensityBand Rat).next g.level (g.size + 1) := level_step_exact hexact h.band
  have habove := h.above.of_le (Nat.le_succ g.size)
  have hstill {level : Level} (hge : start ≤ level) (hlt : level < g.level) :
      ¬(.default : DensityBand Rat).Below level (g.size + 1) := fun hbelow =>
    h.passed hge hlt (hbelow.of_le (Nat.le_succ g.size))
  have hway : start ≤ (.default : DensityBand Rat).next g.level (g.size + 1) ∧
      ∀ level, start ≤ level → level < (.default : DensityBand Rat).next g.level (g.size + 1) →
        ¬(.default : DensityBand Rat).Below level (g.size + 1) := by
    obtain ⟨hsame, -⟩ | ⟨-, hover⟩ | ⟨hup, -, hunder⟩ :=
      next_cases .default g.level (g.size + 1)
    · rw [hsame]
      exact ⟨h.le, fun _ => hstill⟩
    · exact absurd habove hover
    · have hval := Level.val_of_up? hup
      have hle := Fin.le_def.mp h.le
      refine ⟨Fin.le_def.mpr (by omega), fun level hge hlt => ?_⟩
      -- The level left was too small, and so were those under it.
      have hlt := Fin.lt_def.mp hlt
      have hle : level ≤ g.level := Fin.le_def.mpr (by omega)
      rcases eq_or_lt_of_le hle with rfl | hlt'
      · exact hunder
      · exact hstill hge hlt'
  refine ⟨(band_step _ _).trans h.band, hlevel ▸ hway.1, ?_, ?_, fun {level} hge hlt => ?_⟩
  · rw [hlevel, size_step]
    exact accepted_default.below_next_succ h.below
  · rw [hlevel, size_step]
    exact accepted_default.above_next (Nat.succ_pos _) habove
  · rw [hlevel] at hlt
    rw [size_step]
    exact hway.2 level hge hlt

/-- **A request after which there are no fewer entries** leads all the way, if it is
not for clearing. -/
theorem Ascended.moves (h : g.Ascended start) (hexact : Scale.Exact F)
    {request : Request F ε K V VS σ ω} (hclear : request ≠ .clear)
    (hmoves : request.Moves (fun _ => true) g g') (hsize : g.size ≤ g'.size) :
    g'.Ascended start := by
  cases request with
  | insert | openSlot =>
      rcases hmoves with rfl | rfl
      · exact h
      · exact h.step hexact
  | take | erase =>
      rcases hmoves with rfl | ⟨size, hone, rfl⟩
      · exact h
      · rw [size_step] at hsize
        exact absurd (hone ▸ hsize) (Nat.not_succ_le_self _)
  | contains | lookUp =>
      rcases hmoves with rfl
      exact h
  | clear => exact absurd rfl hclear
  | densityStep =>
      rw [show g' = _ from hmoves, step_of_inside hexact h.band ⟨h.above, h.below⟩]
      exact ⟨h.band, h.le, h.below, h.above, h.passed⟩
  | walk =>
      rcases hmoves with rfl | ⟨size, hlt, rfl⟩
      · exact h
      · rw [size_settle] at hsize
        exact absurd hsize (Nat.not_le_of_lt hlt)

/-- The same for a request after which there are no more entries. -/
theorem Descended.moves_of_ne_clear (h : g.Descended start) (hexact : Scale.Exact F)
    {request : Request F ε K V VS σ ω} (hclear : request ≠ .clear)
    (hmoves : request.Moves (fun _ => true) g g') (hsize : g'.size ≤ g.size) :
    g'.Descended start := by
  by_cases hrest : request.CanRest
  · exact h.moves hexact hrest hmoves hsize
  cases request with
  | insert | openSlot | contains | lookUp | take | erase | walk => exact absurd trivial hrest
  | clear => exact absurd rfl hclear
  | densityStep =>
      rw [show g' = _ from hmoves, step_of_inside hexact h.band ⟨h.above, h.below⟩]
      exact ⟨⟨h.band, h.le, h.below, h.passed⟩, h.above⟩

/-! ## closed forms -/

theorem Ascended.isLeast (h : g.Ascended start) :
    IsLeast {level | start ≤ level ∧ (level = .top ∨ g.size < 2 * level.buckets)} g.level := by
  refine ⟨⟨h.le, below_default_iff.mp h.below⟩, fun level hlevel => ?_⟩
  by_contra hlt
  exact h.passed hlevel.1 (not_le.mp hlt) (below_default_iff.mpr hlevel.2)

theorem Descended.isGreatest (h : g.Descended start) :
    IsGreatest {level | level ≤ start ∧ (level = .bottom ∨ level.buckets < 4 * g.size)}
      g.level := by
  refine ⟨⟨h.le, above_default_iff.mp h.above⟩, fun level hlevel => ?_⟩
  by_contra hlt
  exact h.passed (not_le.mp hlt) hlevel.1 (above_default_iff.mpr hlevel.2)

end Gauge

/-! ## tables -/

namespace Table

/-- A run of requests, none of them for clearing, in which no bucket array is
refused. The sizes before and after each are in a given order. -/
inductive Leads (order : Nat → Nat → Prop) (t : Table F p) : Table F p → Prop where
  | start : Leads order t t
  | request {t' : Table F p} {σ ω : Type} (supply : Supply ε)
    (request : Request F ε K V VS σ ω) : Leads order t t' → request ≠ .clear →
      NothingRefused (request.run supply t').journal →
      order t'.size (request.run supply t').table.size →
      Leads order t (request.run supply t').table

variable {t t' : Table F p} {order : Nat → Nat → Prop}

/-- What the gauge keeps in every request of such a run, it keeps in the run. -/
theorem Leads.keeps (hrun : t.Leads order t') (h : t.Sound) {P : Gauge F → Prop}
    (hstep : ∀ {g g' : Gauge F} {σ ω : Type} {request : Request F ε K V VS σ ω}, P g →
      request ≠ .clear → request.Moves (fun _ => true) g g' → order g.size g'.size → P g')
    (hstart : P t.gauge) : t'.Sound ∧ P t'.gauge := by
  induction hrun with
  | start => exact ⟨h, hstart⟩
  | request supply request _ hclear hrefused horder ih =>
      exact ⟨ih.1.run supply request,
        hstep ih.2 hclear (ih.1.moves_ample request hrefused) horder⟩

/-- A balanced table has come all the way up from where it is. -/
theorem Sound.ascended (h : t.Sound) (hband : t.band = .default) (hbalanced : t.Balanced) :
    t.gauge.Ascended t.level where
  band := hband
  le := le_rfl
  below := (h.balanced_iff.mp hbalanced).2
  above := (h.balanced_iff.mp hbalanced).1
  passed hge hlt := absurd hlt (not_lt.mpr hge)

/-- The level after runs one way, from the level at the start and the size. -/
structure LevelsBySize (t : Table F p) : Prop where
  /-- After a run in which entries only came, it is the least level, from the start
  on, with less than two entries per bucket or with no level above. -/
  came {t' : Table F p} : t.Leads (· ≤ ·) t' →
    IsLeast {level | t.level ≤ level ∧ (level = .top ∨ t'.size < 2 * level.buckets)} t'.level
  /-- After a run in which entries only went, it is the greatest level, down from
  the start, with more than one entry per four buckets or with no level below. -/
  went {t' : Table F p} : t.Leads (· ≥ ·) t' →
    IsGreatest {level | level ≤ t.level ∧ (level = .bottom ∨ level.buckets < 4 * t'.size)}
      t'.level

/-- **The level after a run one way** depends on the size only, and on where the
table was. -/
theorem levelsBySize_of_balanced (hexact : Scale.Exact F) (h : t.Reachable)
    (hband : t.band = .default) (hbalanced : t.Balanced) : t.LevelsBySize where
  came hrun := by
    have hascended := hrun.keeps h.sound (P := Gauge.Ascended t.level)
      (fun hg hclear hmoves hsize => hg.moves hexact hclear hmoves hsize)
      (h.sound.ascended hband hbalanced)
    exact hascended.2.isLeast
  went hrun := by
    have hdescended := hrun.keeps h.sound (P := Gauge.Descended t.level)
      (fun hg hclear hmoves hsize => hg.moves_of_ne_clear hexact hclear hmoves hsize)
      (h.sound.descended hband hbalanced)
    exact hdescended.2.isGreatest

/-- A walk that leaves the last nine of the numbers in `grown`. -/
def thinning : Request Rat Unit Nat Nat Nat Unit Unit := .walk () (erasing (List.range 65))

/-- Nine entries are too few for any level but the bottom. -/
theorem levelsBySize_grown :
    Scale.Exact Rat ∧ grown.Reachable ∧ grown.band = .default ∧ grown.Balanced ∧
      grown.Leads (· ≥ ·) (thinning.run plenty grown).table ∧
      IsGreatest {level | level ≤ grown.level ∧
          (level = .bottom ∨ level.buckets < 4 * (thinning.run plenty grown).table.size)}
        (thinning.run plenty grown).table.level := by
  have hreachable : grown.Reachable :=
    Reachable.runAll (reachable_of_withBand (show withBand plenty .default = .ok _ from rfl)) _
  have hgauge : grown.gauge = ⟨74, ⟨1, by decide⟩, .default, .grew 37 79⟩ := by
    rw [Gauge.ext_iff]
    decide +kernel
  simp only [gauge, Gauge.mk.injEq] at hgauge
  obtain ⟨hsize, hlevel, hband, -⟩ := hgauge
  have hbalanced : grown.Balanced := by
    rw [hreachable.sound.balanced_iff, hsize, hlevel]
    decide +kernel
  obtain ⟨hrefused, hnine⟩ : NothingRefused (thinning.run plenty grown).journal ∧
      (thinning.run plenty grown).table.size = 9 := by
    decide +kernel
  have hfewer : (thinning.run plenty grown).table.size ≤ grown.size := by
    rw [hnine, hsize]
    decide
  have hrun : grown.Leads (· ≥ ·) (thinning.run plenty grown).table :=
    Leads.start.request plenty thinning nofun hrefused hfewer
  exact ⟨Scale.exact_rat, hreachable, hband, hbalanced, hrun,
    (levelsBySize_of_balanced Scale.exact_rat hreachable hband hbalanced).went hrun⟩

end Table

end ChainedTable
