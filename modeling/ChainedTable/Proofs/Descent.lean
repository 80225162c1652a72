import ChainedTable.Proofs.Drift
import Mathlib.Order.Fin.Basic

/-!
# ChainedTable.Proofs.Descent

Which level a table comes down to.

Removals lead a table with the default band down, level by level.  Whether one
entry goes between two density steps or a thousand, a level is left only where
the entries are too few for it, and what is left of them later is too few for it
still.  So a table stands at the highest level, of those it came through, that
its entries are not too few for (`Gauge.Descended`), and there is only one such
level for a number of entries (`Descended.level_eq`).
-/

namespace ChainedTable

variable {F ε K KS V VS σ ω : Type} [Scale F] {κ : Keeper} {p : Policies ε K KS V VS κ}

/-- Densities decide on the steps in the default band as exact quotients do. -/
def Scale.Exact (F : Type) [Scale F] : Prop :=
  ∀ (level : Level) (entries : Nat), (.default : DensityBand F).target? level entries =
    (.default : DensityBand Rat).target? level entries

theorem Scale.exact_rat : Scale.Exact Rat := fun _ _ => rfl

namespace Gauge

/-- The gauge comes down from a level: it is not over the upper end of the default
band, and its entries are too few for all levels on its way. -/
structure Descends (start : Level) (g : Gauge F) : Prop where
  band : g.band = .default
  le : g.level ≤ start
  below : (.default : DensityBand Rat).Below g.level g.size
  passed {level : Level} : g.level < level → level ≤ start →
    ¬(.default : DensityBand Rat).Above level g.size

/-- The gauge came down from a level, and needs to go no further. -/
structure Descended (start : Level) (g : Gauge F) : Prop extends g.Descends start where
  above : (.default : DensityBand Rat).Above g.level g.size

variable {start : Level} {g g' : Gauge F}

/-- **One level** for a number of entries. -/
theorem Descended.level_eq (h : g.Descended start) (h' : g'.Descended start)
    (hsize : g'.size = g.size) : g'.level = g.level := by
  rcases lt_trichotomy g'.level g.level with hlt | heq | hgt
  · exact absurd (hsize ▸ h.above) (h'.passed hlt h.le)
  · exact heq
  · exact absurd (hsize ▸ h'.above) (h.passed hgt h'.le)

/-- With fewer entries it is still on its way down. -/
theorem Descends.fewer (h : g.Descends start) {size : Nat} (hle : size ≤ g.size) :
    ({ g with size } : Gauge F).Descends start where
  band := h.band
  le := h.le
  below := h.below.of_le hle
  passed hlt hle' habove := h.passed hlt hle' (habove.of_le hle)

/-! ## steps -/

theorem resized_step_ample (g : Gauge F) : (g.step fun _ => true).lastStep.resized =
    (g.band.target? g.level g.size).isSome := by
  unfold step resize
  cases g.band.target? g.level g.size with
  | none => rfl
  | some target =>
      dsimp only
      rw [if_pos rfl]
      dsimp only
      split <;> rfl

theorem level_step_exact (hexact : Scale.Exact F) (hband : g.band = .default) :
    (g.step fun _ => true).level = (.default : DensityBand Rat).next g.level g.size := by
  unfold step DensityBand.next
  rw [hband, hexact]
  cases (.default : DensityBand Rat).target? g.level g.size <;> rfl

/-- A step leads down, or nowhere. -/
theorem Descends.step (h : g.Descends start) (hexact : Scale.Exact F) :
    (g.step fun _ => true).Descends start := by
  have hlevel := level_step_exact hexact h.band
  obtain ⟨hsame, -⟩ | ⟨hdown, hover⟩ | ⟨-, -, hunder⟩ :=
    DensityBand.next_cases .default g.level g.size
  · rw [hsame] at hlevel
    refine ⟨(band_step _ g).trans h.band, ?_, ?_, ?_⟩
    · rw [hlevel]
      exact h.le
    · rw [hlevel, size_step]
      exact h.below
    · rw [hlevel, size_step]
      exact h.passed
  · rw [← hlevel] at hdown
    have hval := Level.val_of_down? hdown
    refine ⟨(band_step _ g).trans h.band, ?_, ?_, ?_⟩
    · have hle := Fin.le_def.mp h.le
      exact Fin.le_def.mpr (by omega)
    · rw [size_step]
      exact DensityBand.accepted_default.below_of_down? hdown hover
    · -- The level left was too large, and so were those above it.
      intro level hlt hle
      rw [size_step]
      have hlt := Fin.lt_def.mp hlt
      have hge : g.level ≤ level := Fin.le_def.mpr (by omega)
      rcases eq_or_lt_of_le hge with rfl | hlt'
      · exact hover
      · exact h.passed hlt' hle
  · exact absurd h.below hunder

/-- As many steps as there are levels lead all the way. -/
theorem Descends.settle (h : g.Descends start) (hexact : Scale.Exact F) {bound : Nat}
    (hbound : g.level.val < bound) : (g.settle (fun _ => true) bound).Descended start := by
  induction bound generalizing g with
  | zero => omega
  | succ bound ih =>
      have hstep := h.step hexact
      have hlevel := level_step_exact hexact h.band
      have hresized := g.resized_step_ample
      rw [h.band, hexact] at hresized
      unfold Gauge.settle
      obtain ⟨hsame, hin⟩ | ⟨hdown, hover⟩ | ⟨-, -, hunder⟩ :=
        DensityBand.next_cases .default g.level g.size
      · rw [DensityBand.target?_eq_none_iff.mpr hin] at hresized
        rw [if_neg (by simp [hresized])]
        refine ⟨hstep, ?_⟩
        rw [hlevel, hsame, size_step]
        exact hin.1
      · have hsome : ((.default : DensityBand Rat).target? g.level g.size).isSome := by
          rw [Option.isSome_iff_ne_none, ne_eq, DensityBand.target?_eq_none_iff]
          exact fun hin => hover hin.1
        rw [if_pos (hresized.trans hsome)]
        have hval := Level.val_of_down? (hlevel ▸ hdown)
        exact ih hstep (by omega)
      · exact absurd h.below hunder

/-- A step after one removal leads all the way: one level is enough. -/
theorem Descended.step (h : g.Descended start) (hexact : Scale.Exact F) {size : Nat}
    (hsize : g.size = size + 1) : ({ g with size }.step fun _ => true).Descended start where
  toDescends := (h.fewer (hsize ▸ Nat.le_succ size)).step hexact
  above := by
    have hlevel := level_step_exact (g := { g with size }) hexact h.band
    rw [hlevel, size_step]
    exact DensityBand.above_next_pred DensityBand.bound_le_low_default (hsize ▸ h.above)
      (hsize ▸ h.below)

theorem Descended.settle (h : g.Descended start) (hexact : Scale.Exact F) {size : Nat}
    (hsize : size ≤ g.size) : ({ g with size }.settle (fun _ => true) levelCount).Descended start :=
  (h.fewer hsize).settle hexact g.level.isLt

/-- **A request that adds no entry** leads all the way, if it is not for clearing. -/
theorem Descended.moves (h : g.Descended start) (hexact : Scale.Exact F)
    {request : Request F ε K V VS σ ω} (hrest : request.CanRest)
    (hmoves : request.Moves (fun _ => true) g g') (hsize : g'.size ≤ g.size) :
    g'.Descended start := by
  cases request with
  | insert | openSlot =>
      rcases hmoves with rfl | rfl
      · exact h
      · rw [size_step] at hsize
        exact absurd hsize (Nat.not_succ_le_self _)
  | take | erase =>
      rcases hmoves with rfl | ⟨size, hone, rfl⟩
      · exact h
      · exact h.step hexact hone
  | contains | lookUp =>
      rcases hmoves with rfl
      exact h
  | clear | densityStep => exact hrest.elim
  | walk =>
      rcases hmoves with rfl | ⟨size, hlt, rfl⟩
      · exact h
      · exact h.settle hexact hlt.le

end Gauge

/-! ## tables -/

namespace Table.Sound

variable {t : Table F p} {start : Level}

/-- A balanced table has come all the way down from where it is. -/
theorem descended (h : t.Sound) (hband : t.band = .default) (hbalanced : t.Balanced) :
    t.gauge.Descended t.level where
  band := hband
  le := le_rfl
  below := (h.balanced_iff.mp hbalanced).2
  above := (h.balanced_iff.mp hbalanced).1
  passed hlt hle := absurd hlt (not_lt.mpr hle)

/-- Keys removed one by one lead a table all the way down. -/
theorem descended_runAll (h : t.Sound) (hexact : Scale.Exact F)
    (hdescended : t.gauge.Descended start)
    {requests : List (Supply ε × Request F ε K V VS σ ω)}
    (hrun : t.Continues Request.Removes requests) :
    (t.runAll requests).table.gauge.Descended start := by
  induction requests generalizing t with
  | nil => exact hdescended
  | cons first rest ih =>
      obtain ⟨supply, request⟩ := first
      obtain ⟨⟨hremoves, hrefused⟩, hrest⟩ := continues_cons.mp hrun
      have hmoves := h.moves_ample request hrefused
      refine ih (h.run supply request) (hdescended.moves hexact hremoves.canRest hmoves ?_) hrest
      cases request with
      | take | erase =>
          rcases hmoves with heq | ⟨size, hsize, heq⟩
          · rw [heq]
          · rw [heq, Gauge.size_step, hsize]
            exact Nat.le_succ size
      | insert | openSlot | contains | lookUp | clear | densityStep | walk => exact hremoves.elim

end Table.Sound

end ChainedTable
