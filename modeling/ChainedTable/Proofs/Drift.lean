import ChainedTable.Proofs.Granted
import ChainedTable.Proofs.OneStep

/-!
# ChainedTable.Proofs.Drift

How size and level move, from change to change.

A structural change is a request after which a table has another number of
entries (`Table.changes` counts them). Where keys come and go one by one and no
bucket array is refused, each change moves the size by one and the level to
where the rule wants it for the new size (`Gauge.Shifts`), and between two
changes both stay where they are. So what a run does to the density is a walk on
two numbers, `Gauge.Drifts`.

A table with the default band should be `Balanced`. Once it is, every change
leaves it so.
-/

namespace ChainedTable

variable {F ε K KS V VS σ ω : Type} {κ : Keeper} {p : Policies ε K KS V VS κ}

/-- The number of structural changes in a run: requests that leave a table with
another number of entries than before. -/
def Table.changes [Scale F] (t : Table F p) : List (Supply ε × Request F ε K V VS σ ω) → Nat
  | [] => 0
  | (supply, request) :: rest =>
    let after := (request.run supply t).table
    (if after.size = t.size then 0 else 1) + after.changes rest

/-- The number of entries is where the default band wants it, as the buckets go:
over a quarter of them and under twice as many, but for the two ends of the
levels. -/
def Table.Balanced (t : Table F p) : Prop :=
  (t.level = .bottom ∨ t.buckets < 4 * t.size) ∧ (t.level = .top ∨ t.size < 2 * t.buckets)

/-- A request for one density step and nothing else. -/
def Request.IsDensityStep : Request F ε K V VS σ ω → Prop
  | densityStep => True
  | insert .. | openSlot .. | contains _ | lookUp _ | take _ | erase _ | clear | walk .. => False

/-- A request that takes one density step at most. -/
def Request.IsGradual (request : Request F ε K V VS σ ω) : Prop :=
  request.IsForKey ∨ request.IsDensityStep

/-- A run of requests of some kind, in which no bucket array is refused. -/
def Table.Continues [Scale F] (t : Table F p) (kind : Request F ε K V VS σ ω → Prop)
    (requests : List (Supply ε × Request F ε K V VS σ ω)) : Prop :=
  (∀ call ∈ requests, kind call.2) ∧ NothingRefused (t.runAll requests).journal

theorem Table.Sound.balanced_iff {t : Table F p} (h : t.Sound) :
    t.Balanced ↔ (DensityBand.default : DensityBand Rat).Inside t.level t.size := by
  have hbuckets : t.buckets = t.level.buckets := h.buckets
  rw [Table.Balanced, DensityBand.Inside, DensityBand.above_default_iff,
    DensityBand.below_default_iff, hbuckets]

theorem Table.Sound.balanced_iff_inside {t : Table Rat p} (h : t.Sound)
    (hband : t.band = .default) : t.Balanced ↔ t.Inside := by
  rw [h.balanced_iff, Table.Inside, hband]

/-! ## gauges -/

namespace Gauge

/-- Only the record of the last step is another one. -/
structure Rests (g g' : Gauge Rat) : Prop where
  band : g'.band = g.band
  size : g'.size = g.size
  level : g'.level = g.level

/-- One entry comes or goes, and a step follows that is granted. -/
structure Shifts (g g' : Gauge Rat) : Prop where
  band : g'.band = g.band
  size : g'.size = g.size + 1 ∨ g.size = g'.size + 1
  level : g'.level = g.band.next g.level g'.size

/-- A number of shifts, with rests between them. -/
inductive Drifts : Gauge Rat → Nat → Gauge Rat → Prop
  | refl (g : Gauge Rat) : Drifts g 0 g
  | rest {g g' g'' : Gauge Rat} {n : Nat} : g.Rests g' → Drifts g' n g'' → Drifts g n g''
  | shift {g g' g'' : Gauge Rat} {n : Nat} :
    g.Shifts g' → Drifts g' n g'' → Drifts g (n + 1) g''

variable {g g' : Gauge Rat} {n : Nat}

/-- The gauge is on the right side of both ends of its band. -/
def Inside (g : Gauge Rat) : Prop := g.band.Inside g.level g.size

theorem Rests.refl (g : Gauge Rat) : g.Rests g := ⟨rfl, rfl, rfl⟩

theorem shifts_step {size : Nat} (hsize : size = g.size + 1 ∨ g.size = size + 1) :
    g.Shifts ({ g with size }.step fun _ => true) where
  band := band_step ..
  size := by rwa [size_step]
  level := by
    rw [size_step]
    exact level_step_ample _

/-- A request for a key leaves the gauge or shifts it. -/
theorem eq_or_shifts_of_moves {request : Request Rat ε K V VS σ ω} (hkey : request.IsForKey)
    (hmoves : request.Moves (fun _ => true) g g') : g' = g ∨ g.Shifts g' := by
  rcases moves_for_key hkey hmoves with heq | rfl | ⟨size, hsize, rfl⟩
  · exact .inl heq
  · exact .inr (shifts_step (.inl rfl))
  · exact .inr (shifts_step (.inr hsize))

/-- Inside the band a density step finds nothing to do. -/
theorem rests_step (hin : g.Inside) (granted : Nat → Bool) : g.Rests (g.step granted) := by
  have hnone : g.band.target? g.level g.size = none := DensityBand.target?_eq_none_iff.mpr hin
  unfold step
  rw [hnone]
  exact ⟨rfl, rfl, rfl⟩

theorem Rests.inside (h : g.Rests g') (hin : g.Inside) : g'.Inside := by
  rw [Inside, h.band, h.level, h.size]
  exact hin

/-- **A change inside the band** leads inside, if the lower end is not too low. -/
theorem Shifts.inside (h : g.Shifts g') (hband : g.band.Accepted) (hlow : 2 / 359 ≤ g.band.low)
    (hin : g.Inside) : g'.Inside := by
  rw [Inside, h.band, h.level]
  rcases h.size with hsize | hsize
  · rw [hsize]
    exact ⟨hband.above_next (Nat.succ_pos _) (hin.1.of_le (Nat.le_succ _)),
      hband.below_next_succ hin.2⟩
  · exact ⟨DensityBand.above_next_pred hlow (hsize ▸ hin.1) (hsize ▸ hin.2),
      hband.below_next (hin.2.of_le (hsize ▸ Nat.le_succ _))⟩

/-- From inside the default band every change leads inside. -/
theorem Shifts.inside_of_default (h : g.Shifts g') (hband : g.band = .default) (hin : g.Inside) :
    g'.Inside :=
  h.inside (hband ▸ DensityBand.accepted_default) (hband ▸ DensityBand.bound_le_low_default) hin

theorem Drifts.band_eq (h : g.Drifts n g') : g'.band = g.band := by
  induction h with
  | refl => rfl
  | rest hrest _ ih => exact ih.trans hrest.band
  | shift hshift _ ih => exact ih.trans hshift.band

theorem Drifts.inside_of_default (h : g.Drifts n g') (hband : g.band = .default)
    (hin : g.Inside) : g'.Inside := by
  induction h with
  | refl => exact hin
  | rest hrest _ ih => exact ih (hrest.band.trans hband) (hrest.inside hin)
  | shift hshift _ ih =>
      exact ih (hshift.band.trans hband) (hshift.inside_of_default hband hin)

end Gauge

/-! ## runs -/

namespace Table

section Runs

variable [Scale F] {t : Table F p} {kind : Request F ε K V VS σ ω → Prop}
  {first rest : List (Supply ε × Request F ε K V VS σ ω)}

theorem Sound.runAll (h : t.Sound) (requests : List (Supply ε × Request F ε K V VS σ ω)) :
    (t.runAll requests).table.Sound := by
  induction requests generalizing t with
  | nil => exact h
  | cons first rest ih => exact ih (h.run first.1 first.2)

theorem changes_append (t : Table F p)
    (first rest : List (Supply ε × Request F ε K V VS σ ω)) :
    t.changes (first ++ rest) = t.changes first + (t.runAll first).table.changes rest := by
  induction first generalizing t with
  | nil => exact (Nat.zero_add _).symm
  | cons request first ih =>
      rw [List.cons_append, changes, changes, ih, Nat.add_assoc]
      rfl

theorem continues_append : t.Continues kind (first ++ rest) ↔
    t.Continues kind first ∧ (t.runAll first).table.Continues kind rest := by
  rw [Continues, Continues, Continues, List.forall_mem_append, journal_runAll_append,
    nothingRefused_append]
  exact and_and_and_comm

theorem continues_cons {supply : Supply ε} {request : Request F ε K V VS σ ω} :
    t.Continues kind ((supply, request) :: rest) ↔
      (kind request ∧ NothingRefused (request.run supply t).journal) ∧
        (request.run supply t).table.Continues kind rest := by
  rw [Continues, Continues, List.forall_mem_cons, nothingRefused_cons]
  exact and_and_and_comm

end Runs

section Exact

variable {t : Table Rat p}

/-- The gauge after one request, of those that take one step at most. -/
theorem Sound.rests_or_shifts (h : t.Sound) {supply : Supply ε}
    {request : Request Rat ε K V VS σ ω}
    (hkind : request.IsForKey ∨ request.IsDensityStep ∧ t.Inside)
    (hrefused : NothingRefused (request.run supply t).journal) :
    t.gauge.Rests (request.run supply t).table.gauge ∨
      t.gauge.Shifts (request.run supply t).table.gauge := by
  have hmoves := h.moves_ample request hrefused
  rcases hkind with hkey | ⟨hstep, hin⟩
  · refine (Gauge.eq_or_shifts_of_moves hkey hmoves).imp_left fun heq => ?_
    rw [heq]
    exact .refl _
  · cases request with
    | densityStep =>
        rw [show _ = _ from hmoves]
        exact .inl (Gauge.rests_step (g := t.gauge) hin _)
    | insert | openSlot | contains | lookUp | take | erase | clear | walk => exact hstep.elim

/-- **A run for single keys** shifts the gauge once for every structural change.
Density steps on request may be mixed in if the table is inside its band. -/
theorem Sound.drifts_runAll (h : t.Sound) (hband : t.band = .default)
    {requests : List (Supply ε × Request Rat ε K V VS σ ω)}
    (hrun : t.Continues (fun request => request.IsForKey ∨ request.IsDensityStep ∧ t.Inside)
      requests) :
    t.gauge.Drifts (t.changes requests) (t.runAll requests).table.gauge := by
  induction requests generalizing t with
  | nil => exact .refl _
  | cons first rest ih =>
      obtain ⟨supply, request⟩ := first
      obtain ⟨⟨hkind, hrefused⟩, hrest⟩ := continues_cons.mp hrun
      have hmoved := h.rests_or_shifts hkind hrefused
      have hband' : (request.run supply t).table.band = .default := by
        rcases hmoved with hrests | hshifts
        · exact hrests.band.trans hband
        · exact hshifts.band.trans hband
      have hinside (hin : t.Inside) : (request.run supply t).table.Inside := by
        rcases hmoved with hrests | hshifts
        · exact hrests.inside hin
        · exact hshifts.inside_of_default hband hin
      have hdrifts := ih (h.run supply request) hband'
        ⟨fun call hcall => (hrest.1 call hcall).imp_right (And.imp_right hinside), hrest.2⟩
      rw [changes]
      rcases hmoved with hrests | hshifts
      · have hsize : (request.run supply t).table.size = t.size := hrests.size
        rw [if_pos hsize, Nat.zero_add]
        exact .rest hrests hdrifts
      · have hsize : (request.run supply t).table.size ≠ t.size := by
          have hmoved : (request.run supply t).table.size = t.size + 1 ∨
            t.size = (request.run supply t).table.size + 1 := hshifts.size
          omega
        rw [if_neg hsize, Nat.add_comm]
        exact .shift hshifts hdrifts

end Exact

end Table

end ChainedTable
