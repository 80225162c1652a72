import ChainedTable.Proofs.Accounts

/-!
# ChainedTable.Proofs.Trims

What a walk takes away.

Under a walk entries lose their values, get others, or leave. None is made, and
no density step is taken: what is left was there before, under the same key and
with the same hash (`Trims`). One visit does no more than that, and so does any
number of steps.
-/

namespace ChainedTable

variable {F ε K KS V VS ρ σ ω : Type} {κ : Keeper} {p : Policies ε K KS V VS κ}

theorem Chains.holding?_setValue (chains : Chains κ KS VS) (id other : EntryId)
    (value : Option VS) : (chains.setValue id value).holding? other =
      if id = other then (chains.holding? other).map ({ · with value })
      else chains.holding? other := by
  simp only [holding?, setValue, Arena.get?_modify]
  split
  · cases chains.arena.get? other <;> rfl
  · rfl

namespace Table

/-- Entries of one table are left in another, maybe with other values, and
nothing else is different. -/
structure Trims (before after : Table F p) : Prop where
  kept {id : EntryId} {held : Holding KS VS} : after.holding? id = some held →
    ∃ value, before.holding? id = some { held with value }
  level : after.level = before.level
  band : after.band = before.band
  lastStep : after.lastStep = before.lastStep

namespace Trims

variable {first second third : Table F p}

theorem refl (t : Table F p) : t.Trims t := ⟨fun hheld => ⟨_, hheld⟩, rfl, rfl, rfl⟩

theorem trans (h : first.Trims second) (h' : second.Trims third) : first.Trims third where
  kept hheld := by
    obtain ⟨value, hvalue⟩ := h'.kept hheld
    obtain ⟨old, hold⟩ := h.kept hvalue
    exact ⟨old, hold⟩
  level := h'.level.trans h.level
  band := h'.band.trans h.band
  lastStep := h'.lastStep.trans h.lastStep

/-- There are no more entries than before. -/
theorem size_le (h : first.Trims second) (hfirst : first.Sound) (hsecond : second.Sound) :
    second.size ≤ first.size := by
  have hsub : second.held.map (·.1) ⊆ first.held.map (·.1) := by
    intro id hid
    obtain ⟨⟨_, held⟩, hheld, rfl⟩ := List.mem_map.mp hid
    obtain ⟨value, hvalue⟩ := h.kept (Chains.mem_held_iff.mp hheld)
    exact List.mem_map.mpr ⟨_, Chains.mem_held_iff.mpr hvalue, rfl⟩
  have hnodup : (second.held.map (·.1)).Nodup := by
    rw [Chains.held, List.map_map]
    exact Arena.nodup_entries second.arena
  have hle := (List.subperm_of_subset hnodup hsub).length_le
  simpa [Chains.held, Chains.size, hfirst.wellLinked.valid.length_entries,
    hsecond.wellLinked.valid.length_entries] using hle

end Trims

theorem trims_setValue (t : Table F p) (id : EntryId) (value : Option VS) :
    t.Trims { t with toChains := t.toChains.setValue id value } where
  kept {other held} hheld := by
    rw [Chains.holding?_setValue] at hheld
    split at hheld
    · obtain ⟨old, hold, rfl⟩ := Option.map_eq_some_iff.mp hheld
      exact ⟨old.value, hold⟩
    · exact ⟨held.value, hheld⟩
  level := rfl
  band := rfl
  lastStep := rfl

theorem trims_unlink (t : Table F p) (link : Link) (id : EntryId) (entry : Entry KS VS) :
    t.Trims { t with toChains := t.toChains.unlink link id entry } where
  kept {other held} hheld := by
    rw [Chains.holding?_unlink] at hheld
    split at hheld
    · contradiction
    · exact ⟨held.value, hheld⟩
  level := rfl
  band := rfl
  lastStep := rfl

theorem trims_onSlots (t : Table F p) (id : EntryId) (actions : List (ε × SlotAction V VS)) :
    t.Trims (t.onSlots id actions).table := by
  induction actions generalizing t with
  | nil => exact .refl t
  | cons first rest ih => exact (t.trims_setValue id _).trans (ih _)

end Table

open Table

variable [Scale F]

theorem Visit.trims_run (visit : Visit F ε K V VS ρ) (link : Link) (id : EntryId)
    (t : Table F p) (entry : Entry KS VS) : t.Trims (visit.run link id t entry).table := by
  induction visit generalizing t entry with
  | key next ih => exact ih _ t entry
  | value next ih => exact ih _ t entry
  | slot copies action next ih => exact (t.trims_setValue id _).trans (ih _ _ _)
  | contains other next ih => exact ih _ t entry
  | lookUp other next ih => exact ih _ t entry
  | readings next ih => exact ih _ t entry
  | leave result => exact .refl t
  | erase result => exact t.trims_unlink link id entry
  | take result => exact t.trims_unlink link id entry

namespace Walk

variable {visitor : Visitor F ε K V VS σ ω}

theorem trims_step (visitor : Visitor F ε K V VS σ ω) (w : Walk F p σ) :
    w.table.Trims (w.step visitor).1.table := by
  have hnext : w.table.Trims (w.nextBucket : Walk F p σ × Option (Ending ω)).1.table := by
    unfold nextBucket
    dsimp only
    split <;> exact .refl _
  unfold step
  split
  · exact hnext
  · next id _ =>
      split
      · exact hnext
      · next entry _ =>
          have hvisit := (visitor w.memory).trims_run w.link id w.table entry
          rw [visitAt_eq]
          split
          · unfold advance
            split <;> exact hvisit
          · exact hvisit
          · exact hvisit

theorem trims_runWithin (visitor : Visitor F ε K V VS σ ω) (bound : Nat) (w : Walk F p σ) :
    w.table.Trims (w.runWithin visitor bound).1.table := by
  induction bound generalizing w with
  | zero => exact .refl _
  | succ bound ih =>
      have hstep := trims_step visitor w
      unfold runWithin
      split
      · next w' hw =>
          rw [hw] at hstep
          exact hstep.trans (ih w')
      · next w' ending hw =>
          rw [hw] at hstep
          exact hstep

end Walk

/-- **A walk only takes away.** -/
theorem Table.trims_walk (t : Table F p) (memory : σ) (visitor : Visitor F ε K V VS σ ω) :
    t.Trims ((Walk.start t memory).run visitor).1.table :=
  Walk.trims_runWithin visitor _ (Walk.start t memory)

/-- A walk leaves a sound table, before the density is brought back. -/
theorem Table.Sound.run_start {t : Table F p} (h : t.Sound) (memory : σ)
    (visitor : Visitor F ε K V VS σ ω) : ((Walk.start t memory).run visitor).1.table.Sound := by
  obtain ⟨_, hedits, -⟩ := Walk.goes_runWithin visitor _ (Walk.start t memory)
  exact h.edits hedits

end ChainedTable
