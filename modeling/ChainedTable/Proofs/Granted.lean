import ChainedTable.Proofs.Band

/-!
# ChainedTable.Proofs.Granted

Runs in which no bucket array is refused.

What is refused depends on the supply, and that something was refused is noticed
in the journal. An operation asks for bucket arrays in its density steps only, so
if its journal tells of no refusal, it did what it does with an ample supply, one
that grants every bucket array (`run_eq_of_nothingRefused`). There every step
goes to the level that the rule names, and no record of a refusal is left to
reason about.
-/

namespace ChainedTable

variable {F ε K KS V VS σ ω : Type} {κ : Keeper} {p : Policies ε K KS V VS κ}

theorem nothingRefused_append {first rest : List (Event K KS V VS)} :
    NothingRefused (first ++ rest) ↔ NothingRefused first ∧ NothingRefused rest :=
  List.forall_mem_append

/-- The same supply, with every bucket array granted. -/
def Supply.ample (supply : Supply ε) : Supply ε := { supply with buckets := fun _ => true }

namespace Table

variable {t : Table F p} {supply : Supply ε}

/-! ## density steps -/

theorem resize_eq_of_nothingRefused {target : Level}
    (h : NothingRefused (t.resize supply target).journal) :
    t.resize supply target = t.resize supply.ample target := by
  have hample : supply.ample.buckets target.buckets = true := rfl
  unfold resize at h ⊢
  dsimp only at h ⊢
  split at h
  · next hgranted => rw [if_pos hgranted, if_pos hample]
  · exact absurd (h _ (List.mem_singleton.mpr rfl)) (by simp [Event.isRefusal])

variable [Scale F]

theorem densityStep_eq_of_nothingRefused (h : NothingRefused (t.densityStep supply).journal) :
    t.densityStep supply = t.densityStep supply.ample := by
  unfold densityStep at h ⊢
  split at h
  · exact resize_eq_of_nothingRefused h
  · rfl

theorem restoreBandWithin_eq_of_nothingRefused {bound : Nat}
    (h : NothingRefused (restoreBandWithin supply bound t).journal) :
    restoreBandWithin supply bound t = restoreBandWithin supply.ample bound t := by
  induction bound generalizing t with
  | zero => rfl
  | succ bound ih =>
      unfold restoreBandWithin at h ⊢
      dsimp only at h ⊢
      split at h
      · next hresized =>
          rw [Outcome.journal_after, nothingRefused_append] at h
          rw [← densityStep_eq_of_nothingRefused h.1, if_pos hresized, if_pos hresized, ih h.2]
      · next hresized =>
          rw [← densityStep_eq_of_nothingRefused h, if_neg hresized, if_neg hresized]

theorem restoreBand_eq_of_nothingRefused (h : NothingRefused (t.restoreBand supply).journal) :
    t.restoreBand supply = t.restoreBand supply.ample := by
  have hwithin : NothingRefused (restoreBandWithin supply levelCount t).journal := by
    unfold restoreBand at h
    dsimp only at h
    split at h
    · exact (nothingRefused_append.mp h).1
    · exact h
  unfold restoreBand
  rw [restoreBandWithin_eq_of_nothingRefused hwithin]

/-! ## requests -/

theorem insertNew_eq_of_nothingRefused {probe : Probe K KS V VS} {key : K} {value : Option V}
    (h : NothingRefused (t.insertNew supply probe key value).journal) :
    t.insertNew supply probe key value = t.insertNew supply.ample probe key value := by
  unfold insertNew at h ⊢
  dsimp only [Supply.ample] at h ⊢
  cases hroom : t.arena.reserve supply.arena with
  | none => rfl
  | some arena =>
      simp only [hroom] at h ⊢
      cases hkey : p.keys.acquire supply.copies key with
      | error why => rfl
      | ok storedKey =>
          simp only [hkey] at h ⊢
          split at h
          · rfl
          · rw [Outcome.journal_after, Outcome.journal_map, nothingRefused_append] at h
            rw [densityStep_eq_of_nothingRefused h.2]
            rfl

theorem openSlot_eq_of_nothingRefused {key : K}
    (h : NothingRefused (t.openSlot supply key).journal) :
    t.openSlot supply key = t.openSlot supply.ample key := by
  rw [openSlot_eq] at h
  rw [openSlot_eq, openSlot_eq]
  dsimp only at h ⊢
  split at h
  · rfl
  · rw [Outcome.journal_after, nothingRefused_append] at h
    rw [insertNew_eq_of_nothingRefused h.2]

/-- **A request without a refusal** does what it does with an ample supply. -/
theorem run_eq_of_nothingRefused (request : Request F ε K V VS σ ω)
    (h : NothingRefused (request.run supply t).journal) :
    request.run supply t = request.run supply.ample t := by
  cases request with
  | insert key value =>
      simp only [Request.run, insert, Outcome.journal_map] at h ⊢
      split at h
      · rfl
      · rw [Outcome.journal_after, Outcome.journal_map, nothingRefused_append] at h
        rw [insertNew_eq_of_nothingRefused h.2]
  | openSlot key actions =>
      have hopen : NothingRefused (t.openSlot supply key).journal := by
        simp only [Request.run, openSlotAnd, Outcome.journal_map] at h
        split at h
        · exact h
        · exact (nothingRefused_append.mp h).1
      simp only [Request.run, openSlotAnd]
      rw [openSlot_eq_of_nothingRefused hopen]
  | contains key | lookUp key | clear => rfl
  | take key =>
      simp only [Request.run, take, Outcome.journal_map] at h ⊢
      split at h
      · rfl
      · rw [Outcome.journal_after, Outcome.journal_map, nothingRefused_append] at h
        rw [densityStep_eq_of_nothingRefused h.2]
  | erase key =>
      simp only [Request.run, erase, Outcome.journal_map] at h ⊢
      split at h
      · rfl
      · rw [Outcome.journal_after, Outcome.journal_map, nothingRefused_append] at h
        rw [densityStep_eq_of_nothingRefused h.2]
  | densityStep =>
      simp only [Request.run]
      rw [densityStep_eq_of_nothingRefused h]
  | walk memory visitor =>
      simp only [Request.run, Table.walk, Outcome.journal_map] at h ⊢
      split at h
      · next hsize => rw [if_pos hsize, if_pos hsize]
      · next hsize =>
          rw [Outcome.journal_after, Outcome.journal_map, nothingRefused_append] at h
          rw [if_neg hsize, if_neg hsize, restoreBand_eq_of_nothingRefused h.2]

/-- Without a refusal a request moves the gauge as if every array is granted. -/
theorem Sound.moves_ample (hsound : t.Sound) (request : Request F ε K V VS σ ω)
    (h : NothingRefused (request.run supply t).journal) :
    request.Moves (fun _ => true) t.gauge (request.run supply t).table.gauge := by
  rw [run_eq_of_nothingRefused request h]
  exact hsound.moves_run supply.ample request

/-- Where nothing is refused in a run, nothing is in its first request nor in the
rest. -/
theorem nothingRefused_cons {request : Request F ε K V VS σ ω}
    {rest : List (Supply ε × Request F ε K V VS σ ω)} :
    NothingRefused (t.runAll ((supply, request) :: rest)).journal ↔
      NothingRefused (request.run supply t).journal ∧
        NothingRefused ((request.run supply t).table.runAll rest).journal :=
  nothingRefused_append

end Table

/-- A step with every array granted is to the level that the rule names. -/
theorem Gauge.level_step_ample (g : Gauge Rat) :
    (g.step fun _ => true).level = g.band.next g.level g.size := by
  unfold step DensityBand.next
  cases g.band.target? g.level g.size <;> rfl

end ChainedTable
