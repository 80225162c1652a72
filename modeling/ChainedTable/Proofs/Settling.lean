import ChainedTable.Proofs.Checked
import ChainedTable.Proofs.Recovery
import ChainedTable.Proofs.Regrouping
import Mathlib.Data.Fintype.Card

/-!
# ChainedTable.Proofs.Settling

Why density steps come to an end.

Steps are repeated until one of them does not resize, and nothing counts them.
There could be no end to it: a step up could call for a step down, and that one
for a step up again.  With a band that was accepted this does not happen.

1. Whoever comes down finds the count under the upper end, and goes down again or
   stays (`Accepted.falls`).
2. Whoever goes up finds the count over the lower end, and goes up again or stays
   (`Accepted.rises`).
3. There are only so many levels either way.

So the loop without a bound, `Table.restoring`, ends for every table and whatever
is refused on the way.  `Table.restoreBand` stops at a bound, and that bound is
never what stops it.  For this the band does not matter: in a loop that ends no
level comes twice, for a second time would be followed by a third
(`lt_levelCount`).
-/

namespace ChainedTable

variable {F ε K KS V VS : Type} {κ : Keeper} {p : Policies ε K KS V VS κ}

namespace Level

variable {level other : Level}

/-- No level is both above and below another. -/
theorem down?_ne_of_up? (h : level.up? = some other) : level.down? ≠ some other := by
  revert level other
  decide

theorem up?_ne_self : level.up? ≠ some level := by
  revert level
  decide

theorem down?_ne_self : level.down? ≠ some level := by
  revert level
  decide

theorem lt_of_up? (h : level.up? = some other) : level < other := by
  revert level other
  decide

theorem not_lt_of_down? (h : level.down? = some other) : ¬level < other := by
  revert level other
  decide

/-- **No level comes twice** before moves that depend on the level only come to
their end, so there are fewer of them than levels. -/
theorem lt_levelCount {move : Level → Level} (moves : Level → Bool) {count : Nat}
    (hbefore : ∀ i < count, moves (move^[i] level) = true)
    (hend : moves (move^[count] level) = false) : count < levelCount := by
  -- after the same level there would be as many moves again
  have hne {i j : Nat} (hlt : i < j) (hle : j ≤ count) : move^[i] level ≠ move^[j] level := by
    intro heq
    have hagain : move^[count - j + i] level = move^[count] level := by
      rw [Function.iterate_add_apply, heq, ← Function.iterate_add_apply, Nat.sub_add_cancel hle]
    have hmoves := hbefore (count - j + i) (by omega)
    rw [hagain, hend] at hmoves
    exact Bool.false_ne_true hmoves
  have hinjective : Function.Injective fun i : Fin (count + 1) => move^[i.val] level := by
    intro i j heq
    rcases lt_trichotomy i j with hlt | hsame | hgt
    · exact absurd heq (hne hlt (Nat.le_of_lt_succ j.isLt))
    · exact hsame
    · exact absurd heq.symm (hne hgt (Nat.le_of_lt_succ i.isLt))
  have hcard := Fintype.card_le_of_injective _ hinjective
  rwa [Fintype.card_fin, Fintype.card_fin] at hcard

end Level

/-! ## levels -/

namespace DensityBand

variable {band : DensityBand Rat} {level : Level} {n steps i j : Nat}

/-- Densities decide on the steps in a band as exact quotients do in another. -/
def DecidesAs [Scale F] (band : DensityBand F) (exact : DensityBand Rat) : Prop :=
  ∀ (level : Level) (entries : Nat), band.target? level entries = exact.target? level entries

theorem DecidesAs.refl (band : DensityBand Rat) : band.DecidesAs band := fun _ _ => rfl

/-- The level after a number of steps, with the count as it is. -/
def path (band : DensityBand Rat) (level : Level) (entries steps : Nat) : Level :=
  (band.next · entries)^[steps] level

theorem path_succ (band : DensityBand Rat) (level : Level) (n steps : Nat) :
    band.path level n (steps + 1) = band.next (band.path level n steps) n :=
  Function.iterate_succ_apply' ..

/-- A number of steps all lead one way, and the next one finds nothing to do. -/
structure Runs (band : DensityBand Rat) (way : Level → Option Level) (level : Level)
    (entries steps : Nat) : Prop where
  each {i : Nat} : i < steps →
    way (band.path level entries i) = some (band.path level entries (i + 1))
  rest : band.target? (band.path level entries steps) entries = none

namespace Runs

variable {way back : Level → Option Level}

theorem zero (h : band.Inside level n) : band.Runs way level n 0 where
  each hi := absurd hi (Nat.not_lt_zero _)
  rest := target?_eq_none_iff.mpr h

/-- One step more, the same way. -/
theorem cons (h : band.Runs way (band.next level n) n steps)
    (hway : way level = some (band.next level n)) : band.Runs way level n (steps + 1) where
  each {i} hi := by
    cases i with
    | zero => exact hway
    | succ i => exact h.each (Nat.lt_of_succ_lt_succ hi)
  rest := h.rest

/-- Where there is nothing to do the level stays. -/
theorem stays (h : band.Runs way level n steps) (hj : steps ≤ j) :
    band.path level n j = band.path level n steps := by
  induction j, hj using Nat.le_induction with
  | base => rfl
  | succ j _ ih => rw [path_succ, ih, next_eq_self (target?_eq_none_iff.mp h.rest)]

/-- No step leads back. -/
theorem never_back (h : band.Runs way level n steps)
    (hback : ∀ level other, way level = some other → back level ≠ some other)
    (hself : ∀ level, back level ≠ some level) (j : Nat) :
    back (band.path level n j) ≠ some (band.path level n (j + 1)) := by
  rcases lt_or_ge j steps with hlt | hge
  · exact hback _ _ (h.each hlt)
  · rw [h.stays hge, h.stays (Nat.le_succ_of_le hge)]
    exact hself _

end Runs

/-- Steps that keep something, and have fewer levels left each time, all lead the
way that they do and come to an end. -/
theorem exists_runs {way : Level → Option Level} (keeps : Level → Prop) (left : Level → Nat)
    (hstep : ∀ level, keeps level → band.Inside level n ∨
      (way level = some (band.next level n) ∧ keeps (band.next level n) ∧
        left (band.next level n) < left level))
    (h : keeps level) : ∃ steps ≤ left level, band.Runs way level n steps := by
  induction hleft : left level using Nat.strong_induction_on generalizing level with
  | _ bound ih =>
      rcases hstep level h with hin | ⟨hway, hnext, hlt⟩
      · exact ⟨0, Nat.zero_le _, .zero hin⟩
      · obtain ⟨steps, hsteps, hruns⟩ := ih _ (hleft ▸ hlt) hnext rfl
        exact ⟨steps + 1, by omega, hruns.cons hway⟩

/-- **From under the upper end** the steps lead down, at most to the bottom. -/
theorem Accepted.falls (hband : band.Accepted) (hbelow : band.Below level n) :
    ∃ steps ≤ level.val, band.Runs Level.down? level n steps := by
  refine exists_runs (band.Below · n) (fun level => level.val) (fun level hbelow => ?_) hbelow
  obtain ⟨-, hin⟩ | ⟨hdown, hover⟩ | ⟨-, -, hunder⟩ := next_cases band level n
  · exact .inl hin
  · have hlower := Level.val_of_down? hdown
    exact .inr ⟨hdown, hband.below_of_down? hdown hover, by omega⟩
  · exact absurd hbelow hunder

/-- **From over the lower end** the steps of a count that is not zero lead up, at
most to the top. -/
theorem Accepted.rises (hband : band.Accepted) (hn : 0 < n) (habove : band.Above level n) :
    ∃ steps ≤ Level.top.val - level.val, band.Runs Level.up? level n steps := by
  refine exists_runs (band.Above · n) (fun level => Level.top.val - level.val)
    (fun level habove => ?_) habove
  obtain ⟨-, hin⟩ | ⟨-, hover⟩ | ⟨hup, -, hunder⟩ := next_cases band level n
  · exact .inl hin
  · exact absurd habove hover
  · have hhigher := Level.val_of_up? hup
    have hle : (band.next level n).val ≤ Level.top.val := Nat.le_of_lt_succ (Fin.isLt _)
    exact .inr ⟨hup, hband.above_of_up? hup hn hunder, by omega⟩

/-- How density steps end, with the count as it is. -/
structure ComesToRest (band : DensityBand Rat) (level : Level) (entries : Nat) : Prop where
  /-- They lead down, in at most as many steps as there are levels below, or up,
  in at most as many as there are above. -/
  inTime : (∃ steps ≤ level.val, band.Runs Level.down? level entries steps) ∨
    ∃ steps ≤ Level.top.val - level.val, band.Runs Level.up? level entries steps
  /-- If one leads down, none leads up. -/
  oneWay (i j : Nat) :
    (band.path level entries i).down? = some (band.path level entries (i + 1)) →
      (band.path level entries j).up? ≠ some (band.path level entries (j + 1))

/-- A count is on the right side of one of the ends at least. -/
theorem Accepted.comesToRest (hband : band.Accepted) (level : Level) (n : Nat) :
    band.ComesToRest level n := by
  have hinTime : (∃ steps ≤ level.val, band.Runs Level.down? level n steps) ∨
      ∃ steps ≤ Level.top.val - level.val, band.Runs Level.up? level n steps := by
    by_cases hbelow : band.Below level n
    · exact .inl (hband.falls hbelow)
    · have habove : band.Above level n := by
        by_contra hover
        exact hbelow ((hband.below_succ hover).of_le (Nat.le_succ n))
      exact .inr (hband.rises (hband.pos_of_not_below hbelow) habove)
  refine ⟨hinTime, fun i j hdown hup => ?_⟩
  obtain ⟨steps, -, hruns⟩ | ⟨steps, -, hruns⟩ := hinTime
  · exact hruns.never_back (fun _ _ hdown hup => Level.down?_ne_of_up? hup hdown)
      (fun _ => Level.up?_ne_self) j hup
  · exact hruns.never_back (fun _ _ hup => Level.down?_ne_of_up? hup)
      (fun _ => Level.down?_ne_self) i hdown

/-- The level to move to, if its bucket array is granted. -/
def granted? [Scale F] (band : DensityBand F) (granted : Nat → Bool) (entries : Nat)
    (level : Level) : Option Level :=
  (band.target? level entries).filter fun target => granted target.buckets

end DensityBand

/-! ## one step of a table -/

namespace Table

/-- The outcome of a resize that found its bucket array. -/
def moved (t : Table F p) (target : Level) (step : StepOutcome) : Outcome F p StepOutcome :=
  ⟨step,
    { t with toChains := t.toChains.rehash target.buckets, level := target, lastStep := step },
    [.noticed (.rehashed t.size t.buckets target.buckets target.val)]⟩

/-- The outcome of a step that only leaves a record. -/
def recorded (t : Table F p) (step : StepOutcome) (journal : List (Event K KS V VS)) :
    Outcome F p StepOutcome :=
  ⟨step, { t with lastStep := step }, journal⟩

section Steps

variable [Scale F] {t t' : Table F p} {supply : Supply ε} {outcome : Outcome F p StepOutcome}

/-- What one density step does. -/
inductive StepsTo (t : Table F p) (supply : Supply ε) : Outcome F p StepOutcome → Prop where
  | steady : t.band.target? t.level t.size = none → StepsTo t supply (t.recorded .steady [])
  | abandoned {target : Level} : t.band.target? t.level t.size = some target →
    supply.buckets target.buckets = false →
    StepsTo t supply (t.recorded (.abandoned t.buckets target.buckets)
      [.noticed (.abandoned t.buckets target.buckets)])
  | grew {target : Level} : t.band.target? t.level t.size = some target →
    t.level.up? = some target → supply.buckets target.buckets = true →
    StepsTo t supply (t.moved target (.grew t.buckets target.buckets))
  | shrank {target : Level} : t.band.target? t.level t.size = some target →
    t.level.down? = some target → supply.buckets target.buckets = true →
    StepsTo t supply (t.moved target (.shrank t.buckets target.buckets))

theorem stepsTo_densityStep (t : Table F p) (supply : Supply ε) :
    t.StepsTo supply (t.densityStep supply) := by
  cases htarget : t.band.target? t.level t.size with
  | none =>
      rw [densityStep_of_target?_eq_none supply htarget]
      exact .steady htarget
  | some target =>
      have hsize : (t.toChains.rehash target.buckets).size = t.size :=
        (Chains.sameRoom_rehash t.toChains target.buckets).size_eq
      unfold densityStep resize
      simp only [htarget]
      split
      · next hgranted =>
          rw [hsize]
          rcases DensityBand.down?_or_up?_of_target? htarget with hdown | hup
          · rw [if_neg (Level.not_lt_of_down? hdown)]
            exact .shrank htarget hdown hgranted
          · rw [if_pos (Level.lt_of_up? hup)]
            exact .grew htarget hup hgranted
      · next hrefused => exact .abandoned htarget (Bool.eq_false_iff.mpr hrefused)

/-- A step that resizes is to the level that is granted. -/
theorem StepsTo.granted? (h : t.StepsTo supply outcome) :
    outcome.answer.resized = (t.band.granted? supply.buckets t.size t.level).isSome ∧
      outcome.table.level = (t.band.granted? supply.buckets t.size t.level).getD t.level := by
  unfold DensityBand.granted?
  cases h with
  | steady htarget => simp [htarget, recorded, StepOutcome.resized]
  | abandoned htarget hrefused =>
      simp [htarget, hrefused, recorded, StepOutcome.resized, Option.filter_some]
  | grew htarget _ hgranted | shrank htarget _ hgranted =>
      simp [htarget, hgranted, moved, StepOutcome.resized, Option.filter_some]

/-- A table and what is left of it by a step that does not resize. -/
inductive Finishes (last : Table F p) : Table F p → Prop where
  /-- There is nothing to do. -/
  | steady : last.band.target? last.level last.size = none →
    Finishes last { last with lastStep := .steady }
  /-- The bucket array for the level to move to was refused. -/
  | abandoned {target : Level} : last.band.target? last.level last.size = some target →
    Finishes last { last with lastStep := .abandoned last.buckets target.buckets }

theorem StepsTo.finishes (h : t.StepsTo supply outcome) (hrests : outcome.answer.resized = false) :
    t.Finishes outcome.table := by
  cases h with
  | steady htarget => exact .steady htarget
  | abandoned htarget _ => exact .abandoned htarget
  | grew | shrank => contradiction

end Steps

/-! ## the loop -/

section Loop

variable [Scale F] {t : Table F p} {supplies : Nat → Supply ε} {supply : Supply ε}
  {steps bound : Nat}

/-- A round of `restoring`, with the number of resizes so far. -/
def restoringRound (supplies : Nat → Supply ε) :
    Nat × Table F p → Part ((Nat × Table F p) ⊕ (Nat × Table F p))
  | (resizes, t) =>
    let step := t.densityStep (supplies resizes)
    Part.some (if step.answer.resized then .inr (resizes + 1, step.table)
      else .inl (resizes, step.table))

/-- Density steps up to the first that does not resize, however many there are:
the number of resizes, and the table. Every step has a supply of its own. -/
def restoring (t : Table F p) (supplies : Nat → Supply ε) : Part (Nat × Table F p) :=
  rounds (restoringRound supplies) (0, t)

/-- The table after a number of density steps. -/
def stepped (t : Table F p) (supplies : Nat → Supply ε) : Nat → Table F p
  | 0 => t
  | steps + 1 => ((t.stepped supplies steps).densityStep (supplies steps)).table

/-- Whether the step after a number of others resizes. -/
def resizesAt (t : Table F p) (supplies : Nat → Supply ε) (steps : Nat) : Bool :=
  ((t.stepped supplies steps).densityStep (supplies steps)).answer.resized

theorem stepped_succ (t : Table F p) (supplies : Nat → Supply ε) (steps : Nat) :
    t.stepped supplies (steps + 1) =
      (t.densityStep (supplies 0)).table.stepped (fun i => supplies (i + 1)) steps := by
  induction steps with
  | zero => rfl
  | succ steps ih =>
      rw [stepped, ih]
      rfl

theorem resizesAt_succ (t : Table F p) (supplies : Nat → Supply ε) (steps : Nat) :
    t.resizesAt supplies (steps + 1) =
      (t.densityStep (supplies 0)).table.resizesAt (fun i => supplies (i + 1)) steps := by
  rw [resizesAt, stepped_succ]
  rfl

@[simp] theorem size_stepped (t : Table F p) (supplies : Nat → Supply ε) (steps : Nat) :
    (t.stepped supplies steps).size = t.size := by
  induction steps with
  | zero => rfl
  | succ steps ih => rw [stepped, size_densityStep, ih]

@[simp] theorem band_stepped (t : Table F p) (supplies : Nat → Supply ε) (steps : Nat) :
    (t.stepped supplies steps).band = t.band := by
  induction steps with
  | zero => rfl
  | succ steps ih => rw [stepped, band_densityStep, ih]

/-- A round of the loop is one step more. -/
theorem restoringRound_stepped (t : Table F p) (supplies : Nat → Supply ε) (steps : Nat) :
    restoringRound supplies (steps, t.stepped supplies steps) =
      Part.some (if t.resizesAt supplies steps then
        .inr (steps + 1, t.stepped supplies (steps + 1))
      else .inl (steps, t.stepped supplies (steps + 1))) := rfl

/-- While the steps resize the loop goes on. -/
theorem rounds_stepped (h : ∀ i < steps, t.resizesAt supplies i = true) :
    t.restoring supplies = rounds (restoringRound supplies) (steps, t.stepped supplies steps) := by
  induction steps with
  | zero => rfl
  | succ steps ih =>
      rw [ih fun i hi => h i (Nat.lt_succ_of_lt hi)]
      refine rounds_of_next ?_
      rw [restoringRound_stepped, h steps (Nat.lt_succ_self steps), if_pos rfl]

/-- The first step that does not resize is the last. -/
theorem restoring_eq (h : ∀ i < steps, t.resizesAt supplies i = true)
    (hrests : t.resizesAt supplies steps = false) :
    t.restoring supplies = Part.some (steps, t.stepped supplies (steps + 1)) := by
  rw [rounds_stepped h]
  refine rounds_of_done ?_
  rw [restoringRound_stepped, hrests, if_neg Bool.false_ne_true]

/-- If all steps resize the loop does not end. -/
theorem exists_rests_of_dom (h : (t.restoring supplies).Dom) :
    ∃ steps, t.resizesAt supplies steps = false := by
  by_contra hall
  simp only [not_exists, Bool.not_eq_false] at hall
  -- there is a round after every round that the loop comes to
  let Reached (round : Nat × Table F p) : Prop := round.2 = t.stepped supplies round.1
  refine PFun.fixInduction (C := fun round => Reached round → False) (Part.get_mem h) ?_ rfl
  rintro ⟨steps, t'⟩ _ hagain hreached
  obtain rfl : t' = t.stepped supplies steps := hreached
  refine hagain (steps + 1, t.stepped supplies (steps + 1)) ?_ rfl
  rw [restoringRound_stepped, hall steps, if_pos rfl]
  exact Part.mem_some _

/-- A loop with a step that does not resize ends, with the first of these. -/
theorem exists_restoring_eq (h : t.resizesAt supplies steps = false) :
    ∃ first ≤ steps, (∀ i < first, t.resizesAt supplies i = true) ∧
      t.resizesAt supplies first = false ∧
      t.restoring supplies = Part.some (first, t.stepped supplies (first + 1)) := by
  classical
  have hexists : ∃ first, t.resizesAt supplies first = false := ⟨steps, h⟩
  have hbefore : ∀ i < Nat.find hexists, t.resizesAt supplies i = true := fun i hi => by
    simpa using Nat.find_min hexists hi
  exact ⟨Nat.find hexists, Nat.find_min' hexists h, hbefore, Nat.find_spec hexists,
    restoring_eq hbefore (Nat.find_spec hexists)⟩

/-- With one supply for all steps, the steps before the last are fewer than there
are levels. -/
theorem lt_levelCount_of_resizesAt (h : ∀ i < steps, t.resizesAt (fun _ => supply) i = true)
    (hrests : t.resizesAt (fun _ => supply) steps = false) : steps < levelCount := by
  let granted? := t.band.granted? supply.buckets t.size
  let move (level : Level) : Level := (granted? level).getD level
  have hlevel (i : Nat) : (t.stepped (fun _ => supply) i).level = move^[i] t.level := by
    induction i with
    | zero => rfl
    | succ i ih =>
        have hstep := ((t.stepped (fun _ => supply) i).stepsTo_densityStep supply).granted?.2
        rw [band_stepped, size_stepped, ih] at hstep
        rw [Function.iterate_succ_apply']
        exact hstep
  have hresizes (i : Nat) :
      t.resizesAt (fun _ => supply) i = (granted? (move^[i] t.level)).isSome := by
    have hstep := ((t.stepped (fun _ => supply) i).stepsTo_densityStep supply).granted?.1
    rw [band_stepped, size_stepped, hlevel] at hstep
    exact hstep
  simp only [hresizes] at h hrests
  exact Level.lt_levelCount (fun level => (granted? level).isSome) h hrests

/-- Within a bound that is large enough the steps are those of the loop. -/
theorem restoreBandWithin_eq (h : ∀ i < steps, t.resizesAt (fun _ => supply) i = true)
    (hrests : t.resizesAt (fun _ => supply) steps = false) (hbound : steps < bound) :
    (restoreBandWithin supply bound t).table = t.stepped (fun _ => supply) (steps + 1) := by
  -- after a step that resizes, what is left is a loop from the table that it gave
  induction steps generalizing t bound with
  | zero =>
      obtain ⟨bound, rfl⟩ := Nat.exists_eq_succ_of_ne_zero (Nat.ne_of_gt hbound)
      unfold restoreBandWithin
      dsimp only
      rw [show (t.densityStep supply).answer.resized = false from hrests,
        if_neg Bool.false_ne_true]
      rfl
  | succ steps ih =>
      obtain ⟨bound, rfl⟩ := Nat.exists_eq_succ_of_ne_zero (Nat.ne_zero_of_lt hbound)
      unfold restoreBandWithin
      dsimp only
      rw [show (t.densityStep supply).answer.resized = true from h 0 (Nat.succ_pos steps),
        if_pos rfl, stepped_succ]
      refine ih (fun i hi => ?_) ?_ (Nat.lt_of_succ_lt_succ hbound)
      · have hnext := h (i + 1) (Nat.succ_lt_succ hi)
        rwa [resizesAt_succ] at hnext
      · rwa [resizesAt_succ] at hrests

theorem table_restoreBand (t : Table F p) (supply : Supply ε) :
    (t.restoreBand supply).table = (restoreBandWithin supply levelCount t).table := by
  unfold restoreBand
  dsimp only
  split <;> rfl

/-- **The bound is never what stops** `restoreBand`: if the loop ends, then with
the same table. -/
theorem restoring_eq_of_dom (h : (t.restoring fun _ => supply).Dom) : ∃ resizes,
    t.resizesAt (fun _ => supply) resizes = false ∧
    (t.restoreBand supply).table = t.stepped (fun _ => supply) (resizes + 1) ∧
    (t.restoring fun _ => supply) = Part.some (resizes, (t.restoreBand supply).table) := by
  obtain ⟨steps, hsteps⟩ := exists_rests_of_dom h
  obtain ⟨first, -, hbefore, hrests, heq⟩ := exists_restoring_eq hsteps
  have htable : (t.restoreBand supply).table = t.stepped (fun _ => supply) (first + 1) := by
    rw [table_restoreBand]
    exact restoreBandWithin_eq hbefore hrests (lt_levelCount_of_resizesAt hbefore hrests)
  exact ⟨first, hrests, htable, by rw [heq, htable]⟩

/-- If the loop ends, the last step on record did not resize. -/
theorem resized_restoreBand_of_dom (h : (t.restoring fun _ => supply).Dom) :
    (t.restoreBand supply).table.lastStep.resized = false := by
  obtain ⟨resizes, hrests, htable, -⟩ := restoring_eq_of_dom h
  rw [htable, stepped, lastStep_densityStep]
  exact hrests

end Loop

/-! ## accepted bands -/

section Accepted

variable [Scale F] {t : Table F p} {band : DensityBand Rat} {supply : Supply ε}
  {supplies : Nat → Supply ε} {steps : Nat}

/-- A step that resizes is to the level that the rule names. -/
theorem StepsTo.level_eq_next {outcome : Outcome F p StepOutcome} (h : t.StepsTo supply outcome)
    (hdecides : t.band.DecidesAs band) (hresized : outcome.answer.resized = true) :
    outcome.table.level = band.next t.level t.size := by
  cases h with
  | steady | abandoned => contradiction
  | grew htarget | shrank htarget =>
      rw [hdecides] at htarget
      rw [DensityBand.next, htarget]
      rfl

/-- While the steps resize they follow the path of the level. -/
theorem level_stepped (hdecides : t.band.DecidesAs band)
    (h : ∀ i < steps, t.resizesAt supplies i = true) :
    (t.stepped supplies steps).level = band.path t.level t.size steps := by
  induction steps with
  | zero => rfl
  | succ steps ih =>
      have hlevel := ih fun i hi => h i (Nat.lt_succ_of_lt hi)
      have hstep := (t.stepped supplies steps).stepsTo_densityStep (supplies steps)
      have hnext := hstep.level_eq_next (band_stepped t supplies steps ▸ hdecides)
        (h steps (Nat.lt_succ_self steps))
      rw [size_stepped, hlevel] at hnext
      rw [DensityBand.path_succ, stepped, hnext]

/-- A step does not resize where the path has come to its end, or before that. -/
theorem exists_rests_of_path (hdecides : t.band.DecidesAs band)
    (h : band.target? (band.path t.level t.size steps) t.size = none)
    (supplies : Nat → Supply ε) : ∃ i ≤ steps, t.resizesAt supplies i = false := by
  by_contra hall
  have hall : ∀ i ≤ steps, t.resizesAt supplies i = true := fun i hi => by
    by_contra hrests
    exact hall ⟨i, hi, Bool.eq_false_iff.mpr hrests⟩
  have hlevel := level_stepped hdecides fun i hi => hall i (Nat.le_of_lt hi)
  have hlast := hall steps le_rfl
  rw [resizesAt, densityStep_of_target?_eq_none _
    (by rw [band_stepped, size_stepped, hlevel, hdecides, h])] at hlast
  contradiction

/-- With a band that was accepted the loop ends, before the levels do. -/
theorem exists_restoring_eq_of_accepted (hband : band.Accepted)
    (hdecides : t.band.DecidesAs band) (supplies : Nat → Supply ε) : ∃ steps,
    (steps ≤ t.level.val ∨ steps ≤ Level.top.val - t.level.val) ∧
    (∀ i < steps, t.resizesAt supplies i = true) ∧ t.resizesAt supplies steps = false ∧
    t.restoring supplies = Part.some (steps, t.stepped supplies (steps + 1)) := by
  obtain ⟨bound, hbound, hrest⟩ : ∃ bound,
      (bound ≤ t.level.val ∨ bound ≤ Level.top.val - t.level.val) ∧
      band.target? (band.path t.level t.size bound) t.size = none := by
    obtain ⟨bound, hle, hruns⟩ | ⟨bound, hle, hruns⟩ :=
      (hband.comesToRest t.level t.size).inTime
    · exact ⟨bound, .inl hle, hruns.rest⟩
    · exact ⟨bound, .inr hle, hruns.rest⟩
  obtain ⟨i, hi, hrests⟩ := exists_rests_of_path hdecides hrest supplies
  obtain ⟨first, hfirst, hends⟩ := exists_restoring_eq hrests
  have hle : first ≤ bound := hfirst.trans hi
  exact ⟨first, hbound.imp hle.trans hle.trans, hends⟩

theorem dom_restoring_of_accepted (hband : band.Accepted) (hdecides : t.band.DecidesAs band)
    (supplies : Nat → Supply ε) : (t.restoring supplies).Dom := by
  obtain ⟨_, -, -, -, heq⟩ := exists_restoring_eq_of_accepted hband hdecides supplies
  rw [heq]
  exact trivial

end Accepted

/-- How density steps end on a table. -/
structure ComesToRest (t : Table Rat p) : Prop where
  /-- Whatever is refused, the loop ends with a step that does not resize, after
  some that follow the path of the level. -/
  ends (supplies : Nat → Supply ε) : ∃ resizes,
    t.restoring supplies = Part.some (resizes, t.stepped supplies (resizes + 1)) ∧
    (resizes ≤ t.level.val ∨ resizes ≤ Level.top.val - t.level.val) ∧
    (∀ i ≤ resizes, (t.stepped supplies i).level = t.band.path t.level t.size i) ∧
    (t.stepped supplies resizes).Finishes (t.stepped supplies (resizes + 1))
  /-- The steps that are bounded end so too. -/
  bounded (supply : Supply ε) : ∃ resizes,
    (t.restoring fun _ => supply) = Part.some (resizes, (t.restoreBand supply).table)

theorem comesToRest_of_accepted {t : Table Rat p} (hband : t.band.Accepted) : t.ComesToRest where
  ends supplies := by
    obtain ⟨steps, hsteps, hbefore, hrests, heq⟩ :=
      exists_restoring_eq_of_accepted hband (.refl t.band) supplies
    exact ⟨steps, heq, hsteps, fun i hi => level_stepped (.refl t.band) fun j hj =>
      hbefore j (hj.trans_le hi), (stepsTo_densityStep _ _).finishes hrests⟩
  bounded supply := by
    obtain ⟨resizes, -, -, heq⟩ :=
      restoring_eq_of_dom (dom_restoring_of_accepted hband (.refl t.band) fun _ => supply)
    exact ⟨resizes, heq⟩

end Table

/-- What the checks of a band achieve for the repetition of density steps. -/
structure ComesToRest (p : Policies ε K KS V VS κ) (band : DensityBand Rat) : Prop where
  levels (level : Level) (entries : Nat) : band.ComesToRest level entries
  tables {t : Table Rat p} : t.band = band → t.ComesToRest

/-- **Density steps come to an end**, and do not turn on the way, for every band
that is accepted. -/
theorem comesToRest_of_checked (p : Policies ε K KS V VS κ) {low high : Rat}
    {band : DensityBand Rat} (h : DensityBand.checked low high = .ok band) :
    ComesToRest p band where
  levels := (DensityBand.accepted_of_checked h).comesToRest
  tables hband := Table.comesToRest_of_accepted (hband ▸ DensityBand.accepted_of_checked h)

theorem comesToRest_zero_one :
    DensityBand.checked (0 : Rat) 1 = .ok ⟨0, 1⟩ ∧ ComesToRest Table.spread ⟨0, 1⟩ := by
  have hchecked : DensityBand.checked (0 : Rat) 1 = .ok ⟨0, 1⟩ := by decide +kernel
  exact ⟨hchecked, comesToRest_of_checked Table.spread hchecked⟩

end ChainedTable
