import ChainedTable.Proofs.Independence

/-!
# ChainedTable.Proofs.Notices

Who writes to the log.

A journal holds calls, moves of stored items and notices. `noticesIn` keeps the
notices, in their order. Searching writes none, and neither does acquiring or
releasing an item, nor a visitor, whatever it does to its entry. Clearing writes
one. All others are written by density steps, or right after them.
-/

namespace ChainedTable

variable {F ε K KS V VS ρ σ ω : Type} {κ : Keeper} {p : Policies ε K KS V VS κ}

/-! ## events -/

variable {events rest : List (Event K KS V VS)}

@[simp] theorem noticesIn_append :
    noticesIn (events ++ rest) = noticesIn events ++ noticesIn rest :=
  List.filterMap_append

@[simp] theorem noticesIn_nil : noticesIn ([] : List (Event K KS V VS)) = [] := rfl

@[simp] theorem noticesIn_key (what : Handling K KS) :
    noticesIn (.key what :: rest : List (Event K KS V VS)) = noticesIn rest := rfl

@[simp] theorem noticesIn_value (what : Handling V VS) :
    noticesIn (.value what :: rest : List (Event K KS V VS)) = noticesIn rest := rfl

@[simp] theorem noticesIn_noticed (notice : Notice) :
    noticesIn (.noticed notice :: rest : List (Event K KS V VS)) = notice :: noticesIn rest := rfl

@[simp] theorem noticesIn_eachValue (happens : VS → Handling V VS) (value : Option VS) :
    noticesIn (Policies.eachValue happens value : List (Event K KS V VS)) = [] := by
  cases value <;> rfl

@[simp] theorem noticesIn_releaseValue (value : Option VS) :
    noticesIn (Policies.releaseValue value : List (Event K KS V VS)) = [] :=
  noticesIn_eachValue ..

@[simp] theorem noticesIn_acquireValue (copies : ε) (source : Option V) :
    noticesIn (p.acquireValue copies source).2 = [] := by
  unfold Policies.acquireValue
  split
  · rfl
  · split <;> rfl

/-- A search writes no notice. -/
@[simp] theorem noticesIn_probe (t : Table F p) (key : K) : noticesIn (t.probe key).calls = [] := by
  refine List.filterMap_eq_nil_iff.mpr fun event hevent => ?_
  have hquery := Table.query_of_mem_probe hevent
  cases event with
  | hashed | compared => rfl
  | key | value | noticed => exact hquery.elim

/-! ## operations -/

/-- Clearing writes one notice, after everything was released. -/
theorem noticesIn_clear (t : Table F p) :
    noticesIn t.clear.journal = [.cleared t.size t.buckets] := by
  have hquiet : noticesIn t.releases = [] := by
    rw [noticesIn, Table.releases, List.filterMap_flatMap]
    exact List.flatMap_eq_nil_iff.mpr fun entry _ => noticesIn_releaseValue entry.2.value
  simp [Table.clear, hquiet]

@[simp] theorem noticesIn_slotAction (copies : ε) (value : Option VS) (action : SlotAction V VS) :
    noticesIn (action.run p copies value).journal = [] := by
  cases action with
  | store source =>
      simp only [SlotAction.run]
      split
      · rfl
      · simp
  | replace stored => cases value <;> rfl
  | put | clear | look | isEmpty | overwrite => simp [SlotAction.run]

@[simp] theorem noticesIn_onSlots (t : Table F p) (id : EntryId)
    (actions : List (ε × SlotAction V VS)) : noticesIn (t.onSlots id actions).journal = [] := by
  induction actions generalizing t with
  | nil => rfl
  | cons first rest ih => simp [Table.onSlots, Table.onSlot, ih]

/-! ## walks -/

variable [Scale F]

/-- A visit writes no notice. -/
@[simp] theorem noticesIn_visit (visit : Visit F ε K V VS ρ) (link : Link) (id : EntryId)
    (t : Table F p) (entry : Entry KS VS) :
    noticesIn (visit.run link id t entry).journal = [] := by
  induction visit generalizing t entry with
  | key next ih | value next ih | readings next ih => exact ih _ t entry
  | slot copies action next ih => simp [Visit.run, ih]
  | contains other next ih => simp [Visit.run, Table.contains, ih]
  | lookUp other next ih => simp [Visit.run, Table.get?, ih]
  | leave result => rfl
  | erase result => simp [Visit.run, Table.eraseAt]
  | take result => simp [Visit.run, Table.takeAt]

namespace Walk

variable (visitor : Visitor F ε K V VS σ ω)

theorem noticesIn_step (w : Walk F p σ) :
    noticesIn (w.step visitor).1.journal.toList = noticesIn w.journal.toList := by
  have hnext : (w.nextBucket : Walk F p σ × Option (Ending ω)).1.journal = w.journal := by
    unfold nextBucket
    dsimp only
    split <;> rfl
  unfold step
  split
  · rw [hnext]
  · next id _ =>
      split
      · rw [hnext]
      · next entry _ =>
          have hvisited : noticesIn
              (w.visited ((visitor w.memory).run w.link id w.table entry)).journal.toList =
                noticesIn w.journal.toList := by
            simp [visited]
          rw [visitAt_eq]
          split
          · unfold advance
            split <;> exact hvisited
          · exact hvisited
          · exact hvisited

theorem noticesIn_runWithin (bound : Nat) (w : Walk F p σ) :
    noticesIn (w.runWithin visitor bound).1.journal.toList = noticesIn w.journal.toList := by
  induction bound generalizing w with
  | zero => rfl
  | succ bound ih =>
      have hstep := noticesIn_step visitor w
      unfold runWithin
      split
      · next w' hw =>
          rw [hw] at hstep
          rw [ih, hstep]
      · next w' ending hw =>
          rw [hw] at hstep
          exact hstep

/-- A walk writes no notice before the density is brought back. -/
theorem noticesIn_run (t : Table F p) (memory : σ) :
    noticesIn ((Walk.start t memory).run visitor).1.journal.toList = [] :=
  noticesIn_runWithin visitor _ _

end Walk

end ChainedTable
