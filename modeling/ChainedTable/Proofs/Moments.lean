import ChainedTable.Proofs.FiniteMap
import ChainedTable.Proofs.Snapshot

/-!
# ChainedTable.Proofs.Moments

A walk under way.

A walk can be looked at between two calls of its visitor, and within a call,
between two things that the visitor asks for.

1. Between two calls, some of the calls of the walk were made, and the others are
   still to come (`Walk.Midway`).
2. Within a call, some slot actions were carried out, and a rest of the visit is
   still to be run (`Visit.Reaches`).  All that has changed meanwhile is the value
   of the entry.
-/

namespace ChainedTable

variable {F ε K KS V VS ρ σ ω : Type} {κ : Keeper} {p : Policies ε K KS V VS κ}

theorem Outcome.after_after {α : Type} (outcome : Outcome F p α)
    (first second : List (Event K KS V VS)) :
    (outcome.after second).after first = outcome.after (first ++ second) := by
  simp [Outcome.after]

/-! ## within a call -/

variable [Scale F]

/-- A moment of a visit: the slot actions carried out so far, the rest of the
visit, and the table and the entry that it goes on with. -/
inductive Visit.Reaches (id : EntryId) : Visit F ε K V VS ρ → Table F p → Entry KS VS →
    List (ε × SlotAction V VS) → Visit F ε K V VS ρ → Table F p → Entry KS VS → Prop where
  | here {visit : Visit F ε K V VS ρ} {t : Table F p} {entry : Entry KS VS} :
    Reaches id visit t entry [] visit t entry
  | key {next : K → Visit F ε K V VS ρ} {t t' : Table F p} {entry entry' : Entry KS VS}
    {actions : List (ε × SlotAction V VS)} {rest : Visit F ε K V VS ρ} :
    Reaches id (next (p.keys.view entry.key)) t entry actions rest t' entry' →
      Reaches id (.key next) t entry actions rest t' entry'
  | value {next : Option V → Visit F ε K V VS ρ} {t t' : Table F p} {entry entry' : Entry KS VS}
    {actions : List (ε × SlotAction V VS)} {rest : Visit F ε K V VS ρ} :
    Reaches id (next (entry.value.map p.values.view)) t entry actions rest t' entry' →
      Reaches id (.value next) t entry actions rest t' entry'
  | slot {copies : ε} {action : SlotAction V VS} {next : SlotReply V → Visit F ε K V VS ρ}
    {t t' : Table F p} {entry entry' : Entry KS VS} {actions : List (ε × SlotAction V VS)}
    {rest : Visit F ε K V VS ρ} :
    Reaches id (next (action.run p copies entry.value).reply)
        { t with toChains := t.toChains.setValue id (action.run p copies entry.value).value }
        { entry with value := (action.run p copies entry.value).value } actions rest t' entry' →
      Reaches id (.slot copies action next) t entry ((copies, action) :: actions) rest t' entry'
  | contains {other : K} {next : Bool → Visit F ε K V VS ρ} {t t' : Table F p}
    {entry entry' : Entry KS VS} {actions : List (ε × SlotAction V VS)}
    {rest : Visit F ε K V VS ρ} :
    Reaches id (next (t.contains other).answer) t entry actions rest t' entry' →
      Reaches id (.contains other next) t entry actions rest t' entry'
  | lookUp {other : K} {next : Option V → Visit F ε K V VS ρ} {t t' : Table F p}
    {entry entry' : Entry KS VS} {actions : List (ε × SlotAction V VS)}
    {rest : Visit F ε K V VS ρ} :
    Reaches id (next (t.get? other).answer) t entry actions rest t' entry' →
      Reaches id (.lookUp other next) t entry actions rest t' entry'
  | readings {next : Readings F → Visit F ε K V VS ρ} {t t' : Table F p}
    {entry entry' : Entry KS VS} {actions : List (ε × SlotAction V VS)}
    {rest : Visit F ε K V VS ρ} :
    Reaches id (next t.readings) t entry actions rest t' entry' →
      Reaches id (.readings next) t entry actions rest t' entry'

namespace Visit.Reaches

variable {id : EntryId} {visit rest : Visit F ε K V VS ρ} {t t' : Table F p}
  {entry entry' : Entry KS VS} {actions : List (ε × SlotAction V VS)}

/-- The rest of a visit is what is run from there on. -/
theorem run_eq (h : visit.Reaches id t entry actions rest t' entry') (link : Link) :
    ∃ events, visit.run link id t entry = (rest.run link id t' entry').after events := by
  induction h with
  | here => exact ⟨[], rfl⟩
  | key _ ih => exact ih
  | value _ ih => exact ih
  | slot _ ih =>
      obtain ⟨events, heq⟩ := ih
      exact ⟨_, (congrArg (Outcome.after _) heq).trans (Outcome.after_after ..)⟩
  | contains _ ih =>
      obtain ⟨events, heq⟩ := ih
      exact ⟨_, (congrArg (Outcome.after _) heq).trans (Outcome.after_after ..)⟩
  | lookUp _ ih =>
      obtain ⟨events, heq⟩ := ih
      exact ⟨_, (congrArg (Outcome.after _) heq).trans (Outcome.after_after ..)⟩
  | readings _ ih => exact ih

/-- The entry has the value that the slot actions lead to. -/
theorem entry_eq (h : visit.Reaches id t entry actions rest t' entry') :
    entry' = { entry with value := (SlotAction.replies p actions entry.value).2 } := by
  induction h with
  | here => rfl
  | key _ ih => exact ih
  | value _ ih => exact ih
  | slot _ ih =>
      rw [ih]
      simp only [SlotAction.replies, ← SlotAction.run_eq_reply]
  | contains _ ih => exact ih
  | lookUp _ ih => exact ih
  | readings _ ih => exact ih

/-- In the table only the value of the entry is different. -/
theorem table_eq (h : visit.Reaches id t entry actions rest t' entry')
    (hget : t.arena.get? id = some entry) :
    t' = { t with toChains := t.toChains.setValue id entry'.value } := by
  induction h with
  | here => rw [Table.setValue_of_get? hget]
  | key _ ih => exact ih hget
  | value _ ih => exact ih hget
  | slot _ ih =>
      rw [ih (Table.get?_setValue hget _)]
      simp only [Table.setValue_setValue]
  | contains _ ih => exact ih hget
  | lookUp _ ih => exact ih hget
  | readings _ ih => exact ih hget

theorem get?_eq (h : visit.Reaches id t entry actions rest t' entry')
    (hget : t.arena.get? id = some entry) : t'.arena.get? id = some entry' := by
  rw [h.table_eq hget, h.entry_eq]
  exact Table.get?_setValue hget _

end Visit.Reaches

/-! ## between two calls -/

variable {visitor : Visitor F ε K V VS σ ω}

/-- Calls, and more calls from where they end. -/
theorem Table.Served.append {t t' t'' : Table F p} {memory memory' memory'' : σ}
    {calls calls' : List (Call KS VS ω)} {events events' : List (Event K KS V VS)}
    (h : Served visitor t memory calls t' memory' events)
    (h' : Served visitor t' memory' calls' t'' memory'' events') :
    Served visitor t memory (calls ++ calls') t'' memory'' (events ++ events') := by
  induction h with
  | nil => exact h'
  | cons hlink hget hrun _ ih =>
      rw [List.append_assoc]
      exact .cons hlink hget hrun (ih h')

namespace Walk

/-- The call that a walk makes next, if it has come to an entry. -/
def callsHere (w : Walk F p σ) (visitor : Visitor F ε K V VS σ ω) : List (Call KS VS ω) :=
  w.meets.toList.map fun (id, entry) => w.callAt visitor id entry

/-- A step that does not end a walk makes at most one call. -/
theorem Stands.goesOn {w w' : Walk F p σ} {lists : Nat → List EntryId} {front rest : List EntryId}
    (h : w.Stands lists front rest) (hstep : w.step visitor = (w', none)) :
    ∃ lists' front' rest' events, w'.Stands lists' front' rest' ∧
      w'.remaining lists' rest' + 1 = w.remaining lists rest ∧
      w.table.Served visitor w.memory (w.callsHere visitor) w'.table w'.memory events := by
  unfold callsHere
  cases rest with
  | nil =>
      rw [h.meets_nil]
      rw [h.step_nil visitor] at hstep
      rcases w.nextBucket_eq ω lists with ⟨hnext, heq⟩ | ⟨-, heq⟩
      · obtain ⟨rfl, -⟩ := Prod.mk.inj (heq.symm.trans hstep)
        exact ⟨lists, [], _, [], h.next hnext, Stands.remaining_next lists hnext, .nil⟩
      · simp [heq] at hstep
  | cons id rest =>
      obtain ⟨entry, hget⟩ := h.live
      obtain ⟨lists', front', hstands, -, -, hremaining⟩ := h.stands_movedOn visitor hget
      obtain ⟨link, hmoved⟩ := w.movedOn_eq visitor id entry
      rw [h.step_cons hget, visitAt_eq_movedOn] at hstep
      rw [h.meets_cons hget]
      cases hverdict : (w.callAt visitor id entry).verdict with
      | goOn =>
          rw [hverdict] at hstep
          obtain ⟨rfl, -⟩ := Prod.mk.inj hstep
          refine ⟨lists', front', rest, (w.outcomeAt visitor id entry).journal ++ [], hstands,
            hremaining, ?_⟩
          rw [hmoved]
          exact .cons (h.linked_eq.trans rfl) hget rfl .nil
      | stop => simp [hverdict] at hstep
      | fail why => simp [hverdict] at hstep

omit [Scale F] in
/-- The entry that a walk has come to is held by its link. -/
theorem meets_eq_some_iff {w : Walk F p σ} {id : EntryId} {entry : Entry KS VS} :
    w.meets = some (id, entry) ↔
      w.table.linked w.link = some id ∧ w.table.arena.get? id = some entry := by
  simp [meets, Option.bind_eq_some_iff]

theorem step_of_meets {w : Walk F p σ} {id : EntryId} {entry : Entry KS VS}
    (hmeets : w.meets = some (id, entry)) :
    w.step visitor = w.visitAt visitor id entry := by
  obtain ⟨hlink, hget⟩ := meets_eq_some_iff.mp hmeets
  unfold step
  simp only [hlink, hget]

theorem step_of_not_meets {w : Walk F p σ} (hmeets : w.meets = none) :
    w.step visitor = w.nextBucket := by
  unfold step
  unfold meets at hmeets
  split
  · rfl
  · next id hlink =>
      split
      · rfl
      · next entry hget => simp [hlink, hget] at hmeets

/-- A step does to the table what the visitor does at the entry it has come to. -/
theorem table_step (visitor : Visitor F ε K V VS σ ω) (w : Walk F p σ) :
    (w.step visitor).1.table =
      w.meets.elim w.table fun here => (w.outcomeAt visitor here.1 here.2).table := by
  cases hmeets : w.meets with
  | none =>
      rw [step_of_not_meets hmeets]
      unfold nextBucket
      dsimp only
      split <;> rfl
  | some here =>
      rw [step_of_meets hmeets, visitAt_eq_movedOn]
      split
      · exact table_movedOn ..
      · rfl
      · rfl

/-- A walk that comes to a state is in it, or takes a first step towards it. -/
theorem Reaches.cases_head {w w' : Walk F p σ} (h : w.Reaches visitor w') :
    w' = w ∨ ∃ next, w.step visitor = (next, none) ∧ next.Reaches visitor w' := by
  induction h with
  | start => exact .inl rfl
  | step _ hstep ih =>
      rcases ih with rfl | ⟨next, hnext, hreaches⟩
      · exact .inr ⟨_, hstep, .start⟩
      · exact .inr ⟨next, hnext, .step hreaches hstep⟩

theorem callsHere_of_meets {w : Walk F p σ} {id : EntryId} {entry : Entry KS VS}
    (hmeets : w.meets = some (id, entry)) :
    w.callsHere visitor = [w.callAt visitor id entry] := by
  rw [callsHere, hmeets]
  rfl

/-- The calls of a walk are the one made next, and those of the rest of it. -/
theorem callsWithin_of_goesOn {w w' : Walk F p σ} (hstep : w.step visitor = (w', none))
    (bound : Nat) : w.callsWithin visitor (bound + 1) =
      w.callsHere visitor ++ w'.callsWithin visitor bound := by
  rw [callsWithin, hstep]
  rfl

theorem callsWithin_of_ends {w w' : Walk F p σ} {ending : Ending ω}
    (hstep : w.step visitor = (w', some ending)) (bound : Nat) :
    w.callsWithin visitor (bound + 1) = w.callsHere visitor := by
  rw [callsWithin, hstep]
  rfl

/-- The next call comes first in whatever calls a walk makes. -/
theorem callsHere_comesFirst (w : Walk F p σ) (bound : Nat) :
    w.callsHere visitor <+: w.callsWithin visitor (bound + 1) := by
  obtain ⟨⟨w', ending⟩, hstep⟩ : ∃ outcome, w.step visitor = outcome := ⟨_, rfl⟩
  cases ending with
  | none => exact ⟨_, (callsWithin_of_goesOn hstep bound).symm⟩
  | some ending => exact ⟨[], by rw [callsWithin_of_ends hstep, List.append_nil]⟩

/-- Every call of a walk is made in a state that the walk comes to. -/
theorem Reaches.exists_of_mem_callsWithin {origin w : Walk F p σ}
    (h : origin.Reaches visitor w) {bound : Nat} {call : Call KS VS ω}
    (hcall : call ∈ w.callsWithin visitor bound) :
    ∃ w' entry, origin.Reaches visitor w' ∧ w'.meets = some (call.id, entry) ∧
      call = w'.callAt visitor call.id entry := by
  induction bound generalizing w with
  | zero => exact absurd hcall List.not_mem_nil
  | succ bound ih =>
      have hhere (hmem : call ∈ w.callsHere visitor) :
          ∃ entry, w.meets = some (call.id, entry) ∧ call = w.callAt visitor call.id entry := by
        obtain ⟨⟨id, entry⟩, hmeets, rfl⟩ := List.mem_map.mp hmem
        exact ⟨entry, Option.mem_toList.mp hmeets, rfl⟩
      obtain ⟨⟨w', ending⟩, hstep⟩ : ∃ outcome, w.step visitor = outcome := ⟨_, rfl⟩
      cases ending with
      | none =>
          rw [callsWithin_of_goesOn hstep] at hcall
          rcases List.mem_append.mp hcall with hmem | hmem
          · exact ⟨w, (hhere hmem).imp fun _ hentry => ⟨h, hentry⟩⟩
          · exact ih (.step h hstep) hmem
      | some ending =>
          rw [callsWithin_of_ends hstep] at hcall
          exact ⟨w, (hhere hcall).imp fun _ hentry => ⟨h, hentry⟩⟩

section Keeping

variable {origin w : Walk F p σ} {P : Table F p → Prop}
  (hvisit : ∀ {w : Walk F p σ} {id : EntryId} {entry : Entry KS VS},
    origin.Reaches visitor w → w.meets = some (id, entry) → P w.table →
      P (w.outcomeAt visitor id entry).table)

include hvisit

theorem Reaches.keep_step (h : origin.Reaches visitor w) (hP : P w.table) :
    P (w.step visitor).1.table := by
  rw [table_step]
  cases hmeets : w.meets with
  | none => exact hP
  | some here => exact hvisit h hmeets hP

/-- What every visit keeps, a walk keeps. -/
theorem Reaches.keep (h : origin.Reaches visitor w) (hP : P origin.table) : P w.table := by
  induction h with
  | start => exact hP
  | step hreaches hstep ih =>
      have hkept := hreaches.keep_step hvisit ih
      rw [hstep] at hkept
      exact hkept

/-- It is kept to the end of the walk. -/
theorem Reaches.keep_runWithin (h : origin.Reaches visitor w) (hP : P w.table) (bound : Nat) :
    P (w.runWithin visitor bound).1.table := by
  induction bound generalizing w with
  | zero => exact hP
  | succ bound ih =>
      have hkept := h.keep_step hvisit hP
      unfold runWithin
      split
      · next w' hstep =>
          rw [hstep] at hkept
          exact ih (.step h hstep) hkept
      · next w' ending hstep =>
          rw [hstep] at hkept
          exact hkept

end Keeping

/-- A state of a walk over a table: the calls made so far, and how much of the
walk is left. -/
structure Midway (t : Table F p) (memory : σ) (visitor : Visitor F ε K V VS σ ω)
    (w : Walk F p σ) (calls : List (Call KS VS ω)) (bound : Nat) : Prop where
  stands : ∃ lists front rest, w.Stands lists front rest ∧ w.remaining lists rest ≤ bound
  served : ∃ events, t.Served visitor memory calls w.table w.memory events
  calls_eq : t.calls memory visitor = calls ++ w.callsWithin visitor bound
  run_eq : (Walk.start t memory).run visitor = w.runWithin visitor bound

namespace Midway

variable {t : Table F p} {memory : σ} {w w' : Walk F p σ} {calls : List (Call KS VS ω)}
  {bound : Nat}

theorem start (h : t.Sound) (memory : σ) (visitor : Visitor F ε K V VS σ ω) :
    Midway t memory visitor (Walk.start t memory) [] (t.arena.slots.size + t.buckets) :=
  ⟨⟨_, _, _, h.stands_start memory, h.remaining_start_le memory⟩, ⟨[], .nil⟩, rfl, rfl⟩

/-- There is a step to take yet. -/
theorem bound_eq (h : Midway t memory visitor w calls bound) : ∃ less, bound = less + 1 := by
  obtain ⟨lists, front, rest, hstands, hle⟩ := h.stands
  have hlt := hstands.bucket_lt
  unfold remaining at hle
  exact ⟨bound - 1, by omega⟩

theorem step (h : Midway t memory visitor w calls bound) (hstep : w.step visitor = (w', none)) :
    ∃ less, Midway t memory visitor w' (calls ++ w.callsHere visitor) less := by
  obtain ⟨less, rfl⟩ := h.bound_eq
  obtain ⟨lists, front, rest, hstands, hle⟩ := h.stands
  obtain ⟨events, hserved⟩ := h.served
  obtain ⟨lists', front', rest', events', hstands', hremaining, hserved'⟩ := hstands.goesOn hstep
  refine ⟨less, ⟨lists', front', rest', hstands', by omega⟩, ⟨_, hserved.append hserved'⟩, ?_, ?_⟩
  · rw [h.calls_eq, callsWithin_of_goesOn hstep, List.append_assoc]
  · rw [h.run_eq, runWithin, hstep]

/-- The call for the entry that a walk has come to follows those made before. -/
theorem call (h : Midway t memory visitor w calls bound) {id : EntryId} {entry : Entry KS VS}
    (hmeets : w.meets = some (id, entry)) :
    calls ++ [w.callAt visitor id entry] <+: t.calls memory visitor := by
  obtain ⟨less, rfl⟩ := h.bound_eq
  rw [h.calls_eq, List.prefix_append_right_inj, ← callsHere_of_meets hmeets]
  exact w.callsHere_comesFirst less

end Midway

/-- Every state that a walk comes to is midway. -/
theorem Reaches.midway {t : Table F p} {memory : σ} {w : Walk F p σ}
    (h : (Walk.start t memory).Reaches visitor w) (hsound : t.Sound) :
    ∃ calls bound, Midway t memory visitor w calls bound := by
  induction h with
  | start => exact ⟨_, _, .start hsound memory visitor⟩
  | step _ hstep ih =>
      obtain ⟨calls, bound, hmidway⟩ := ih
      exact ⟨_, hmidway.step hstep⟩

end Walk

end ChainedTable
