import ChainedTable.Proofs.Mirror
import ChainedTable.Proofs.Snapshot

/-!
# ChainedTable.Proofs.Independence

What a table stores, and how it orders keys, is its own affair.

A caller who asks the same of two tables learns the same from them, and both write
the same notices.  Where a request brings along stored values or a visitor, asking
the same means that the values look the same and that the visitor goes on alike,
whatever it is told (`Request.Alike`).  A visitor may be handed stored values, so
what it remembers is not compared by equality, but by a relation of one's choice
that it keeps.
-/

namespace ChainedTable

variable {F ε ε' K KS KS' V VS VS' σ σ' ω ρ ρ' : Type}

open Policies

variable {κ : Keeper} (p : Policies ε K KS V VS κ) (p' : Policies ε' K KS' V VS' κ)

/-! ## the same requests -/

/-- Slot actions with values that look the same. -/
inductive SlotAction.Alike : SlotAction V VS → SlotAction V VS' → Prop
  | store (source : V) : Alike (.store source) (.store source)
  | put {stored : VS} {stored' : VS'} : p.values.view stored = p'.values.view stored' →
    Alike (.put stored) (.put stored')
  | clear : Alike .clear .clear
  | look : Alike .look .look
  | isEmpty : Alike .isEmpty .isEmpty
  | replace {stored : VS} {stored' : VS'} : p.values.view stored = p'.values.view stored' →
    Alike (.replace stored) (.replace stored')
  | overwrite {stored : Option VS} {stored' : Option VS'} : p.SameValue p' stored stored' →
    Alike (.overwrite stored) (.overwrite stored')

/-- Visits that ask the same, and go on alike after every answer. -/
inductive Visit.Alike (Q : ρ → ρ' → Prop) :
    Visit F ε K V VS ρ → Visit F ε' K V VS' ρ' → Prop
  | key {next : K → Visit F ε K V VS ρ} {next' : K → Visit F ε' K V VS' ρ'} :
    (∀ key, Alike Q (next key) (next' key)) → Alike Q (.key next) (.key next')
  | value {next : Option V → Visit F ε K V VS ρ} {next' : Option V → Visit F ε' K V VS' ρ'} :
    (∀ value, Alike Q (next value) (next' value)) → Alike Q (.value next) (.value next')
  | slot {copies : ε} {copies' : ε'} {action : SlotAction V VS} {action' : SlotAction V VS'}
    {next : SlotReply V → Visit F ε K V VS ρ} {next' : SlotReply V → Visit F ε' K V VS' ρ'} :
    action.Alike p p' action' → (∀ reply, Alike Q (next reply) (next' reply)) →
    Alike Q (.slot copies action next) (.slot copies' action' next')
  | contains {other : K} {next : Bool → Visit F ε K V VS ρ}
    {next' : Bool → Visit F ε' K V VS' ρ'} : (∀ answer, Alike Q (next answer) (next' answer)) →
    Alike Q (.contains other next) (.contains other next')
  | lookUp {other : K} {next : Option V → Visit F ε K V VS ρ}
    {next' : Option V → Visit F ε' K V VS' ρ'} :
    (∀ answer, Alike Q (next answer) (next' answer)) →
    Alike Q (.lookUp other next) (.lookUp other next')
  | readings {next : Readings F → Visit F ε K V VS ρ}
    {next' : Readings F → Visit F ε' K V VS' ρ'} :
    (∀ readings, Alike Q (next readings) (next' readings)) →
    Alike Q (.readings next) (.readings next')
  | leave {result : ρ} {result' : ρ'} : Q result result' → Alike Q (.leave result) (.leave result')
  | erase {result : ρ} {result' : ρ'} : Q result result' → Alike Q (.erase result) (.erase result')
  | take {result : Option VS → ρ} {result' : Option VS' → ρ'} :
    (∀ value value', p.SameValue p' value value' → Q (result value) (result' value')) →
    Alike Q (.take result) (.take result')

/-- Visitors that go on alike as long as what they remember is related. -/
def Visitor.Alike (R : σ → σ' → Prop) (visitor : Visitor F ε K V VS σ ω)
    (visitor' : Visitor F ε' K V VS' σ' ω) : Prop :=
  ∀ memory memory', R memory memory' →
    (visitor memory).Alike p p' (fun result result' => R result.1 result'.1 ∧ result.2 = result'.2)
      (visitor' memory')

/-- The same requests, with values that look the same and visitors that go on alike. -/
inductive Request.Alike (R : σ → σ' → Prop) :
    Request F ε K V VS σ ω → Request F ε' K V VS' σ' ω → Prop
  | insert (key : K) (value : Option V) : Alike R (.insert key value) (.insert key value)
  | openSlot (key : K) {actions : List (ε × SlotAction V VS)}
    {actions' : List (ε' × SlotAction V VS')} :
    List.Forall₂ (fun call call' => call.2.Alike p p' call'.2) actions actions' →
    Alike R (.openSlot key actions) (.openSlot key actions')
  | contains (key : K) : Alike R (.contains key) (.contains key)
  | lookUp (key : K) : Alike R (.lookUp key) (.lookUp key)
  | take (key : K) : Alike R (.take key) (.take key)
  | erase (key : K) : Alike R (.erase key) (.erase key)
  | clear : Alike R .clear .clear
  | densityStep : Alike R .densityStep .densityStep
  | walk {memory : σ} {memory' : σ'} {visitor : Visitor F ε K V VS σ ω}
    {visitor' : Visitor F ε' K V VS' σ' ω} : R memory memory' →
    visitor.Alike p p' R visitor' → Alike R (.walk memory visitor) (.walk memory' visitor')

/-- The same replies, with values that look the same. -/
inductive Reply.Alike (R : σ → σ' → Prop) : Reply V VS σ ω → Reply V VS' σ' ω → Prop
  | inserted (result : Except Failure Bool) : Alike R (.inserted result) (.inserted result)
  | filled (result : Except Failure (List (SlotReply V))) :
    Alike R (.filled result) (.filled result)
  | flag (answer : Bool) : Alike R (.flag answer) (.flag answer)
  | content (value : Option V) : Alike R (.content value) (.content value)
  | taken {value : Option VS} {value' : Option VS'} : p.SameValue p' value value' →
    Alike R (.taken value) (.taken value')
  | done : Alike R .done .done
  | stepped (step : StepOutcome) : Alike R (.stepped step) (.stepped step)
  | toured {ending : Ending ω} {memory : σ} {memory' : σ'} : R memory memory' →
    Alike R (.toured ⟨ending, memory⟩) (.toured ⟨ending, memory'⟩)

variable {p p'}

/-! ## slots -/

/-- Slot outcomes that look the same. -/
structure SlotOutcome.Mirrors (p : Policies ε K KS V VS κ) (p' : Policies ε' K KS' V VS' κ)
    (outcome : SlotOutcome K KS V VS) (outcome' : SlotOutcome K KS' V VS') : Prop where
  reply : outcome.reply = outcome'.reply
  value : p.SameValue p' outcome.value outcome'.value
  journal : p.SameJournal p' outcome.journal outcome'.journal

theorem SlotAction.Alike.run {action : SlotAction V VS} {action' : SlotAction V VS'}
    (h : action.Alike p p' action') (halike : p.Alike p') (copies : ε) (copies' : ε')
    {value : Option VS} {value' : Option VS'} (hvalue : p.SameValue p' value value') :
    SlotOutcome.Mirrors p p' (action.run p copies value) (action'.run p' copies' value') := by
  cases h with
  | store source =>
      obtain ⟨stored, hstored, hview⟩ := halike.values copies source
      obtain ⟨stored', hstored', hview'⟩ := halike.values' copies' source
      have hsame : p.values.view stored = p'.values.view stored' := hview.trans hview'.symm
      simp only [SlotAction.run, hstored, hstored']
      exact ⟨rfl, congrArg some hsame,
        .cons (congrArg (fun value => Event.value (.acquired value)) hsame)
          (sameJournal_releaseValue hvalue)⟩
  | put hsame =>
      exact ⟨rfl, congrArg some hsame,
        .cons (congrArg (fun value => Event.value (.supplied value)) hsame)
          (sameJournal_releaseValue hvalue)⟩
  | clear => exact ⟨rfl, rfl, sameJournal_releaseValue hvalue⟩
  | look => exact ⟨congrArg SlotReply.content hvalue, hvalue, rfl⟩
  | isEmpty =>
      obtain ⟨rfl, rfl⟩ | ⟨stored, stored', rfl, rfl, -⟩ := hvalue.cases
      · exact ⟨rfl, rfl, rfl⟩
      · exact ⟨rfl, hvalue, rfl⟩
  | replace hsame =>
      obtain ⟨rfl, rfl⟩ | ⟨old, old', rfl, rfl, hold⟩ := hvalue.cases
      · exact ⟨rfl, rfl, rfl⟩
      · exact ⟨rfl, congrArg some hsame,
          .cons (congrArg (fun value => Event.value (.overwritten value)) hold)
            (.cons (congrArg (fun value => Event.value (.supplied value)) hsame) rfl)⟩
  | overwrite hsame =>
      refine ⟨rfl, hsame, .append ?_ ?_⟩
      · refine sameJournal_eachValue ?_ hvalue
        exact fun _ _ hview => congrArg Handling.overwritten hview
      · refine sameJournal_eachValue ?_ hsame
        exact fun _ _ hview => congrArg Handling.supplied hview

namespace Table.Mirrors

variable {t : Table F p} {t' : Table F p'}

theorem onSlot (h : t.Mirrors t') (halike : p.Alike p') (id : EntryId) (copies : ε) (copies' : ε')
    {action : SlotAction V VS} {action' : SlotAction V VS'} (haction : action.Alike p p' action') :
    (t.onSlot id copies action).Mirrors Eq (t'.onSlot id copies' action') := by
  have hvalue : p.SameValue p' ((t.arena.get? id).bind (·.value))
      ((t'.arena.get? id).bind (·.value)) := by
    obtain ⟨hget, hget'⟩ | ⟨entry, entry', hget, hget', hview⟩ := h.get?_cases id
    · rw [hget, hget']
      rfl
    · rw [hget, hget']
      exact congrArg Entry.value hview
  have hdid := haction.run halike copies copies' hvalue
  exact ⟨hdid.reply, h.setValue id hdid.value, hdid.journal⟩

theorem onSlots (h : t.Mirrors t') (halike : p.Alike p') (id : EntryId)
    {actions : List (ε × SlotAction V VS)} {actions' : List (ε' × SlotAction V VS')}
    (hactions : List.Forall₂ (fun call call' => call.2.Alike p p' call'.2) actions actions') :
    (t.onSlots id actions).Mirrors Eq (t'.onSlots id actions') := by
  induction hactions generalizing t t' with
  | nil => exact ⟨rfl, h, rfl⟩
  | @cons call call' actions actions' haction _ ih =>
      have hdid := h.onSlot halike id call.1 call'.1 haction
      refine ((ih hdid.table).map fun rest rest' hrest => ?_).after hdid.journal
      rw [hdid.answer, hrest]

theorem openSlotAnd [Scale F] (h : t.Mirrors t') (halike : p.Alike p') {supply : Supply ε}
    {supply' : Supply ε'} (hsupply : supply.Alike supply') (key : K)
    {actions : List (ε × SlotAction V VS)} {actions' : List (ε' × SlotAction V VS')}
    (hactions : List.Forall₂ (fun call call' => call.2.Alike p p' call'.2) actions actions') :
    (t.openSlotAnd supply key actions).Mirrors Eq (t'.openSlotAnd supply' key actions') := by
  have hopened := h.openSlot halike hsupply key
  unfold Table.openSlotAnd
  dsimp only
  rw [hopened.answer]
  cases (t'.openSlot supply' key).answer with
  | error why => exact ⟨rfl, hopened.table, hopened.journal⟩
  | ok id =>
      refine ((hopened.table.onSlots halike id hactions).map fun _ _ heq => ?_).after
        hopened.journal
      rw [heq]

theorem readings_eq [Scale F] (h : t.Mirrors t') : t.readings = t'.readings := by
  unfold Table.readings Table.load
  rw [h.size_eq, h.buckets_eq, h.level, h.band, h.lastStep]

end Table.Mirrors

/-! ## visits -/

/-- **A visit** goes on alike at entries that look the same. -/
theorem Visit.Alike.run [Scale F] {Q : ρ → ρ' → Prop} {visit : Visit F ε K V VS ρ}
    {visit' : Visit F ε' K V VS' ρ'} (h : visit.Alike p p' Q visit') (halike : p.Alike p')
    {t : Table F p} {t' : Table F p'} (htable : t.Mirrors t') (link : Link) (id : EntryId)
    {entry : Entry KS VS} {entry' : Entry KS' VS'}
    (hentry : p.viewEntry entry = p'.viewEntry entry') :
    (visit.run link id t entry).Mirrors Q (visit'.run link id t' entry') := by
  induction h generalizing t t' entry entry' with
  | key _ ih =>
      have hkey : p.keys.view entry.key = p'.keys.view entry'.key := congrArg Entry.key hentry
      unfold Visit.run
      rw [hkey]
      exact ih _ htable hentry
  | value _ ih =>
      have hvalue : entry.value.map p.values.view = entry'.value.map p'.values.view :=
        congrArg Entry.value hentry
      unfold Visit.run
      rw [hvalue]
      exact ih _ htable hentry
  | @slot copies copies' action action' _ _ haction _ ih =>
      have hdid := haction.run halike copies copies' (congrArg Entry.value hentry)
      have hvalue : (action.run p copies entry.value).value.map p.values.view =
          (action'.run p' copies' entry'.value).value.map p'.values.view := hdid.value
      unfold Visit.run
      dsimp only
      rw [hdid.reply]
      refine (ih _ (htable.setValue id hdid.value) ?_).after hdid.journal
      exact congr (congrArg (fun (entry : Entry K V) value => { entry with value }) hentry) hvalue
  | @contains other _ _ _ ih =>
      have hasked := htable.contains halike other
      unfold Visit.run
      dsimp only
      rw [hasked.answer]
      exact (ih _ htable hentry).after hasked.journal
  | @lookUp other _ _ _ ih =>
      have hasked := htable.get? halike other
      unfold Visit.run
      dsimp only
      rw [hasked.answer]
      exact (ih _ htable hentry).after hasked.journal
  | readings _ ih =>
      unfold Visit.run
      rw [htable.readings_eq]
      exact ih _ htable hentry
  | leave hresult => exact ⟨hresult, htable, rfl⟩
  | erase hresult => exact (htable.eraseAt link id hentry).map fun _ _ _ => hresult
  | take hresult => exact (htable.takeAt link id hentry).map fun _ _ hvalue => hresult _ _ hvalue

/-! ## walks -/

/-- What a visitor may see of the entry that it is called for. -/
def Call.seen (p : Policies ε K KS V VS κ) (call : Call KS VS ω) : K × Option V :=
  (p.keys.view call.found.key, call.found.value.map p.values.view)

/-- Walks that have come equally far on tables that look the same. -/
structure Walk.Mirrors (R : σ → σ' → Prop) (w : Walk F p σ) (w' : Walk F p' σ') : Prop where
  table : w.table.Mirrors w'.table
  bucket : w.bucket = w'.bucket
  link : w.link = w'.link
  memory : R w.memory w'.memory
  journal : p.SameJournal p' w.journal.toList w'.journal.toList

namespace Walk.Mirrors

variable {R : σ → σ' → Prop} {w : Walk F p σ} {w' : Walk F p' σ'}

theorem advance (h : w.Mirrors R w') (id : EntryId) : (w.advance id).Mirrors R (w'.advance id) := by
  unfold Walk.advance
  rw [h.table.linked_eq, h.link]
  split
  · exact ⟨h.table, h.bucket, rfl, h.memory, h.journal⟩
  · exact h

/-- Both walks end alike, or both go on. -/
def Both (R : σ → σ' → Prop) (step : Walk F p σ × Option (Ending ω))
    (step' : Walk F p' σ' × Option (Ending ω)) : Prop :=
  step.1.Mirrors R step'.1 ∧ step.2 = step'.2

theorem nextBucket (h : w.Mirrors R w') :
    Both R (w.nextBucket : _ × Option (Ending ω)) w'.nextBucket := by
  unfold Walk.nextBucket
  dsimp only
  rw [h.bucket, h.table.buckets_eq]
  split
  · exact ⟨⟨h.table, rfl, rfl, h.memory, h.journal⟩, rfl⟩
  · exact ⟨h, rfl⟩

section Visiting

variable [Scale F] {visitor : Visitor F ε K V VS σ ω} {visitor' : Visitor F ε' K V VS' σ' ω}

theorem visitAt (h : w.Mirrors R w') (halike : p.Alike p')
    (hvisitor : visitor.Alike p p' R visitor')
    (id : EntryId) {entry : Entry KS VS} {entry' : Entry KS' VS'}
    (hentry : p.viewEntry entry = p'.viewEntry entry') :
    Both R (w.visitAt visitor id entry) (w'.visitAt visitor' id entry') := by
  have houtcome : (w.outcomeAt visitor id entry).Mirrors
      (fun result result' => R result.1 result'.1 ∧ result.2 = result'.2)
      (w'.outcomeAt visitor' id entry') := by
    unfold outcomeAt
    rw [h.link]
    exact (hvisitor _ _ h.memory).run halike h.table w'.link id hentry
  have hvisited : (w.visited (w.outcomeAt visitor id entry)).Mirrors R
      (w'.visited (w'.outcomeAt visitor' id entry')) := by
    refine ⟨houtcome.table, h.bucket, h.link, houtcome.answer.1, ?_⟩
    simp only [visited, Array.toList_appendList]
    exact h.journal.append houtcome.journal
  have hverdict : (w.callAt visitor id entry).verdict = (w'.callAt visitor' id entry').verdict :=
    houtcome.answer.2
  rw [visitAt_eq_movedOn, visitAt_eq_movedOn, hverdict]
  split
  · exact ⟨hvisited.advance id, rfl⟩
  · exact ⟨hvisited, rfl⟩
  · exact ⟨hvisited, rfl⟩

omit [Scale F] in
/-- Both walks have come to entries that look the same, or to the end of a chain. -/
theorem meets_cases (h : w.Mirrors R w') :
    (w.meets = none ∧ w'.meets = none) ∨ ∃ id entry entry', w.meets = some (id, entry) ∧
      w'.meets = some (id, entry') ∧ p.viewEntry entry = p'.viewEntry entry' := by
  unfold meets
  rw [h.table.linked_eq, h.link]
  cases w'.table.linked w'.link with
  | none => exact .inl ⟨rfl, rfl⟩
  | some id =>
      obtain ⟨hget, hget'⟩ | ⟨entry, entry', hget, hget', hview⟩ := h.table.get?_cases id
      · exact .inl ⟨by simp [hget], by simp [hget']⟩
      · exact .inr ⟨id, entry, entry', by simp [hget], by simp [hget'], hview⟩

variable (visitor visitor') in
/-- The visitors are called for entries that look the same, or for none. -/
theorem seen_eq (h : w.Mirrors R w') :
    (w.meets.toList.map fun (id, entry) => w.callAt visitor id entry).map (Call.seen p) =
      (w'.meets.toList.map fun (id, entry) => w'.callAt visitor' id entry).map (Call.seen p') := by
  obtain ⟨hmeets, hmeets'⟩ | ⟨id, entry, entry', hmeets, hmeets', hview⟩ := h.meets_cases
  · rw [hmeets, hmeets']
    rfl
  · rw [hmeets, hmeets']
    exact congrArg (fun entry : Entry K V => [(entry.key, entry.value)]) hview

/-- **One step**: both walks leave a bucket, or call their visitors alike. -/
theorem step (h : w.Mirrors R w') (halike : p.Alike p') (hvisitor : visitor.Alike p p' R visitor') :
    Both R (w.step visitor) (w'.step visitor') := by
  unfold Walk.step
  rw [h.table.linked_eq, h.link]
  cases w'.table.linked w'.link with
  | none => exact h.nextBucket
  | some id =>
      dsimp only
      obtain ⟨hget, hget'⟩ | ⟨entry, entry', hget, hget', hview⟩ := h.table.get?_cases id
      · rw [hget, hget']
        exact h.nextBucket
      · rw [hget, hget']
        exact h.visitAt halike hvisitor id hview

theorem runWithin (h : w.Mirrors R w') (halike : p.Alike p')
    (hvisitor : visitor.Alike p p' R visitor') (bound : Nat) :
    (w.runWithin visitor bound).1.Mirrors R (w'.runWithin visitor' bound).1 ∧
      (w.runWithin visitor bound).2 = (w'.runWithin visitor' bound).2 ∧
      (w.callsWithin visitor bound).map (Call.seen p) =
        (w'.callsWithin visitor' bound).map (Call.seen p') := by
  induction bound generalizing w w' with
  | zero => exact ⟨h, rfl, rfl⟩
  | succ bound ih =>
      have hseen := h.seen_eq visitor visitor'
      obtain ⟨hnext, hending⟩ := h.step halike hvisitor
      unfold Walk.runWithin Walk.callsWithin
      generalize w.step visitor = step at hnext hending
      generalize w'.step visitor' = step' at hnext hending
      obtain ⟨next, ending⟩ := step
      obtain ⟨next', ending'⟩ := step'
      obtain rfl : ending = ending' := hending
      cases ending with
      | none =>
          obtain ⟨hlast, hends, hrest⟩ := ih hnext
          refine ⟨hlast, hends, ?_⟩
          dsimp only
          rw [List.map_append, List.map_append, hseen, hrest]
      | some ending => exact ⟨hnext, rfl, hseen⟩

end Visiting

end Walk.Mirrors

/-! ## requests -/

namespace Table.Mirrors

section Requests

variable [Scale F] {t : Table F p} {t' : Table F p'} {supply : Supply ε} {supply' : Supply ε'}
  {R : σ → σ' → Prop}

omit [Scale F] in
theorem start (h : t.Mirrors t') {memory : σ} {memory' : σ'} (hmemory : R memory memory') :
    (Walk.start t memory).Mirrors R (Walk.start t' memory') :=
  ⟨h, rfl, rfl, hmemory, rfl⟩

section Walks

variable {visitor : Visitor F ε K V VS σ ω} {visitor' : Visitor F ε' K V VS' σ' ω} {memory : σ}
  {memory' : σ'}

/-- Walks visit entries that look the same, in the same order. -/
theorem calls_eq (h : t.Mirrors t') (halike : p.Alike p')
    (hvisitor : visitor.Alike p p' R visitor') (hmemory : R memory memory') :
    (t.calls memory visitor).map (Call.seen p) =
      (t'.calls memory' visitor').map (Call.seen p') := by
  unfold Table.calls
  rw [h.slots_eq, h.buckets_eq]
  exact ((h.start hmemory).runWithin halike hvisitor _).2.2

theorem walk (h : t.Mirrors t') (halike : p.Alike p') (hsupply : supply.Alike supply')
    (hvisitor : visitor.Alike p p' R visitor') (hmemory : R memory memory') :
    (t.walk supply memory visitor).Mirrors
      (fun tour tour' => tour.ending = tour'.ending ∧ R tour.memory tour'.memory)
      (t'.walk supply' memory' visitor') := by
  have hrun := (h.start hmemory).runWithin halike hvisitor (t.arena.slots.size + t.buckets)
  obtain ⟨⟨last, ending⟩, hlast⟩ : ∃ run, (Walk.start t memory).run visitor = run := ⟨_, rfl⟩
  obtain ⟨⟨last', ending'⟩, hlast'⟩ : ∃ run, (Walk.start t' memory').run visitor' = run := ⟨_, rfl⟩
  have hbound : (Walk.start t memory).runWithin visitor (t.arena.slots.size + t.buckets) =
      (last, ending) := hlast
  have hbound' : (Walk.start t' memory').runWithin visitor' (t.arena.slots.size + t.buckets) =
      (last', ending') := by
    rw [h.slots_eq, h.buckets_eq]
    exact hlast'
  rw [hbound, hbound'] at hrun
  obtain ⟨htables, rfl, -⟩ := hrun
  rw [t.walk_eq supply memory visitor hlast, t'.walk_eq supply' memory' visitor' hlast',
    htables.table.size_eq, h.size_eq]
  split
  · exact ⟨⟨rfl, htables.memory⟩, htables.table, htables.journal⟩
  · refine ((htables.table.restoreBand hsupply).map fun _ _ _ => ?_).after htables.journal
    exact ⟨rfl, htables.memory⟩

end Walks

/-- **A request** does the same to tables that look the same. -/
theorem run (h : t.Mirrors t') (halike : p.Alike p') (hsupply : supply.Alike supply')
    {request : Request F ε K V VS σ ω} {request' : Request F ε' K V VS' σ' ω}
    (hrequest : request.Alike p p' R request') :
    (request.run supply t).Mirrors (Reply.Alike p p' R) (request'.run supply' t') := by
  cases hrequest with
  | insert key value =>
      refine (h.insert halike hsupply key value).map ?_
      rintro result _ rfl
      exact .inserted result
  | openSlot key hactions =>
      refine (h.openSlotAnd halike hsupply key hactions).map ?_
      rintro result _ rfl
      exact .filled result
  | contains key =>
      refine (h.contains halike key).map ?_
      rintro answer _ rfl
      exact .flag answer
  | lookUp key =>
      refine (h.get? halike key).map ?_
      rintro value _ rfl
      exact .content value
  | take key => exact (h.take halike hsupply key).map fun _ _ hvalue => .taken hvalue
  | erase key =>
      have herased := h.erase halike hsupply key
      exact ⟨.done, herased.table, herased.journal⟩
  | clear =>
      have hcleared := h.clear
      exact ⟨.done, hcleared.table, hcleared.journal⟩
  | densityStep =>
      refine (h.densityStep hsupply).map ?_
      rintro step _ rfl
      exact .stepped step
  | walk hmemory hvisitor =>
      refine (h.walk halike hsupply hvisitor hmemory).map ?_
      rintro ⟨ending, memory⟩ ⟨_, memory'⟩ ⟨rfl, hmemory⟩
      exact .toured hmemory

end Requests

end Table.Mirrors

/-- The same calls, one after the other, in surroundings that grant the same. -/
def SameCalls (p : Policies ε K KS V VS κ) (p' : Policies ε' K KS' V VS' κ) (R : σ → σ' → Prop)
    (calls : List (Supply ε × Request F ε K V VS σ ω))
    (calls' : List (Supply ε' × Request F ε' K V VS' σ' ω)) : Prop :=
  List.Forall₂ (fun call call' => call.1.Alike call'.1 ∧ call.2.Alike p p' R call'.2) calls calls'

/-- **A run** of the same requests does the same. -/
theorem Table.Mirrors.runAll [Scale F] {t : Table F p} {t' : Table F p'} (h : t.Mirrors t')
    (halike : p.Alike p') {R : σ → σ' → Prop}
    {requests : List (Supply ε × Request F ε K V VS σ ω)}
    {requests' : List (Supply ε' × Request F ε' K V VS' σ' ω)}
    (hrequests : SameCalls p p' R requests requests') :
    (t.runAll requests).Mirrors (List.Forall₂ (Reply.Alike p p' R)) (t'.runAll requests') := by
  induction hrequests generalizing t t' with
  | nil => exact ⟨.nil, h, rfl⟩
  | cons hcall _ ih =>
      have hfirst := h.run halike hcall.1 hcall.2
      exact ((ih hfirst.table).map fun _ _ hrest => .cons hfirst.answer hrest).after hfirst.journal

/-- The notices in a journal. -/
def noticesIn (journal : List (Event K KS V VS)) : List Notice :=
  journal.filterMap fun event => match event with
    | .noticed notice => some notice
    | _ => none

/-- Journals that look the same have the same notices. -/
theorem Policies.SameJournal.noticesIn_eq {journal : List (Event K KS V VS)}
    {journal' : List (Event K KS' V VS')} (h : p.SameJournal p' journal journal') :
    noticesIn journal = noticesIn journal' := by
  have hview {ε KS VS : Type} (p : Policies ε K KS V VS κ) (journal : List (Event K KS V VS)) :
      noticesIn (journal.map p.viewEvent) = noticesIn journal := by
    rw [noticesIn, List.filterMap_map]
    refine List.filterMap_congr fun event _ => ?_
    cases event <;> rfl
  rw [← hview p, h, hview p']

/-- Two tables that are asked the same, each with requests of its own. -/
structure Table.RunsAlike [Scale F] (R : σ → σ' → Prop) (t : Table F p) (t' : Table F p')
    (requests : List (Supply ε × Request F ε K V VS σ ω))
    (requests' : List (Supply ε' × Request F ε' K V VS' σ' ω)) : Prop where
  /-- The replies are the same, with values that look the same. -/
  replies : List.Forall₂ (Reply.Alike p p' R) (t.runAll requests).answer
    (t'.runAll requests').answer
  /-- After each request the same can be read off the tables. -/
  readings (n : Nat) : (t.runAll (requests.take n)).table.readings =
    (t'.runAll (requests'.take n)).table.readings
  /-- By then, the same notices were written. -/
  notices (n : Nat) : noticesIn (t.runAll (requests.take n)).journal =
    noticesIn (t'.runAll (requests'.take n)).journal
  /-- A walk visits keys and values that look the same, in the same order. -/
  visits {n : Nat} {supply : Supply ε} {supply' : Supply ε'} {memory : σ} {memory' : σ'}
    {visitor : Visitor F ε K V VS σ ω} {visitor' : Visitor F ε' K V VS' σ' ω} :
    requests[n]? = some (supply, .walk memory visitor) →
    requests'[n]? = some (supply', .walk memory' visitor') →
    ((t.runAll (requests.take n)).table.calls memory visitor).map (Call.seen p) =
      ((t'.runAll (requests'.take n)).table.calls memory' visitor').map (Call.seen p')

/-- **Representation independence**: new tables with the same band that are asked
the same cannot be told apart. -/
theorem Table.runsAlike_of_withBand [Scale F] (halike : p.Alike p') {band : DensityBand F}
    {supply : Supply ε} {supply' : Supply ε'} {t : Table F p} {t' : Table F p'}
    (hmade : withBand supply band = .ok t) (hmade' : withBand supply' band = .ok t')
    {R : σ → σ' → Prop} {requests : List (Supply ε × Request F ε K V VS σ ω)}
    {requests' : List (Supply ε' × Request F ε' K V VS' σ' ω)}
    (hrequests : SameCalls p p' R requests requests') :
    t.RunsAlike R t' requests requests' := by
  have hempty : t.Mirrors t' := by
    rw [eq_empty_of_withBand hmade, eq_empty_of_withBand hmade']
    exact .refl_empty band
  have hafter (n : Nat) := hempty.runAll halike (List.forall₂_take n hrequests)
  refine ⟨(hempty.runAll halike hrequests).answer, fun n => (hafter n).table.readings_eq,
    fun n => (hafter n).journal.noticesIn_eq, fun {n} _ _ _ _ _ _ hwalk hwalk' => ?_⟩
  obtain ⟨hlt, hcall⟩ := List.getElem?_eq_some_iff.mp hwalk
  obtain ⟨hlt', hcall'⟩ := List.getElem?_eq_some_iff.mp hwalk'
  have hsame := hrequests.get hlt hlt'
  rw [List.get_eq_getElem, List.get_eq_getElem, hcall, hcall'] at hsame
  cases hsame.2 with
  | walk hmemory hvisitor => exact (hafter n).table.calls_eq halike hvisitor hmemory

/-- Numbers in ascending order, stored as they are. -/
def ascending : Policies Unit Nat Nat Nat Nat where
  hasher := { hash := UInt64.ofNat, compare stored probe := Ord.compare stored probe }
  keys := .inline
  values := .inline

/-- Numbers in descending order, stored as their doubles. -/
def doubled : Policies Unit Nat Nat Nat Nat where
  hasher := { hash := UInt64.ofNat, compare stored probe := Ord.compare probe stored }
  keys := .copying (fun n => .ok (2 * n)) (· / 2)
  values := .copying (fun n => .ok (2 * n)) (· / 2)

theorem alike_doubled : ascending.Alike doubled where
  hasher := by
    refine ⟨fun _ => rfl, fun a b => ?_⟩
    change Ord.compare a b = .eq ↔ Ord.compare b a = .eq
    rw [Std.LawfulEqOrd.compare_eq_iff_eq, Std.LawfulEqOrd.compare_eq_iff_eq, eq_comm]
  keys _ source := ⟨source, rfl, rfl⟩
  keys' _ source := ⟨2 * source, rfl, Nat.mul_div_cancel_left source Nat.two_pos⟩
  values _ source := ⟨source, rfl, rfl⟩
  values' _ source := ⟨2 * source, rfl, Nat.mul_div_cancel_left source Nat.two_pos⟩

/-- A visitor that takes every entry, and remembers the stored values. -/
def taking : Visitor Rat Unit Nat Nat Nat (List (Option Nat)) Unit := fun values =>
  .take fun value => (values ++ [value], .goOn)

/-- Two keys of one bucket, of which the first gets another value, and all values
taken in a walk. -/
theorem Table.runsAlike_doubled :
    let requests (stored : Nat) :
        List (Supply Unit × Request Rat Unit Nat Nat Nat (List (Option Nat)) Unit) :=
      [(plenty, .insert 1 (some 10)), (plenty, .insert 38 (some 20)),
        (plenty, .openSlot 1 [((), .put stored)]), (plenty, .walk [] taking)]
    (empty .default : Table Rat ascending).RunsAlike
      (fun values values' => values = values'.map (Option.map (· / 2)))
      (empty .default : Table Rat doubled) (requests 30) (requests 60) := by
  intro requests
  have hplenty : plenty.Alike plenty := ⟨rfl, rfl⟩
  have htaking : taking.Alike ascending doubled
      (fun values values' => values = values'.map (Option.map (· / 2))) taking := by
    refine fun values values' hvalues => .take fun value value' hvalue => ⟨?_, rfl⟩
    have hvalue : value.map id = value'.map (· / 2) := hvalue
    rw [Option.map_id_fun, id] at hvalue
    simp [hvalues, hvalue]
  have hactions : List.Forall₂
      (fun call call' : Unit × SlotAction Nat Nat => call.2.Alike ascending doubled call'.2)
      [((), .put 30)] [((), .put 60)] := .cons (.put rfl) .nil
  have hmade : withBand plenty .default = .ok (empty .default : Table Rat ascending) := rfl
  have hmade' : withBand plenty .default = .ok (empty .default : Table Rat doubled) := rfl
  exact runsAlike_of_withBand alike_doubled hmade hmade'
    (.cons ⟨hplenty, .insert 1 _⟩ (.cons ⟨hplenty, .insert 38 _⟩
      (.cons ⟨hplenty, .openSlot 1 hactions⟩ (.cons ⟨hplenty, .walk rfl htaking⟩ .nil))))

end ChainedTable
