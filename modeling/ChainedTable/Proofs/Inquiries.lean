import ChainedTable.Proofs.Moments

/-!
# ChainedTable.Proofs.Inquiries

What a table asks of its policies in order to find a key and to keep it.

Looking a key up is the only reason to call the hash policy.  The key is hashed
once, and compared with the stored keys of its chain up to the first that is equal
(`Table.inquiry`).  A copy of a key is asked for only after the search, once, and
only if nothing was found.  No density step asks for anything, for each entry
holds its hash; and a walk asks only what its visitor asks.
-/

namespace ChainedTable

variable {F ε K KS V VS ρ σ ω : Type} {κ : Keeper} {p : Policies ε K KS V VS κ}

/-! ## calls in a journal -/

/-- A call that is to make a key. -/
def Event.AsksKey : Event K KS V VS → Prop
  | .key (.acquired _) | .key (.denied _) => True
  | .hashed .. | .compared .. | .key _ | .value _ | .noticed _ => False

instance : (event : Event K KS V VS) → Decidable event.IsQuery
  | .hashed .. | .compared .. => .isTrue trivial
  | .key _ | .value _ | .noticed _ => .isFalse id

instance : (event : Event K KS V VS) → Decidable event.AsksKey
  | .key (.acquired _) | .key (.denied _) => .isTrue trivial
  | .key (.released _) | .key (.supplied _) | .key (.handedOver _) | .key (.overwritten _)
  | .hashed .. | .compared .. | .value _ | .noticed _ => .isFalse id

theorem Event.IsQuery.not_asksKey {event : Event K KS V VS} (h : event.IsQuery) :
    ¬event.AsksKey := by
  cases event with
  | hashed | compared => exact id
  | key | value | noticed => exact h.elim

/-- The calls of the hash policy in a journal and those that are to make a key, in
order. -/
def consultations (journal : List (Event K KS V VS)) : List (Event K KS V VS) :=
  journal.filter fun event => event.IsQuery ∨ event.AsksKey

section Events

variable {events rest : List (Event K KS V VS)}

@[simp] theorem consultations_append :
    consultations (events ++ rest) = consultations events ++ consultations rest :=
  List.filter_append ..

@[simp] theorem consultations_nil : consultations ([] : List (Event K KS V VS)) = [] := rfl

@[simp] theorem consultations_acquired (stored : KS) :
    consultations (.key (.acquired stored) :: rest : List (Event K KS V VS)) =
      .key (.acquired stored) :: consultations rest := rfl

@[simp] theorem consultations_denied (source : K) :
    consultations (.key (.denied source) :: rest : List (Event K KS V VS)) =
      .key (.denied source) :: consultations rest := rfl

@[simp] theorem consultations_released (stored : KS) :
    consultations (.key (.released stored) :: rest : List (Event K KS V VS)) =
      consultations rest := rfl

@[simp] theorem consultations_value (what : Handling V VS) :
    consultations (.value what :: rest : List (Event K KS V VS)) = consultations rest := rfl

@[simp] theorem consultations_noticed (notice : Notice) :
    consultations (.noticed notice :: rest : List (Event K KS V VS)) = consultations rest := rfl

theorem consultations_notices (notices : List Notice) :
    consultations (notices.map .noticed : List (Event K KS V VS)) = [] := by
  induction notices with
  | nil => rfl
  | cons notice notices ih => exact ih

@[simp] theorem consultations_eachValue (happens : VS → Handling V VS) (value : Option VS) :
    consultations (Policies.eachValue happens value : List (Event K KS V VS)) = [] := by
  cases value <;> rfl

@[simp] theorem consultations_releaseValue (value : Option VS) :
    consultations (Policies.releaseValue value : List (Event K KS V VS)) = [] :=
  consultations_eachValue ..

@[simp] theorem consultations_slotAction (copies : ε) (value : Option VS)
    (action : SlotAction V VS) : consultations (action.run p copies value).journal = [] := by
  cases action with
  | store source =>
      simp only [SlotAction.run]
      split <;> simp
  | replace stored => cases value <;> rfl
  | put | clear | look | isEmpty | overwrite => simp [SlotAction.run]

end Events

/-! ## searching -/

namespace Table

variable {t : Table F p} {key : K}

/-- The stored keys of some entries, as callers see them. -/
def storedKeys (t : Table F p) (ids : List EntryId) : List K :=
  ids.filterMap fun id => (t.holding? id).map fun held => p.keys.view held.key

/-- Stored keys up to the first that compares as equal to a key. -/
def upToMatch (p : Policies ε K KS V VS κ) (key : K) (stored : List K) : List K :=
  stored.take (stored.findIdx (fun other => p.hasher.compare other key = .eq) + 1)

/-- The calls that a search for a key should make: one for its hash, and one for each
entry of its chain up to the first with an equal key. -/
def inquiry (t : Table F p) (key : K) : List (Event K KS V VS) :=
  .hashed key (p.hasher.hash key) ::
    (upToMatch p key (t.storedKeys (t.chain (t.home key)))).map (.compared · key)

theorem storedKeys_cons {id : EntryId} {entry : Entry KS VS} (hget : t.arena.get? id = some entry)
    (ids : List EntryId) :
    t.storedKeys (id :: ids) = p.keys.view entry.key :: t.storedKeys ids := by
  simp [storedKeys, Chains.holding?_of_get? hget, Entry.holding]

theorem upToMatch_cons_of_eq {stored : K} (heq : p.hasher.compare stored key = .eq)
    (rest : List K) : upToMatch p key (stored :: rest) = [stored] := by
  simp [upToMatch, List.findIdx_cons, heq]

theorem upToMatch_cons_of_ne {stored : K} (hne : p.hasher.compare stored key ≠ .eq)
    (rest : List K) : upToMatch p key (stored :: rest) = stored :: upToMatch p key rest := by
  simp [upToMatch, List.findIdx_cons, hne]

theorem calls_seek {bucket bound : Nat} {hash : UInt64} (front : List EntryId)
    {rest : List EntryId}
    (h : Chains.Leads t.arena (t.linked (.head bucket)) (front ++ rest) none)
    (hbound : rest.length ≤ bound) : (t.seek key hash bound (.behind bucket front)).calls =
      (upToMatch p key (t.storedKeys rest)).map (.compared · key) := by
  induction rest generalizing front bound with
  | nil =>
      have hend : t.linked (.behind bucket front) = none := by
        rw [List.append_nil] at h
        exact Chains.linked_behind h
      cases bound <;> simp [seek, hend, storedKeys, upToMatch]
  | cons id rest ih =>
      obtain ⟨_, hfront, rfl, entry, hget, hrest⟩ := Chains.leads_append.mp h
      cases bound with
      | zero => simp at hbound
      | succ bound =>
          simp only [seek, Chains.linked_behind hfront, hget, storedKeys_cons hget]
          split
          · next heq => rw [upToMatch_cons_of_eq heq, List.map_singleton]
          · next hne =>
              rw [List.append_cons front id rest] at h
              have hcalls := ih (front ++ [id]) h (by simpa using hbound)
              rw [Link.behind_concat] at hcalls
              rw [upToMatch_cons_of_ne hne, List.map_cons, ← hcalls]

/-- **A search** makes the calls that it should make, and no others. -/
theorem Sound.calls_probe (h : t.Sound) (key : K) : (t.probe key).calls = t.inquiry key :=
  congrArg (List.cons _) (calls_seek [] (h.wellLinked.leads (home_lt h.wellLinked key))
    (h.wellLinked.length_le (home_lt h.wellLinked key)))

theorem Sound.consultations_probe (h : t.Sound) (key : K) :
    consultations (t.probe key).calls = t.inquiry key := by
  rw [← h.calls_probe, consultations, List.filter_eq_self]
  exact fun event hevent => decide_eq_true (.inl (query_of_mem_probe hevent))

/-! ## calls for a key -/

/-- Calls on behalf of a key: those of the search, and after it one at most, to make
the key that was not found. -/
structure Consults (t : Table F p) (key : K) (journal asked : List (Event K KS V VS)) :
    Prop where
  calls : consultations journal = t.inquiry key ++ asked
  asksKey : ∀ event ∈ asked, event.AsksKey
  once : asked.length ≤ 1
  found : (t.probe key).found.isSome = true → asked = []

/-- Nothing is asked after the search. -/
theorem Sound.consults_probe (h : t.Sound) (key : K) {rest : List (Event K KS V VS)}
    (hrest : consultations rest = []) : t.Consults key ((t.probe key).calls ++ rest) [] where
  calls := by rw [consultations_append, h.consultations_probe, hrest]
  asksKey event hevent := absurd hevent List.not_mem_nil
  once := Nat.zero_le 1
  found _ := rfl

theorem Sound.consults_calls (h : t.Sound) (key : K) : t.Consults key (t.probe key).calls [] := by
  simpa using h.consults_probe key consultations_nil

/-- What comes after, and asks for nothing, changes nothing. -/
theorem Consults.append {journal asked rest : List (Event K KS V VS)}
    (h : t.Consults key journal asked) (hrest : consultations rest = []) :
    t.Consults key (journal ++ rest) asked :=
  { h with calls := by rw [consultations_append, h.calls, hrest, List.append_nil] }

@[simp] theorem consultations_onSlots (t : Table F p) (id : EntryId)
    (actions : List (ε × SlotAction V VS)) :
    consultations (t.onSlots id actions).journal = [] := by
  induction actions generalizing t with
  | nil => rfl
  | cons first rest ih => simp [onSlots, onSlot, ih]

@[simp] theorem consultations_clear (t : Table F p) : consultations t.clear.journal = [] := by
  have hreleases : consultations t.releases = [] := by
    rw [consultations, releases, List.filter_flatMap]
    exact List.flatMap_eq_nil_iff.mpr fun entry _ => consultations_releaseValue entry.2.value
  simp [clear, hreleases]

variable [Scale F]

@[simp] theorem consultations_densityStep (t : Table F p) (supply : Supply ε) :
    consultations (t.densityStep supply).journal = [] := by
  obtain ⟨notices, hnotices⟩ := journal_densityStep t supply
  rw [hnotices, consultations_notices]

/-- For a key that was not found a copy is asked for once, unless there is no room. -/
theorem Sound.consults_insertNew (h : t.Sound) (supply : Supply ε) {key : K} (value : Option V)
    (hfound : (t.probe key).found = none) : ∃ asked, t.Consults key
      ((t.probe key).calls ++ (t.insertNew supply (t.probe key) key value).journal) asked := by
  have hsearch := h.consultations_probe key
  have hnone : (t.probe key).found.isSome = true → ∀ {P : Prop}, P := by simp [hfound]
  have hadmission := admission_insertNew t supply key value
  generalize t.insertNew supply (t.probe key) key value = outcome at hadmission ⊢
  cases hadmission with
  | noRoom => exact ⟨[], h.consults_probe key rfl⟩
  | keyRefused _ hkey => exact ⟨[.key (.denied key)], by simp [hsearch], by simp [Event.AsksKey],
      le_rfl, fun hsome => hnone hsome⟩
  | @valueRefused arena storedKey given why _ _ _ _ =>
      exact ⟨[.key (.acquired storedKey)], by simp [hsearch], by simp [Event.AsksKey], le_rfl,
        fun hsome => hnone hsome⟩
  | @admitted arena storedKey storedValue _ _ _ =>
      exact ⟨[.key (.acquired storedKey)], by simp [hsearch], by simp [Event.AsksKey], le_rfl,
        fun hsome => hnone hsome⟩

theorem Sound.consults_insert (h : t.Sound) (supply : Supply ε) (key : K) (value : Option V) :
    ∃ asked, t.Consults key (t.insert supply key value).journal asked := by
  unfold insert
  dsimp only
  split
  · split
    · next why calls hacquire =>
        obtain ⟨given, -, -, rfl⟩ := acquireValue_eq_error hacquire
        exact ⟨[], h.consults_probe key rfl⟩
    · next fresh calls hacquire =>
        obtain ⟨-, rfl⟩ := acquireValue_eq_ok hacquire
        rw [List.append_assoc]
        exact ⟨[], h.consults_probe key (by simp)⟩
  · next hfound => exact h.consults_insertNew supply value hfound

theorem Sound.consults_openSlot (h : t.Sound) (supply : Supply ε) (key : K) :
    ∃ asked, t.Consults key (t.openSlot supply key).journal asked := by
  rw [openSlot_eq]
  dsimp only
  split
  · exact ⟨[], h.consults_probe key (by simp)⟩
  · next hfound => exact h.consults_insertNew supply none hfound

theorem Sound.consults_openSlotAnd (h : t.Sound) (supply : Supply ε) (key : K)
    (actions : List (ε × SlotAction V VS)) :
    ∃ asked, t.Consults key (t.openSlotAnd supply key actions).journal asked := by
  obtain ⟨asked, hasked⟩ := h.consults_openSlot supply key
  unfold openSlotAnd
  dsimp only
  split
  · exact ⟨asked, hasked⟩
  · exact ⟨asked, hasked.append (consultations_onSlots ..)⟩

theorem Sound.consults_take (h : t.Sound) (supply : Supply ε) (key : K) :
    t.Consults key (t.take supply key).journal [] := by
  unfold take
  dsimp only
  split
  · exact h.consults_calls key
  · simp only [Outcome.journal_after, Outcome.journal_map, List.append_assoc]
    exact h.consults_probe key (by simp [takeAt])

theorem Sound.consults_erase (h : t.Sound) (supply : Supply ε) (key : K) :
    t.Consults key (t.erase supply key).journal [] := by
  unfold erase
  dsimp only
  split
  · exact h.consults_calls key
  · simp only [Outcome.journal_after, Outcome.journal_map, List.append_assoc]
    exact h.consults_probe key (by simp [eraseAt])

end Table

/-! ## walks -/

variable [Scale F]

/-- What a visit asks about keys, each with the table that is asked. -/
def Visit.questions (id : EntryId) :
    Visit F ε K V VS ρ → Table F p → Entry KS VS → List (Table F p × K)
  | key next, t, entry => questions id (next (p.keys.view entry.key)) t entry
  | value next, t, entry => questions id (next (entry.value.map p.values.view)) t entry
  | slot copies action next, t, entry =>
    let did := action.run p copies entry.value
    questions id (next did.reply) { t with toChains := t.toChains.setValue id did.value }
      { entry with value := did.value }
  | contains other next, t, entry =>
    (t, other) :: questions id (next (t.contains other).answer) t entry
  | lookUp other next, t, entry =>
    (t, other) :: questions id (next (t.get? other).answer) t entry
  | readings next, t, entry => questions id (next t.readings) t entry
  | leave _, _, _ => []
  | erase _, _, _ => []
  | take _, _, _ => []

/-- The calls that should be made for questions. -/
def inquiries (questions : List (Table F p × K)) : List (Event K KS V VS) :=
  questions.flatMap fun (t, key) => t.inquiry key

omit [Scale F] in
theorem inquiries_append (first rest : List (Table F p × K)) :
    inquiries (first ++ rest) = inquiries first ++ inquiries rest :=
  List.flatMap_append

/-- A visit asks what its visitor asks. -/
theorem Visit.consultations_run (visit : Visit F ε K V VS ρ) {t : Table F p} (h : t.Sound)
    (link : Link) (id : EntryId) (entry : Entry KS VS) :
    consultations (visit.run link id t entry).journal =
      inquiries (visit.questions id t entry) := by
  induction visit generalizing t entry with
  | key next ih => exact ih _ h entry
  | value next ih => exact ih _ h _
  | slot copies action next ih =>
      simpa [Visit.run, questions] using ih _ (h.setValue id _) _
  | contains other next ih =>
      simp [Visit.run, questions, inquiries, Table.contains, h.consultations_probe, ih _ h]
  | lookUp other next ih =>
      simp [Visit.run, questions, inquiries, Table.get?, h.consultations_probe, ih _ h]
  | readings next ih => exact ih _ h entry
  | leave result => rfl
  | erase result => simp [Visit.run, questions, inquiries, Table.eraseAt]
  | take result => simp [Visit.run, questions, inquiries, Table.takeAt]

namespace Walk

variable (visitor : Visitor F ε K V VS σ ω)

/-- What is asked at the entry that a walk has come to. -/
def questionsHere (w : Walk F p σ) : List (Table F p × K) :=
  w.meets.elim [] fun here => (visitor w.memory).questions here.1 w.table here.2

/-- What is asked in a bounded number of steps. -/
def questionsWithin : Nat → Walk F p σ → List (Table F p × K)
  | 0, _ => []
  | bound + 1, w =>
    match w.step visitor with
    | (next, none) => w.questionsHere visitor ++ questionsWithin bound next
    | (_, some _) => w.questionsHere visitor

theorem consultations_step {w : Walk F p σ} (h : w.table.Sound) :
    consultations (w.step visitor).1.journal.toList =
      consultations w.journal.toList ++ inquiries (w.questionsHere visitor) := by
  unfold questionsHere
  cases hmeets : w.meets with
  | none =>
      rw [step_of_not_meets hmeets]
      unfold nextBucket
      dsimp only
      split <;> simp [inquiries]
  | some here =>
      obtain ⟨id, entry⟩ := here
      have hvisit := (visitor w.memory).consultations_run h w.link id entry
      have hvisited : consultations (w.visited (w.outcomeAt visitor id entry)).journal.toList =
          consultations w.journal.toList ++
            inquiries ((visitor w.memory).questions id w.table entry) := by
        simp [visited, outcomeAt, hvisit]
      obtain ⟨link, hmoved⟩ := w.movedOn_eq visitor id entry
      rw [step_of_meets hmeets, visitAt_eq_movedOn, Option.elim_some, ← hvisited]
      split
      · rw [hmoved]
      · rfl
      · rfl

theorem consultations_runWithin (bound : Nat) {w : Walk F p σ} (h : w.table.Sound) :
    consultations (w.runWithin visitor bound).1.journal.toList =
      consultations w.journal.toList ++ inquiries (w.questionsWithin visitor bound) := by
  induction bound generalizing w with
  | zero => simp [runWithin, questionsWithin, inquiries]
  | succ bound ih =>
      have hstep := consultations_step visitor h
      obtain ⟨_, hedits, -⟩ := goes_step visitor w
      have hsound := h.edits hedits
      unfold runWithin questionsWithin
      obtain ⟨⟨w', ending⟩, hw⟩ : ∃ outcome, w.step visitor = outcome := ⟨_, rfl⟩
      rw [hw] at hstep hsound ⊢
      cases ending with
      | none => rw [ih hsound, hstep, inquiries_append, List.append_assoc]
      | some ending => exact hstep

end Walk

namespace Table

variable {t : Table F p}

/-- What a visitor asks about keys in a walk over a table, in order. -/
def questions (t : Table F p) (memory : σ) (visitor : Visitor F ε K V VS σ ω) :
    List (Table F p × K) :=
  (Walk.start t memory).questionsWithin visitor (t.arena.slots.size + t.buckets)

@[simp] theorem consultations_restoreBand (t : Table F p) (supply : Supply ε) :
    consultations (t.restoreBand supply).journal = [] := by
  obtain ⟨notices, hnotices⟩ := journal_restoreBand t supply
  rw [hnotices, consultations_notices]

theorem Sound.consultations_run (h : t.Sound) (memory : σ) (visitor : Visitor F ε K V VS σ ω) :
    consultations ((Walk.start t memory).run visitor).1.journal.toList =
      inquiries (t.questions memory visitor) :=
  Walk.consultations_runWithin visitor _ h

/-- A walk asks what its visitor asks, whatever becomes of the density afterwards. -/
theorem Sound.consultations_walk (h : t.Sound) (supply : Supply ε) (memory : σ)
    (visitor : Visitor F ε K V VS σ ω) : consultations (t.walk supply memory visitor).journal =
      inquiries (t.questions memory visitor) := by
  have hrun := h.consultations_run memory visitor
  unfold walk
  dsimp only
  split
  · exact hrun
  · simp [hrun]

/-! ## all calls -/

/-- What the operations of a table ask of the hash policy, and how often they ask
for a key. -/
structure Frugal (t : Table F p) : Prop where
  insert (supply : Supply ε) (key : K) (value : Option V) :
    ∃ asked, t.Consults key (t.insert supply key value).journal asked
  openSlot (supply : Supply ε) (key : K) (actions : List (ε × SlotAction V VS)) :
    ∃ asked, t.Consults key (t.openSlotAnd supply key actions).journal asked
  contains (key : K) : t.Consults key (t.contains key).journal []
  get? (key : K) : t.Consults key (t.get? key).journal []
  take (supply : Supply ε) (key : K) : t.Consults key (t.take supply key).journal []
  erase (supply : Supply ε) (key : K) : t.Consults key (t.erase supply key).journal []
  densityStep (supply : Supply ε) : consultations (t.densityStep supply).journal = []
  clear : consultations t.clear.journal = []
  dispose : consultations t.dispose = []
  free : consultations t.free = []
  /-- Only the questions of the visitor make a walk call the hash policy. -/
  walk {σ ω : Type} (supply : Supply ε) (memory : σ) (visitor : Visitor F ε K V VS σ ω) :
    consultations (t.walk supply memory visitor).journal = inquiries (t.questions memory visitor)

/-- **Nothing is asked twice**: a key is hashed once and compared along its chain up
to the first equal one, in a table at any level and on any way out of a call. -/
theorem frugal_of_reachable (h : t.Reachable) : t.Frugal where
  insert := h.sound.consults_insert
  openSlot := h.sound.consults_openSlotAnd
  contains := h.sound.consults_calls
  get? := h.sound.consults_calls
  take := h.sound.consults_take
  erase := h.sound.consults_erase
  densityStep := t.consultations_densityStep
  clear := t.consultations_clear
  dispose := t.consultations_clear
  free := by simp [Table.free, Table.dispose]
  walk := h.sound.consultations_walk

/-- The key 2 is compared with both keys of its chain, and the key 1 with one. -/
example : sample.inquiry 2 = [.hashed 2 0, .compared 1 2, .compared 2 2] ∧
    sample.inquiry 1 = [.hashed 1 0, .compared 1 1] := by decide +kernel

theorem frugal_sample : sample.Reachable ∧ sample.Frugal :=
  ⟨reachable_sample, frugal_of_reachable reachable_sample⟩

end Table

end ChainedTable
