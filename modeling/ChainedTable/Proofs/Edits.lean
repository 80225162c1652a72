import ChainedTable.Proofs.Probe
import ChainedTable.Proofs.Rehash
import ChainedTable.Request

/-!
# ChainedTable.Proofs.Edits

What operations are made of.

An operation changes a table by a few kinds of edits, and `Edit` lists them with
the events that each writes to the journal.  Whatever one edit keeps, every
operation keeps: `edits_run` takes a request apart, and an invariant is proved
of edits only.

1. An edit that puts an entry in, or takes one out, is tied to the link at which
   it does so.
2. `ValueChange` lists what can become of the value of an entry.
3. An event of the journal that moves no item is a remark.
-/

namespace ChainedTable

variable {F ε K KS V VS ρ σ ω : Type} {κ : Keeper} {p : Policies ε K KS V VS κ}

/-- Events in which no stored item comes or goes. -/
def Event.IsRemark : Event K KS V VS → Prop
  | .hashed .. | .compared .. | .noticed _ | .key (.denied _) | .value (.denied _) => True
  | .key _ | .value _ => False

/-- Calls of the hash policy. -/
def Event.IsQuery : Event K KS V VS → Prop
  | .hashed .. | .compared .. => True
  | .key _ | .value _ | .noticed _ => False

theorem Event.IsQuery.remark {event : Event K KS V VS} (h : event.IsQuery) : event.IsRemark := by
  cases event with
  | hashed | compared => trivial
  | key | value | noticed => exact h.elim

/-- What becomes of the value of an entry, and the events that tell. -/
inductive ValueChange : Option VS → List (Event K KS V VS) → Option VS → Prop where
  /-- It is looked at. -/
  | keep (old : Option VS) : ValueChange old [] old
  /-- Another one was refused. -/
  | refuse (old : Option VS) (source : V) : ValueChange old [.value (.denied source)] old
  /-- One that was acquired, or none, takes its place. -/
  | renew (old new : Option VS) :
    ValueChange old (Policies.eachValue .acquired new ++ Policies.releaseValue old) new
  /-- One that the caller owned takes its place. -/
  | supply (old : Option VS) (stored : VS) :
    ValueChange old (.value (.supplied stored) :: Policies.releaseValue old) (some stored)
  /-- The caller writes over it. -/
  | overwrite (old new : Option VS) :
    ValueChange old (Policies.eachValue .overwritten old ++ Policies.eachValue .supplied new) new

/-- What entries hold of a value that was given, or of none. -/
inductive Policies.Acquires (p : Policies ε K KS V VS κ) (copies : ε) :
    Option V → Option VS → Prop where
  | absent : Acquires p copies none none
  | present {given : V} {stored : VS} : p.values.acquire copies given = .ok stored →
    Acquires p copies (some given) (some stored)

namespace Table

/-- Puts an entry where the search for its key ended. -/
def linkNew (t : Table F p) (arena : Arena κ (Entry KS VS)) (key : K) (storedKey : KS)
    (value : Option VS) : Table F p :=
  { t with
    toChains := ({ t.toChains with arena } : Chains κ KS VS).insertAt (t.probe key).link
      (p.hasher.hash key) storedKey value }

/-- One edit of a table, and the events that it writes. -/
inductive Edit [Scale F] : Table F p → List (Event K KS V VS) → Table F p → Prop where
  /-- Nothing changes. -/
  | remark {t : Table F p} (event : Event K KS V VS) : event.IsRemark → Edit t [event] t
  /-- There is room for one more entry. -/
  | room {t : Table F p} {granted : Bool} {arena : Arena κ (Entry KS VS)} :
    t.arena.reserve granted = some arena → Edit t [] { t with arena }
  /-- A key was acquired in vain, for its value was refused. -/
  | giveBack {t : Table F p} (key : KS) (source : V) :
    Edit t [.key (.acquired key), .value (.denied source), .key (.released key)] t
  /-- An entry goes where the search for its key ended. -/
  | link {t : Table F p} {granted : Bool} {arena : Arena κ (Entry KS VS)} (key : K)
    (storedKey : KS) (value : Option VS) :
    (t.probe key).found = none → t.arena.reserve granted = some arena →
      Edit t (.key (.acquired storedKey) :: Policies.eachValue .acquired value)
        (t.linkNew arena key storedKey value)
  /-- The value of an entry changes. -/
  | value {t : Table F p} {id : EntryId} {entry : Entry KS VS} {new : Option VS}
    {events : List (Event K KS V VS)} : t.arena.get? id = some entry →
      ValueChange entry.value events new →
      Edit t events { t with toChains := t.toChains.setValue id new }
  /-- An entry leaves, and its value is handed over. -/
  | take {t : Table F p} {link : Link} {id : EntryId} {entry : Entry KS VS} :
    t.linked link = some id → t.arena.get? id = some entry →
      Edit t (t.takeAt link id entry).journal (t.takeAt link id entry).table
  /-- An entry leaves, and its value is released. -/
  | erase {t : Table F p} {link : Link} {id : EntryId} {entry : Entry KS VS} :
    t.linked link = some id → t.arena.get? id = some entry →
      Edit t (t.eraseAt link id entry).journal (t.eraseAt link id entry).table
  /-- All entries leave. -/
  | clear {t : Table F p} : Edit t t.clear.journal t.clear.table
  /-- A density step is taken. -/
  | step {t : Table F p} (supply : Supply ε) :
    Edit t (t.densityStep supply).journal (t.densityStep supply).table

/-- Edits one after the other. -/
inductive Edits [Scale F] : Table F p → List (Event K KS V VS) → Table F p → Prop where
  | nil {t : Table F p} : Edits t [] t
  | cons {first second third : Table F p} {events rest : List (Event K KS V VS)} :
    Edit first events second → Edits second rest third → Edits first (events ++ rest) third

namespace Edits

variable [Scale F] {first second third : Table F p} {events rest : List (Event K KS V VS)}

theorem of_edit (h : Edit first events second) : Edits first events second := by
  simpa using cons h nil

theorem of_silent (h : Edit first [] second) (h' : Edits second rest third) :
    Edits first rest third :=
  cons h h'

theorem append (h : Edits first events second) (h' : Edits second rest third) :
    Edits first (events ++ rest) third := by
  induction h with
  | nil => exact h'
  | cons hedit _ ih =>
      rw [List.append_assoc]
      exact cons hedit (ih h')

theorem remarks {t : Table F p} (h : ∀ event ∈ events, event.IsRemark) : Edits t events t := by
  induction events with
  | nil => exact nil
  | cons event events ih =>
      exact cons (.remark event (h event List.mem_cons_self))
        (ih fun other hother => h other (List.mem_cons_of_mem event hother))

/-- **What one edit keeps, edits keep.** -/
theorem keep {P : Table F p → Prop}
    (hstep : ∀ {t t' : Table F p} {events : List (Event K KS V VS)}, Edit t events t' → P t → P t')
    (h : Edits first events second) (hfirst : P first) : P second := by
  induction h with
  | nil => exact hfirst
  | cons hedit _ ih => exact ih (hstep hedit hfirst)

end Edits

/-! ## operations, taken apart -/

theorem query_of_mem_seek {t : Table F p} {key : K} {hash : UInt64} {bound : Nat} {link : Link}
    {event : Event K KS V VS} (h : event ∈ (t.seek key hash bound link).calls) :
    event.IsQuery := by
  induction bound generalizing link with
  | zero => simp [seek] at h
  | succ bound ih =>
      simp only [seek] at h
      split at h
      · simp at h
      · split at h
        · simp at h
        · split at h
          · rw [List.mem_singleton] at h
            subst h
            trivial
          · rcases List.mem_cons.mp h with rfl | h
            · trivial
            · exact ih h

/-- A search only calls the hash policy. -/
theorem query_of_mem_probe {t : Table F p} {key : K} {event : Event K KS V VS}
    (h : event ∈ (t.probe key).calls) : event.IsQuery := by
  rcases List.mem_cons.mp h with rfl | h
  · trivial
  · exact query_of_mem_seek h

/-- The entry that a search finds lives, and the link at which it stops holds it. -/
theorem linked_of_seek_found {t : Table F p} {key : K} {hash : UInt64} {bound : Nat}
    {link : Link} {id : EntryId} {entry : Entry KS VS}
    (h : (t.seek key hash bound link).found = some (id, entry)) :
    t.linked (t.seek key hash bound link).link = some id ∧ t.arena.get? id = some entry := by
  induction bound generalizing link with
  | zero => simp [seek] at h
  | succ bound ih =>
      simp only [seek] at h ⊢
      cases hlinked : t.linked link with
      | none => simp [hlinked] at h
      | some first =>
          cases hget : t.arena.get? first with
          | none => simp [hlinked, hget] at h
          | some entry' =>
              simp only [hlinked, hget] at h ⊢
              split at h
              · next heq =>
                  obtain ⟨rfl, rfl⟩ : first = id ∧ entry' = entry := by simpa using h
                  rw [if_pos heq]
                  exact ⟨hlinked, hget⟩
              · next hne =>
                  rw [if_neg hne]
                  exact ih h

theorem linked_of_probe_found {t : Table F p} {key : K} {id : EntryId} {entry : Entry KS VS}
    (hfound : (t.probe key).found = some (id, entry)) :
    t.linked (t.probe key).link = some id ∧ t.arena.get? id = some entry :=
  linked_of_seek_found hfound

variable [Scale F]

theorem edits_probe (t : Table F p) (key : K) : Edits t (t.probe key).calls t :=
  Edits.remarks fun _ h => (query_of_mem_probe h).remark

theorem edits_densityStep (t : Table F p) (supply : Supply ε) :
    Edits t (t.densityStep supply).journal (t.densityStep supply).table :=
  .of_edit (.step supply)

/-- A density step only writes notices. -/
theorem journal_densityStep (t : Table F p) (supply : Supply ε) :
    ∃ notices : List Notice, (t.densityStep supply).journal = notices.map Event.noticed := by
  unfold densityStep
  split
  · unfold resize
    dsimp only
    split <;> exact ⟨[_], rfl⟩
  · exact ⟨[], rfl⟩

section Acquiring

variable {copies : ε} {source : Option V} {events : List (Event K KS V VS)}

omit [Scale F] in
/-- A value that was acquired, or none where none was given. -/
theorem acquireValue_eq_ok {value : Option VS}
    (h : p.acquireValue copies source = (.ok value, events)) :
    p.Acquires copies source value ∧ events = Policies.eachValue .acquired value := by
  cases source with
  | none =>
      obtain ⟨hvalue, rfl⟩ := Prod.mk.inj h
      obtain rfl := Except.ok.inj hvalue
      exact ⟨.absent, rfl⟩
  | some given =>
      simp only [Policies.acquireValue] at h
      split at h
      · next stored hstored =>
          obtain ⟨hvalue, rfl⟩ := Prod.mk.inj h
          obtain rfl := Except.ok.inj hvalue
          exact ⟨.present hstored, rfl⟩
      · simp at h

omit [Scale F] in
/-- A value that was refused. -/
theorem acquireValue_eq_error {why : Failure}
    (h : p.acquireValue copies source = (.error why, events)) :
    ∃ given, source = some given ∧ p.values.acquire copies given = .error why ∧
      events = [.value (.denied given)] := by
  cases source with
  | none => simp [Policies.acquireValue] at h
  | some given =>
      simp only [Policies.acquireValue] at h
      split at h
      · simp at h
      · next why' hwhy =>
          obtain ⟨hvalue, rfl⟩ := Prod.mk.inj h
          obtain rfl := Except.error.inj hvalue
          exact ⟨given, rfl, hwhy, rfl⟩

end Acquiring

/-- **What can come of a key that was not found**: the first refusal is the
answer, in the order of room, key and value. -/
inductive Admission (t : Table F p) (supply : Supply ε) (key : K) (value : Option V) :
    Outcome F p (Except Failure EntryId) → Prop where
  /-- The arena cannot grow. -/
  | noRoom : t.arena.reserve supply.arena = none →
    Admission t supply key value ⟨.error .storage, t, []⟩
  /-- The key is refused. -/
  | keyRefused {arena : Arena κ (Entry KS VS)} {why : Failure} :
    t.arena.reserve supply.arena = some arena → p.keys.acquire supply.copies key = .error why →
      Admission t supply key value ⟨.error why, { t with arena }, [.key (.denied key)]⟩
  /-- The value is refused, and the key is given back. -/
  | valueRefused {arena : Arena κ (Entry KS VS)} {storedKey : KS} {given : V} {why : Failure} :
    t.arena.reserve supply.arena = some arena → p.keys.acquire supply.copies key = .ok storedKey →
      value = some given → p.values.acquire supply.copies given = .error why →
      Admission t supply key value ⟨.error why, { t with arena },
        [.key (.acquired storedKey), .value (.denied given), .key (.released storedKey)]⟩
  /-- The key gets an entry, and a density step follows. -/
  | admitted {arena : Arena κ (Entry KS VS)} {storedKey : KS} {storedValue : Option VS} :
    t.arena.reserve supply.arena = some arena → p.keys.acquire supply.copies key = .ok storedKey →
      p.Acquires supply.copies value storedValue →
      Admission t supply key value
        ((((t.linkNew arena key storedKey storedValue).densityStep supply).map
          fun _ => .ok arena.nextId).after
          (.key (.acquired storedKey) :: Policies.eachValue .acquired storedValue))

theorem admission_insertNew (t : Table F p) (supply : Supply ε) (key : K) (value : Option V) :
    Admission t supply key value (t.insertNew supply (t.probe key) key value) := by
  unfold insertNew
  split
  · next hroom => exact .noRoom hroom
  · next arena hroom =>
      dsimp only
      split
      · next why hkey => exact .keyRefused hroom hkey
      · next storedKey hkey =>
          split
          · next why events hvalue =>
              obtain ⟨given, hgiven, hwhy, rfl⟩ := acquireValue_eq_error hvalue
              exact .valueRefused hroom hkey hgiven hwhy
          · next storedValue events hvalue =>
              obtain ⟨hacquired, rfl⟩ := acquireValue_eq_ok hvalue
              rw [hash_probe]
              exact .admitted hroom hkey hacquired

/-- A key that was not found is given an entry, or there is a failure. -/
theorem edits_insertNew {t : Table F p} (supply : Supply ε) {key : K} (value : Option V)
    (hfound : (t.probe key).found = none) :
    Edits t (t.insertNew supply (t.probe key) key value).journal
      (t.insertNew supply (t.probe key) key value).table := by
  have hadmission := admission_insertNew t supply key value
  generalize t.insertNew supply (t.probe key) key value = outcome at hadmission ⊢
  cases hadmission with
  | noRoom => exact .nil
  | keyRefused hroom hkey => exact .of_silent (.room hroom) (.of_edit (.remark _ trivial))
  | valueRefused hroom hkey hgiven hwhy =>
      exact .of_silent (.room hroom) (.of_edit (.giveBack _ _))
  | admitted hroom hkey hvalue =>
      exact (Edits.of_edit (.link key _ _ hfound hroom)).append (edits_densityStep _ supply)

theorem edits_insert (t : Table F p) (supply : Supply ε) (key : K) (value : Option V) :
    Edits t (t.insert supply key value).journal (t.insert supply key value).table := by
  unfold insert
  dsimp only
  split
  · next id entry hfound =>
      obtain ⟨-, hget⟩ := linked_of_probe_found hfound
      split
      · next why events hvalue =>
          obtain ⟨source, -, -, rfl⟩ := acquireValue_eq_error hvalue
          exact (edits_probe t key).append (.of_edit (.remark _ trivial))
      · next fresh events hvalue =>
          obtain ⟨-, rfl⟩ := acquireValue_eq_ok hvalue
          rw [List.append_assoc]
          exact (edits_probe t key).append (.of_edit (.value hget (.renew entry.value fresh)))
  · next hfound =>
      exact (edits_probe t key).append (edits_insertNew supply value hfound)

theorem edits_openSlot (t : Table F p) (supply : Supply ε) (key : K) :
    Edits t (t.openSlot supply key).journal (t.openSlot supply key).table := by
  rw [openSlot_eq]
  dsimp only
  split
  · next id entry hfound =>
      obtain ⟨-, hget⟩ := linked_of_probe_found hfound
      exact (edits_probe t key).append (.of_edit (.value hget (.renew entry.value none)))
  · next hfound =>
      exact (edits_probe t key).append (edits_insertNew supply none hfound)

theorem edits_take (t : Table F p) (supply : Supply ε) (key : K) :
    Edits t (t.take supply key).journal (t.take supply key).table := by
  unfold take
  dsimp only
  split
  · exact edits_probe t key
  · next id entry hfound =>
      obtain ⟨hlink, hget⟩ := linked_of_probe_found hfound
      exact ((edits_probe t key).append (.of_edit (.take hlink hget))).append
        (edits_densityStep _ supply)

theorem edits_erase (t : Table F p) (supply : Supply ε) (key : K) :
    Edits t (t.erase supply key).journal (t.erase supply key).table := by
  unfold erase
  dsimp only
  split
  · exact edits_probe t key
  · next id entry hfound =>
      obtain ⟨hlink, hget⟩ := linked_of_probe_found hfound
      exact ((edits_probe t key).append (.of_edit (.erase hlink hget))).append
        (edits_densityStep _ supply)

/-! ## slot actions -/

omit [Scale F] in
/-- What a slot action does to a value. -/
theorem valueChange_run (copies : ε) (old : Option VS) (action : SlotAction V VS) :
    ValueChange old (action.run p copies old).journal (action.run p copies old).value := by
  cases action with
  | store source =>
      simp only [SlotAction.run]
      split
      · exact .refuse old source
      · exact .renew old (some _)
  | put stored => exact .supply old stored
  | clear => exact .renew old none
  | look => exact .keep old
  | isEmpty => exact .keep old
  | replace stored =>
      cases old with
      | none => exact .keep none
      | some old => exact .overwrite (some old) (some stored)
  | overwrite stored => exact .overwrite old stored

omit [Scale F] in
/-- An entry with another value is where it was. -/
theorem get?_setValue {chains : Chains κ KS VS} {id : EntryId} {entry : Entry KS VS}
    (hget : chains.arena.get? id = some entry) (value : Option VS) :
    (chains.setValue id value).arena.get? id = some { entry with value } := by
  simp [Chains.setValue, Arena.get?_modify, hget]

omit [Scale F] in
/-- Writing the value that an entry has changes nothing. -/
theorem setValue_self (chains : Chains κ KS VS) (id : EntryId) (value : Option VS)
    (hvalue : ∀ entry, chains.arena.get? id = some entry → entry.value = value) :
    chains.setValue id value = chains := by
  have hslots : (chains.setValue id value).arena.slots = chains.arena.slots := by
    refine Array.ext_getElem? fun i => ?_
    simp only [Chains.setValue, Arena.modify, Array.getElem?_modify]
    split
    · next heq =>
        subst heq
        cases hslot : chains.arena.slots[id.index]? with
        | none => rfl
        | some slot =>
            cases slot with
            | none => rfl
            | some entry =>
                obtain rfl := hvalue entry (by simp [Arena.get?, hslot])
                rfl
    · rfl
  unfold Chains.setValue Arena.modify at hslots ⊢
  dsimp only at hslots
  rw [hslots]

omit [Scale F] in
theorem setValue_of_get? {chains : Chains κ KS VS} {id : EntryId} {entry : Entry KS VS}
    (hget : chains.arena.get? id = some entry) : chains.setValue id entry.value = chains :=
  setValue_self chains id entry.value fun other hother => by
    rw [Option.some.inj (hother.symm.trans hget)]

omit [Scale F] in
/-- Of two values written, the second is left. -/
theorem setValue_setValue (chains : Chains κ KS VS) (id : EntryId) (first second : Option VS) :
    (chains.setValue id first).setValue id second = chains.setValue id second := by
  simp only [Chains.setValue, Arena.modify_modify]
  rfl

omit [Scale F] in
/-- No link depends on a value. -/
theorem linked_setValue (chains : Chains κ KS VS) (id : EntryId) (value : Option VS)
    (link : Link) : (chains.setValue id value).linked link = chains.linked link := by
  cases link with
  | head bucket => rfl
  | after other =>
      simp only [Chains.linked, Chains.setValue, Arena.get?_modify]
      split
      · cases chains.arena.get? other <;> rfl
      · rfl

omit [Scale F] in
theorem onSlot_eq {t : Table F p} {id : EntryId} {entry : Entry KS VS}
    (hget : t.arena.get? id = some entry) (copies : ε) (action : SlotAction V VS) :
    t.onSlot id copies action =
      ⟨(action.run p copies entry.value).reply,
        { t with toChains := t.toChains.setValue id (action.run p copies entry.value).value },
        (action.run p copies entry.value).journal⟩ := by
  simp [onSlot, hget]

theorem edits_onSlots {t : Table F p} {id : EntryId} {entry : Entry KS VS}
    (hget : t.arena.get? id = some entry) (actions : List (ε × SlotAction V VS)) :
    Edits t (t.onSlots id actions).journal (t.onSlots id actions).table := by
  induction actions generalizing t entry with
  | nil => exact .nil
  | cons first rest ih =>
      obtain ⟨copies, action⟩ := first
      simp only [onSlots, onSlot_eq hget]
      exact .cons (.value hget (valueChange_run copies entry.value action))
        (ih (get?_setValue hget _))

/-! ## visits and walks -/

theorem edits_visit (visit : Visit F ε K V VS ρ) {t : Table F p} {link : Link} {id : EntryId}
    {entry : Entry KS VS} (hlink : t.linked link = some id)
    (hget : t.arena.get? id = some entry) :
    Edits t (visit.run link id t entry).journal (visit.run link id t entry).table := by
  induction visit generalizing t entry with
  | key next ih => exact ih _ hlink hget
  | value next ih => exact ih _ hlink hget
  | slot copies action next ih =>
      exact .cons (.value hget (valueChange_run copies entry.value action))
        (ih _ ((linked_setValue ..).trans hlink) (get?_setValue hget _))
  | contains other next ih => exact (edits_probe t other).append (ih _ hlink hget)
  | lookUp other next ih => exact (edits_probe t other).append (ih _ hlink hget)
  | readings next ih => exact ih _ hlink hget
  | leave result => exact .nil
  | erase result => exact .of_edit (.erase hlink hget)
  | take result => exact .of_edit (.take hlink hget)

end Table

namespace Walk

open Table

variable [Scale F] {visitor : Visitor F ε K V VS σ ω}

/-- Edits that lead from one state of a walk to another, with the events that
the journal of the walk gains. -/
def Goes (w w' : Walk F p σ) : Prop :=
  ∃ events, Edits w.table events w'.table ∧ w'.journal.toList = w.journal.toList ++ events

theorem Goes.refl (w : Walk F p σ) : w.Goes w := ⟨[], .nil, by simp⟩

theorem Goes.trans {first second third : Walk F p σ} (h : first.Goes second)
    (h' : second.Goes third) : first.Goes third := by
  obtain ⟨events, hedits, hjournal⟩ := h
  obtain ⟨rest, hedits', hjournal'⟩ := h'
  exact ⟨events ++ rest, hedits.append hedits', by rw [hjournal', hjournal, List.append_assoc]⟩

/-- A walk after a visit with a given outcome, before it moves on. -/
def visited (w : Walk F p σ) (outcome : Outcome F p (σ × Verdict ω)) : Walk F p σ :=
  { w with
    table := outcome.table
    memory := outcome.answer.1
    journal := w.journal ++ outcome.journal }

theorem visitAt_eq (w : Walk F p σ) (id : EntryId) (entry : Entry KS VS) :
    w.visitAt visitor id entry =
      match ((visitor w.memory).run w.link id w.table entry).answer.2 with
      | .goOn => ((w.visited ((visitor w.memory).run w.link id w.table entry)).advance id, none)
      | .stop => (w.visited ((visitor w.memory).run w.link id w.table entry), some .stopped)
      | .fail why =>
        (w.visited ((visitor w.memory).run w.link id w.table entry), some (.failed why)) := rfl

/-- Moving on changes only where the walk stands. -/
theorem goes_advance (w : Walk F p σ) (id : EntryId) : w.Goes (w.advance id) := by
  unfold advance
  split <;> exact Goes.refl w

theorem goes_step (visitor : Visitor F ε K V VS σ ω) (w : Walk F p σ) :
    w.Goes (w.step visitor).1 := by
  have hnext : w.Goes (w.nextBucket : Walk F p σ × Option (Ending ω)).1 := by
    unfold nextBucket
    dsimp only
    split <;> exact Goes.refl w
  unfold step
  split
  · exact hnext
  · next id hlink =>
      split
      · exact hnext
      · next entry hget =>
          have hvisited : w.Goes (w.visited ((visitor w.memory).run w.link id w.table entry)) :=
            ⟨_, edits_visit (visitor w.memory) hlink hget, by simp [visited]⟩
          rw [visitAt_eq]
          split
          · exact hvisited.trans (goes_advance _ id)
          · exact hvisited
          · exact hvisited

theorem goes_runWithin (visitor : Visitor F ε K V VS σ ω) (bound : Nat) (w : Walk F p σ) :
    w.Goes (w.runWithin visitor bound).1 := by
  induction bound generalizing w with
  | zero => exact Goes.refl w
  | succ bound ih =>
      have hstep := goes_step visitor w
      unfold runWithin
      split
      · next w' hw =>
          rw [hw] at hstep
          exact hstep.trans (ih w')
      · next w' ending hw =>
          rw [hw] at hstep
          exact hstep

end Walk

namespace Table

variable [Scale F]

theorem edits_restoreBandWithin (supply : Supply ε) (bound : Nat) (t : Table F p) :
    Edits t (restoreBandWithin supply bound t).journal
      (restoreBandWithin supply bound t).table := by
  induction bound generalizing t with
  | zero => exact .nil
  | succ bound ih =>
      unfold restoreBandWithin
      dsimp only
      split
      · exact (edits_densityStep t supply).append (ih _)
      · exact edits_densityStep t supply

theorem edits_restoreBand (t : Table F p) (supply : Supply ε) :
    Edits t (t.restoreBand supply).journal (t.restoreBand supply).table := by
  unfold restoreBand
  dsimp only
  split
  · exact (edits_restoreBandWithin ..).append (.of_edit (.remark _ trivial))
  · exact edits_restoreBandWithin ..

theorem edits_walk (t : Table F p) (supply : Supply ε) (memory : σ)
    (visitor : Visitor F ε K V VS σ ω) :
    Edits t (t.walk supply memory visitor).journal (t.walk supply memory visitor).table := by
  have hwalk : Edits t ((Walk.start t memory).run visitor).1.journal.toList
      ((Walk.start t memory).run visitor).1.table := by
    obtain ⟨events, hedits, hjournal⟩ := Walk.goes_runWithin visitor _ (Walk.start t memory)
    rw [Walk.run, hjournal]
    exact hedits
  unfold walk
  dsimp only
  split
  · exact hwalk
  · exact hwalk.append (edits_restoreBand _ supply)

end Table

end ChainedTable
