import ChainedTable.Proofs.Snapshot
import ChainedTable.Proofs.Trims

/-!
# ChainedTable.Proofs.Refusals

When an operation fails, and what it leaves behind.

Room in the arena, the stored key and the stored value can each be refused. They
are asked for in this order, after the search for the key and before anything is
linked. So a failure names the first refusal (`NoEntry`, `RefusesValue`), and the
table is as it was but for spare room: no entry, no chain and no value has
changed, and a key that was acquired on the way has been given back (`Unharmed`).

Bucket arrays are asked for only once the answer is certain. To refuse one never
makes an operation fail.
-/

namespace ChainedTable

variable {F ε K KS V VS ρ σ ω : Type} {κ : Keeper} {p : Policies ε K KS V VS κ}

/-! ## what can be refused -/

/-- A value was given, and it cannot be acquired. -/
def Policies.RefusesValue (p : Policies ε K KS V VS κ) (copies : ε) (value : Option V)
    (why : Failure) : Prop :=
  ∃ given, value = some given ∧ p.values.acquire copies given = .error why

/-- A value is refused for one reason. -/
theorem Policies.RefusesValue.eq {copies : ε} {value : Option V} {why why' : Failure}
    (h : p.RefusesValue copies value why) (h' : p.RefusesValue copies value why') : why = why' := by
  obtain ⟨given, rfl, hwhy⟩ := h
  obtain ⟨given', hgiven, hwhy'⟩ := h'
  obtain rfl := Option.some.inj hgiven
  exact Except.error.inj (hwhy.symm.trans hwhy')

theorem Policies.Acquires.not_refusesValue {copies : ε} {value : Option V} {stored : Option VS}
    (h : p.Acquires copies value stored) (why : Failure) : ¬p.RefusesValue copies value why := by
  rintro ⟨given, rfl, hwhy⟩
  cases h with
  | present hstored => simp [hstored] at hwhy

namespace Arena

variable {α : Type} {arena larger : Arena κ α} {granted : Bool}

theorem reserve_eq_none_iff :
    arena.reserve granted = none ↔ arena.isFull = true ∧ granted = false := by
  unfold reserve
  cases arena.isFull <;> cases granted <;> simp

/-- Making room changes the capacity only, and does not lower it. -/
theorem eq_of_reserve_eq_some (h : arena.reserve granted = some larger) :
    ∃ capacity, arena.capacity ≤ capacity ∧ larger = { arena with capacity } := by
  unfold reserve at h
  split at h
  · obtain rfl := Option.some.inj h
    exact ⟨arena.capacity, le_rfl, rfl⟩
  · split at h
    · obtain rfl := Option.some.inj h
      exact ⟨_, (κ.lt_grow arena.capacity).le, rfl⟩
    · contradiction

end Arena

namespace Table

variable {t t' : Table F p} {supply : Supply ε} {key : K} {value : Option V} {why : Failure}

/-- A key has an entry: one that matches it is on its chain. -/
def Finds (t : Table F p) (key : K) : Prop := ∃ id ∈ t.chain (t.home key), t.Matches key id

/-- One more entry needs a larger block, and that is refused. -/
def NoRoom (t : Table F p) (supply : Supply ε) : Prop :=
  t.arena.isFull = true ∧ supply.arena = false

/-- No entry can be made for a key: there is no room, or there is and the key is
refused. -/
inductive NoEntry (t : Table F p) (supply : Supply ε) (key : K) : Failure → Prop where
  | room : t.NoRoom supply → NoEntry t supply key .storage
  | key {why : Failure} : ¬t.NoRoom supply → p.keys.acquire supply.copies key = .error why →
    NoEntry t supply key why

/-- An entry could be made for a key, but not with the value. -/
structure NoValue (t : Table F p) (supply : Supply ε) (key : K) (value : Option V)
    (why : Failure) : Prop where
  room : ¬t.NoRoom supply
  key : ∃ stored, p.keys.acquire supply.copies key = .ok stored
  value : p.RefusesValue supply.copies value why

/-- A search finds an entry exactly if there is one on the chain of the key. -/
theorem Sound.finds_iff (h : t.Sound) : t.Finds key ↔ (t.probe key).found.isSome = true := by
  constructor
  · rintro ⟨id, hid, hmatches⟩
    by_contra hnone
    rw [Option.not_isSome_iff_eq_none] at hnone
    exact (probe_not_found h.wellLinked hnone).2 id hid hmatches
  · intro hsome
    obtain ⟨⟨id, entry⟩, hfound⟩ := Option.isSome_iff_exists.mp hsome
    obtain ⟨front, rest, hlist, -, hmatches, -⟩ := probe_found h.wellLinked hfound
    exact ⟨id, by simp [hlist], hmatches⟩

/-! ## what a failure leaves behind -/

/-- Of a table there is only more room in another, and the events tell of nothing
that came or went, but for one key. -/
structure Unharmed (t t' : Table F p) (events : List (Event K KS V VS)) : Prop where
  table : ∃ capacity, t.arena.capacity ≤ capacity ∧
    t' = { t with arena := { t.arena with capacity } }
  /-- A value was refused at most. -/
  values {what : Handling V VS} : .value what ∈ events → ∃ source, what = .denied source
  /-- No notice was written, as density steps do that resize. -/
  notices (notice : Notice) : .noticed notice ∉ events
  /-- What was acquired has been released. -/
  keys : keysWith Handling.acquired? events = keysWith Handling.released? events
  /-- That was one key at most. -/
  once : (keysWith Handling.released? events).card ≤ 1

namespace Unharmed

variable {events calls : List (Event K KS V VS)}

theorem keysWith_queries (hcalls : ∀ event ∈ calls, event.IsQuery)
    (pick : Handling K KS → Option KS) : keysWith pick calls = 0 := by
  have hnone : calls.filterMap (fun event => event.key?.bind pick) = [] := by
    refine List.filterMap_eq_nil_iff.mpr fun event hevent => ?_
    cases event with
    | hashed | compared | value | noticed => rfl
    | key => exact (hcalls _ hevent).elim
  unfold keysWith
  rw [hnone]
  rfl

/-- Calls of the hash policy do no harm. -/
theorem after (h : t.Unharmed t' events) (hcalls : ∀ event ∈ calls, event.IsQuery) :
    t.Unharmed t' (calls ++ events) where
  table := h.table
  values hmem := by
    rcases List.mem_append.mp hmem with hcall | hevent
    · exact (hcalls _ hcall).elim
    · exact h.values hevent
  notices notice hmem := by
    rcases List.mem_append.mp hmem with hcall | hevent
    · exact (hcalls _ hcall).elim
    · exact h.notices notice hevent
  keys := by
    rw [keysWith_append, keysWith_append, keysWith_queries hcalls, keysWith_queries hcalls, h.keys]
  once := by
    rw [keysWith_append, keysWith_queries hcalls, zero_add]
    exact h.once

/-- A refusal of a value, and nothing else. -/
theorem denied (t : Table F p) (source : V) : t.Unharmed t [.value (.denied source)] where
  table := ⟨t.arena.capacity, le_rfl, rfl⟩
  values hmem := by
    obtain rfl : _ = Handling.denied source := by simpa using hmem
    exact ⟨source, rfl⟩
  notices := by simp
  keys := rfl
  once := Nat.zero_le 1

end Unharmed

/-! ## a key without an entry -/

theorem noRoom_iff : t.NoRoom supply ↔ t.arena.reserve supply.arena = none :=
  Arena.reserve_eq_none_iff.symm

theorem not_noRoom {arena : Arena κ (Entry KS VS)}
    (hroom : t.arena.reserve supply.arena = some arena) : ¬t.NoRoom supply := by
  rw [noRoom_iff, hroom]
  nofun

variable [Scale F]

/-- The first refusal is the answer. -/
theorem Admission.answer_eq_error_iff {outcome : Outcome F p (Except Failure EntryId)}
    (h : Admission t supply key value outcome) (why : Failure) :
    outcome.answer = .error why ↔
      t.NoEntry supply key why ∨ t.NoValue supply key value why := by
  constructor
  · intro hanswer
    cases h with
    | noRoom hroom =>
        obtain rfl := Except.error.inj hanswer
        exact .inl (.room (noRoom_iff.mpr hroom))
    | keyRefused hroom hkey =>
        obtain rfl := Except.error.inj hanswer
        exact .inl (.key (not_noRoom hroom) hkey)
    | valueRefused hroom hkey hgiven hwhy =>
        obtain rfl := Except.error.inj hanswer
        exact .inr ⟨not_noRoom hroom, ⟨_, hkey⟩, _, hgiven, hwhy⟩
    | admitted => contradiction
  · rintro (hentry | ⟨hroom, ⟨stored, hstored⟩, hrefuses⟩)
    · cases hentry with
      | room hnone =>
          cases h with
          | noRoom => rfl
          | keyRefused hroom | valueRefused hroom | admitted hroom =>
              exact absurd hnone (not_noRoom hroom)
      | key hroom hwhy =>
          cases h with
          | noRoom hnone => exact absurd (noRoom_iff.mpr hnone) hroom
          | keyRefused _ hkey =>
              obtain rfl := Except.error.inj (hkey.symm.trans hwhy)
              rfl
          | valueRefused _ hkey | admitted _ hkey => simp [hwhy] at hkey
    · cases h with
      | noRoom hnone => exact absurd (noRoom_iff.mpr hnone) hroom
      | keyRefused _ hkey => simp [hstored] at hkey
      | valueRefused _ _ hgiven hwhy =>
          obtain rfl := hrefuses.eq ⟨_, hgiven, hwhy⟩
          rfl
      | admitted _ _ hvalue => exact absurd hrefuses (hvalue.not_refusesValue why)

/-- A failure leaves more room at most, and a key that was acquired is released. -/
theorem Admission.unharmed {outcome : Outcome F p (Except Failure EntryId)}
    (h : Admission t supply key value outcome) (hanswer : outcome.answer = .error why) :
    t.Unharmed outcome.table outcome.journal := by
  cases h with
  | noRoom hroom => exact ⟨⟨_, le_rfl, rfl⟩, by simp, by simp, rfl, Nat.zero_le 1⟩
  | keyRefused hroom hkey =>
      obtain ⟨capacity, hle, rfl⟩ := Arena.eq_of_reserve_eq_some hroom
      exact ⟨⟨capacity, hle, rfl⟩, by simp, by simp, rfl, Nat.zero_le 1⟩
  | valueRefused hroom hkey hgiven hwhy =>
      obtain ⟨capacity, hle, rfl⟩ := Arena.eq_of_reserve_eq_some hroom
      exact ⟨⟨capacity, hle, rfl⟩, by simp, by simp, rfl, le_rfl⟩
  | admitted => contradiction

/-! ## mapping a key -/

omit [Scale F] in
theorem queries_probe (t : Table F p) (key : K) :
    ∀ event ∈ (t.probe key).calls, event.IsQuery :=
  fun _ h => query_of_mem_probe h

namespace Sound

/-- **Mapping a key fails** if it has an entry and the value is refused, or it has
none, and one of the three is refused that a new entry takes. -/
theorem insert_eq_error_iff (h : t.Sound) :
    (t.insert supply key value).answer = .error why ↔
      (t.Finds key ∧ p.RefusesValue supply.copies value why) ∨
      (¬t.Finds key ∧ (t.NoEntry supply key why ∨ t.NoValue supply key value why)) := by
  have hadmission := admission_insertNew t supply key value
  rw [h.finds_iff]
  unfold insert
  dsimp only
  cases hfound : (t.probe key).found with
  | none =>
      have hnew := hadmission.answer_eq_error_iff why
      simp only [Outcome.answer_after, Outcome.answer_map, Option.isSome_none, Bool.false_eq_true,
        false_and, not_false_eq_true, true_and, false_or, ← hnew]
      cases (t.insertNew supply (t.probe key) key value).answer <;> simp [Except.map]
  | some found =>
      simp only [Option.isSome_some, true_and, not_true_eq_false, false_and, or_false]
      cases hacquire : p.acquireValue supply.copies value with
      | mk acquired events =>
          cases acquired with
          | error why' =>
              obtain ⟨given, hgiven, hwhy, -⟩ := acquireValue_eq_error hacquire
              constructor
              · intro hanswer
                obtain rfl := Except.error.inj hanswer
                exact ⟨given, hgiven, hwhy⟩
              · intro hrefuses
                obtain rfl := hrefuses.eq ⟨given, hgiven, hwhy⟩
                rfl
          | ok fresh =>
              have hvalue := (acquireValue_eq_ok hacquire).1
              exact iff_of_false nofun (hvalue.not_refusesValue why)

theorem insert_unharmed (hanswer : (t.insert supply key value).answer = .error why) :
    t.Unharmed (t.insert supply key value).table (t.insert supply key value).journal := by
  have hadmission := admission_insertNew t supply key value
  have hcalls := queries_probe t key
  unfold insert at hanswer ⊢
  dsimp only at hanswer ⊢
  split at hanswer
  · next found hfound =>
      split at hanswer
      · next why' events hacquire =>
          obtain ⟨given, -, -, rfl⟩ := acquireValue_eq_error hacquire
          exact (Unharmed.denied t given).after hcalls
      · contradiction
  · next hfound =>
      have hfailed : ∃ why, (t.insertNew supply (t.probe key) key value).answer = .error why := by
        cases hnew : (t.insertNew supply (t.probe key) key value).answer with
        | error why => exact ⟨why, rfl⟩
        | ok id => simp [hnew, Except.map] at hanswer
      obtain ⟨why', hnew⟩ := hfailed
      exact (hadmission.unharmed hnew).after hcalls

/-- **Opening a slot fails** if the key has no entry and none can be made. -/
theorem openSlot_eq_error_iff (h : t.Sound) :
    (t.openSlot supply key).answer = .error why ↔ ¬t.Finds key ∧ t.NoEntry supply key why := by
  have hadmission := admission_insertNew t supply key none
  rw [h.finds_iff]
  rw [openSlot_eq]
  dsimp only
  cases hfound : (t.probe key).found with
  | none =>
      have hvalue : ¬t.NoValue supply key none why := by
        rintro ⟨-, -, given, hgiven, -⟩
        contradiction
      simpa [hvalue] using hadmission.answer_eq_error_iff why
  | some found => simp

theorem openSlot_unharmed (hanswer : (t.openSlot supply key).answer = .error why) :
    t.Unharmed (t.openSlot supply key).table (t.openSlot supply key).journal := by
  have hadmission := admission_insertNew t supply key none
  rw [openSlot_eq] at hanswer ⊢
  dsimp only at hanswer ⊢
  split at hanswer
  · contradiction
  · exact (hadmission.unharmed hanswer).after (queries_probe t key)

end Sound

/-! ## working on a value -/

omit [Scale F] in
/-- **Storing a value fails** if it cannot be acquired. -/
theorem store_eq_refused_iff (t : Table F p) (id : EntryId) (copies : ε) (source : V) :
    (t.onSlot id copies (.store source)).answer = .refused why ↔
      p.values.acquire copies source = .error why := by
  unfold onSlot SlotAction.run
  dsimp only
  cases p.values.acquire copies source <;> simp

omit [Scale F] in
/-- A value that could not be stored leaves the old one. -/
theorem onSlot_of_refused (id : EntryId) {copies : ε} {source : V}
    (hwhy : p.values.acquire copies source = .error why) :
    t.onSlot id copies (.store source) = ⟨.refused why, t, [.value (.denied source)]⟩ := by
  have hself := setValue_self t.toChains id ((t.arena.get? id).bind (·.value))
    fun entry hget => by simp [hget]
  simp [onSlot, SlotAction.run, hwhy, hself]

/-- The same under a walk: a visit that is refused a value goes on in the same
table. -/
theorem run_store {link : Link} {id : EntryId} {entry : Entry KS VS} (copies : ε) (source : V)
    (next : SlotReply V → Visit F ε K V VS ρ) (hget : t.arena.get? id = some entry) :
    (Visit.slot copies (.store source) next).run link id t entry =
      match p.values.acquire copies source with
      | .error why => ((next (.refused why)).run link id t entry).after [.value (.denied source)]
      | .ok stored =>
        ((next .done).run link id { t with toChains := t.toChains.setValue id (some stored) }
          { entry with value := some stored }).after
          (.value (.acquired stored) :: Policies.releaseValue entry.value) := by
  have hself : t.toChains.setValue id entry.value = t.toChains := setValue_of_get? hget
  cases hacquire : p.values.acquire copies source with
  | error why => simp [Visit.run, SlotAction.run, hacquire, hself]
  | ok stored => simp [Visit.run, SlotAction.run, hacquire]

/-! ## bucket arrays -/

/-- Two outcomes with the same answer and the same entries. -/
structure Agree {α : Type} (first second : Outcome F p α) : Prop where
  answer : first.answer = second.answer
  entries (id : EntryId) : first.table.holding? id = second.table.holding? id

namespace Sound

/-- Whatever a density step is granted, it answers nothing and changes no entry. -/
theorem agree_densityStep {α : Type} (h : t.Sound) (supply supply' : Supply ε) (answer : α)
    (calls : List (Event K KS V VS)) :
    Agree (((t.densityStep supply).map fun _ => answer).after calls)
      (((t.densityStep supply').map fun _ => answer).after calls) where
  answer := rfl
  entries id := (h.holding?_densityStep supply id).trans (h.holding?_densityStep supply' id).symm

variable (buckets : Nat → Bool)

theorem agree_insertNew (h : t.Sound) (supply : Supply ε) (value : Option V)
    (hfound : (t.probe key).found = none) :
    Agree (t.insertNew { supply with buckets } (t.probe key) key value)
      (t.insertNew supply (t.probe key) key value) := by
  unfold insertNew
  dsimp only
  split
  · exact ⟨rfl, fun _ => rfl⟩
  · next arena hroom =>
      split
      · exact ⟨rfl, fun _ => rfl⟩
      · next storedKey _ =>
          split
          · exact ⟨rfl, fun _ => rfl⟩
          · next storedValue calls _ =>
              rw [hash_probe]
              exact (h.linkNew hroom hfound storedKey storedValue).agree_densityStep ..

theorem agree_insert (h : t.Sound) (key : K) (value : Option V) :
    Agree (t.insert { supply with buckets } key value) (t.insert supply key value) := by
  unfold insert
  dsimp only
  cases hfound : (t.probe key).found with
  | none =>
      have hnew := h.agree_insertNew buckets supply value hfound
      exact ⟨congrArg (Except.map fun _ => true) hnew.answer, hnew.entries⟩
  | some found =>
      dsimp only
      split <;> exact ⟨rfl, fun _ => rfl⟩

theorem agree_openSlot (h : t.Sound) (key : K) :
    Agree (t.openSlot { supply with buckets } key) (t.openSlot supply key) := by
  rw [openSlot_eq, openSlot_eq]
  dsimp only
  cases hfound : (t.probe key).found with
  | none =>
      have hnew := h.agree_insertNew buckets supply none hfound
      exact ⟨hnew.answer, hnew.entries⟩
  | some found => exact ⟨rfl, fun _ => rfl⟩

theorem agree_take (h : t.Sound) (key : K) :
    Agree (t.take { supply with buckets } key) (t.take supply key) := by
  unfold take
  dsimp only
  cases hfound : (t.probe key).found with
  | none => exact ⟨rfl, fun _ => rfl⟩
  | some found =>
      obtain ⟨hlink, hget⟩ := linked_of_probe_found hfound
      exact (h.unlink hlink hget).agree_densityStep ..

theorem agree_erase (h : t.Sound) (key : K) :
    Agree (t.erase { supply with buckets } key) (t.erase supply key) := by
  unfold erase
  dsimp only
  cases hfound : (t.probe key).found with
  | none => exact ⟨rfl, fun _ => rfl⟩
  | some found =>
      obtain ⟨hlink, hget⟩ := linked_of_probe_found hfound
      exact (h.unlink hlink hget).agree_densityStep ..

theorem agree_walk (h : t.Sound) (memory : σ) (visitor : Visitor F ε K V VS σ ω) :
    Agree (t.walk { supply with buckets } memory visitor) (t.walk supply memory visitor) := by
  have hsound := h.run_start memory visitor
  unfold walk
  dsimp only
  split
  · exact ⟨rfl, fun _ => rfl⟩
  · exact ⟨rfl, fun id =>
      (hsound.holding?_restoreBand _ id).trans (hsound.holding?_restoreBand _ id).symm⟩

end Sound

/-! ## failures, all together -/

/-- When the operations of a table fail, and that nothing is different then. -/
structure FailsCleanly (t : Table F p) : Prop where
  insert_fails {supply : Supply ε} {key : K} {value : Option V} {why : Failure} :
    (t.insert supply key value).answer = .error why ↔
      (t.Finds key ∧ p.RefusesValue supply.copies value why) ∨
      (¬t.Finds key ∧ (t.NoEntry supply key why ∨ t.NoValue supply key value why))
  insert_unharmed {supply : Supply ε} {key : K} {value : Option V} {why : Failure} :
    (t.insert supply key value).answer = .error why →
      t.Unharmed (t.insert supply key value).table (t.insert supply key value).journal
  openSlot_fails {supply : Supply ε} {key : K} {why : Failure} :
    (t.openSlot supply key).answer = .error why ↔ ¬t.Finds key ∧ t.NoEntry supply key why
  openSlot_unharmed {supply : Supply ε} {key : K} {why : Failure} :
    (t.openSlot supply key).answer = .error why →
      t.Unharmed (t.openSlot supply key).table (t.openSlot supply key).journal
  store_fails {id : EntryId} {copies : ε} {source : V} {why : Failure} :
    (t.onSlot id copies (.store source)).answer = .refused why ↔
      p.values.acquire copies source = .error why
  store_unharmed {id : EntryId} {copies : ε} {source : V} {why : Failure} :
    (t.onSlot id copies (.store source)).answer = .refused why →
      t.Unharmed (t.onSlot id copies (.store source)).table
        (t.onSlot id copies (.store source)).journal
  /-- A visitor is told of a refusal, and goes on in the same table. -/
  visit_stores {link : Link} {id : EntryId} {entry : Entry KS VS} {copies : ε} {source : V}
    {ρ : Type} (next : SlotReply V → Visit F ε K V VS ρ) : t.arena.get? id = some entry →
      (Visit.slot copies (.store source) next).run link id t entry =
        match p.values.acquire copies source with
        | .error why => ((next (.refused why)).run link id t entry).after [.value (.denied source)]
        | .ok stored =>
          ((next .done).run link id { t with toChains := t.toChains.setValue id (some stored) }
            { entry with value := some stored }).after
            (.value (.acquired stored) :: Policies.releaseValue entry.value)
  /-- No answer depends on the bucket arrays that are granted, and no entry does. -/
  insert_agrees {supply : Supply ε} (buckets : Nat → Bool) (key : K) (value : Option V) :
    Agree (t.insert { supply with buckets } key value) (t.insert supply key value)
  openSlot_agrees {supply : Supply ε} (buckets : Nat → Bool) (key : K) :
    Agree (t.openSlot { supply with buckets } key) (t.openSlot supply key)
  take_agrees {supply : Supply ε} (buckets : Nat → Bool) (key : K) :
    Agree (t.take { supply with buckets } key) (t.take supply key)
  erase_agrees {supply : Supply ε} (buckets : Nat → Bool) (key : K) :
    Agree (t.erase { supply with buckets } key) (t.erase supply key)
  walk_agrees {supply : Supply ε} {σ ω : Type} (buckets : Nat → Bool) (memory : σ)
    (visitor : Visitor F ε K V VS σ ω) :
    Agree (t.walk { supply with buckets } memory visitor) (t.walk supply memory visitor)

/-- **Every failure is clean**, between operations and under a walk. -/
theorem failsCleanly_of_seen (h : t.Seen) : t.FailsCleanly where
  insert_fails := h.sound.insert_eq_error_iff
  insert_unharmed := Sound.insert_unharmed
  openSlot_fails := h.sound.openSlot_eq_error_iff
  openSlot_unharmed := Sound.openSlot_unharmed
  store_fails := t.store_eq_refused_iff _ _ _
  store_unharmed {id copies source why} hanswer := by
    rw [onSlot_of_refused id ((t.store_eq_refused_iff id copies source).mp hanswer)]
    exact .denied t source
  visit_stores next hget := run_store _ _ next hget
  insert_agrees := h.sound.agree_insert
  openSlot_agrees := h.sound.agree_openSlot
  take_agrees := h.sound.agree_take
  erase_agrees := h.sound.agree_erase
  walk_agrees := h.sound.agree_walk

/-- A new table has no slot to spare. -/
example : ((empty .default : Table Rat oneChain).insert { plenty with arena := false } 1
    none).answer = .error .storage := rfl

theorem failsCleanly_sample : sample.Seen ∧ sample.FailsCleanly :=
  ⟨.after reachable_sample, failsCleanly_of_seen (.after reachable_sample)⟩

end Table

end ChainedTable
