import ChainedTable.Proofs.Effects
import ChainedTable.Proofs.Inquiries
import ChainedTable.Proofs.Refusals
import ChainedTable.Proofs.Regrouping

/-!
# ChainedTable.Proofs.Peak

How much room a table takes.

A slot of the arena is vacated when its entry goes, and taken again before a new
slot comes into use.  So there are as many slots as the table has ever had entries
at one time: its peak (`Table.Peaks`).  Which vacant slot is taken, and how much a
block grows, makes no difference: all this holds with any `Keeper`.

1. Only the edit that links a new entry can bring a slot into use, and a copy of
   the key was made for it (`Edit.slots_eq`).
2. That edit takes a vacant slot if there is one (`Arena.Valid.slots_insert`).
3. Below its peak a table has a vacant slot, and a new entry needs no storage.
-/

namespace ChainedTable

variable {F ε K KS V VS σ ω : Type} {κ : Keeper} {p : Policies ε K KS V VS κ}

/-! ## the arena -/

namespace Arena

variable {α : Type} {arena larger : Arena κ α} {granted : Bool}

/-- An entry takes a vacant slot, or a new one if all are in use. -/
theorem Valid.slots_insert (h : arena.Valid) (entry : α) :
    (arena.insert entry).slots.size = max arena.slots.size (arena.size + 1) := by
  have hle := h.count_vacant_le
  have hcount := κ.length_indices arena.vacant
  unfold Arena.insert size
  cases hnext : κ.next arena.vacant with
  | none =>
      rw [κ.indices_of_next_eq_none hnext, List.length_nil] at hcount
      simp only [Array.size_push]
      omega
  | some i =>
      have hpos := List.length_pos_of_mem (Keeper.mem_indices_of_next hnext)
      simp only [Array.size_setIfInBounds]
      omega

/-- No slot is to spare if each holds an entry. -/
theorem Valid.indices_eq_nil_iff (h : arena.Valid) :
    κ.indices arena.vacant = [] ↔ arena.size = arena.slots.size := by
  have hle := h.count_vacant_le
  rw [← List.length_eq_zero_iff, κ.length_indices]
  unfold size
  omega

/-- A larger block is needed if there is no slot to spare and the block is used up. -/
theorem Valid.isFull_iff_size (h : arena.Valid) : arena.isFull = true ↔
    arena.size = arena.slots.size ∧ arena.slots.size + 1 = arena.capacity := by
  rw [isFull_iff, h.indices_eq_nil_iff]

/-- With a slot to spare there is room, whether or not the arena may grow. -/
theorem Valid.reserve_of_size_lt (h : arena.Valid) (hlt : arena.size < arena.slots.size)
    (granted : Bool) : arena.reserve granted = some arena := by
  have hspare : ¬(arena.isFull = true) := fun hfull => hlt.ne (h.isFull_iff_size.mp hfull).1
  simp [Arena.reserve, hspare]

/-- Once room was made, an entry is put in without storage. -/
theorem Valid.insert_of_reserve (h : arena.Valid) (hroom : arena.reserve granted = some larger)
    (entry : α) : (larger.insert entry).slots.size < larger.capacity ∧
      (larger.insert entry).capacity = larger.capacity := by
  obtain ⟨hvalid, hspace⟩ := h.reserve hroom
  have hcapacity : (larger.insert entry).capacity = larger.capacity := by
    unfold Arena.insert
    split <;> rfl
  exact ⟨hcapacity ▸ (hvalid.insert hspace entry).size_lt_capacity, hcapacity⟩

end Arena

/-! ## edits -/

namespace Table

variable {t t' : Table F p}

/-- A search calls the hash policy only. -/
theorem query_of_mem_inquiries {asked : List (Table F p × K)} {event : Event K KS V VS}
    (hmem : event ∈ inquiries asked) : event.IsQuery := by
  obtain ⟨⟨t, key⟩, -, hevent⟩ := List.mem_flatMap.mp hmem
  rcases List.mem_cons.mp hevent with rfl | hevent
  · trivial
  · obtain ⟨stored, -, rfl⟩ := List.mem_map.mp hevent
    trivial

/-- A journal of which all calls are those of searches asks for no key. -/
theorem not_asksKey_of_mem {journal : List (Event K KS V VS)} {asked : List (Table F p × K)}
    (hjournal : consultations journal = inquiries asked) {event : Event K KS V VS}
    (hmem : event ∈ journal) : ¬event.AsksKey := by
  intro hasks
  have hcalled : event ∈ consultations journal :=
    List.mem_filter.mpr ⟨hmem, decide_eq_true (.inr hasks)⟩
  rw [hjournal] at hcalled
  exact (query_of_mem_inquiries hcalled).not_asksKey hasks

theorem Consults.eq_inquiries {key : K} {journal : List (Event K KS V VS)}
    (h : t.Consults key journal []) : consultations journal = inquiries [(t, key)] := by
  rw [h.calls, inquiries, List.flatMap_singleton, List.append_nil]

theorem slots_unlink (chains : Chains κ KS VS) (link : Link) (id : EntryId) (entry : Entry KS VS) :
    (chains.unlink link id entry).arena.slots.size = chains.arena.slots.size :=
  (Chains.sameRoom_relink _ link entry.next).slots.trans Array.size_setIfInBounds

variable [Scale F]

theorem slots_densityStep (t : Table F p) (supply : Supply ε) :
    (t.densityStep supply).table.arena.slots.size = t.arena.slots.size := by
  unfold densityStep resize
  split
  · dsimp only
    split
    · exact (Chains.sameRoom_rehash t.toChains _).slots
    · rfl
  · rfl

/-- **An edit** that makes no key brings no slot into use, and gives none up. -/
theorem Edit.slots_eq {events : List (Event K KS V VS)} (h : Edit t events t')
    (hevents : ∀ event ∈ events, ¬event.AsksKey) :
    t'.arena.slots.size = t.arena.slots.size := by
  cases h with
  | remark | giveBack => rfl
  | room hroom =>
      obtain ⟨capacity, -, rfl⟩ := Arena.eq_of_reserve_eq_some hroom
      rfl
  | link => exact absurd trivial (hevents _ List.mem_cons_self)
  | value => exact Array.size_modify
  | take | erase => exact slots_unlink ..
  | clear => exact Array.size_replicate
  | step supply => exact t.slots_densityStep supply

theorem Edits.slots_eq {events : List (Event K KS V VS)} (h : Edits t events t')
    (hevents : ∀ event ∈ events, ¬event.AsksKey) :
    t'.arena.slots.size = t.arena.slots.size := by
  induction h with
  | nil => rfl
  | cons hedit _ ih =>
      obtain ⟨hfirst, hrest⟩ := List.forall_mem_append.mp hevents
      exact (ih hrest).trans (hedit.slots_eq hfirst)

/-! ## requests -/

omit [Scale F] in
theorem slots_onSlots (t : Table F p) (id : EntryId) (actions : List (ε × SlotAction V VS)) :
    (t.onSlots id actions).table.arena.slots.size = t.arena.slots.size := by
  induction actions generalizing t with
  | nil => rfl
  | cons first rest ih => exact (ih _).trans Array.size_modify

namespace Sound

omit [Scale F] in
theorem size_le_slots (t : Table F p) : t.size ≤ t.arena.slots.size := Nat.sub_le ..

omit [Scale F] in
theorem slots_linkNew (h : t.Sound) {granted : Bool} {arena : Arena κ (Entry KS VS)}
    (hroom : t.arena.reserve granted = some arena) (key : K) (storedKey : KS)
    (value : Option VS) : (t.linkNew arena key storedKey value).arena.slots.size =
      max t.arena.slots.size (t.size + 1) := by
  have hinserted := (h.wellLinked.valid.reserve hroom).1.slots_insert
    (⟨storedKey, value, p.hasher.hash key, none⟩ : Entry KS VS)
  have hlinked := (Chains.sameRoom_relink
    ⟨arena.insert ⟨storedKey, value, p.hasher.hash key, none⟩, t.heads⟩ (t.probe key).link
    (some arena.nextId)).slots
  obtain ⟨capacity, -, rfl⟩ := Arena.eq_of_reserve_eq_some hroom
  exact hlinked.trans hinserted

/-- A new entry brings a slot into use only if it makes the table larger than ever. -/
theorem slots_insertNew (h : t.Sound) (supply : Supply ε) {key : K} (value : Option V)
    (hfound : (t.probe key).found = none) :
    (t.insertNew supply (t.probe key) key value).table.arena.slots.size =
      max t.arena.slots.size (t.insertNew supply (t.probe key) key value).table.size := by
  have hadmission := admission_insertNew t supply key value
  generalize t.insertNew supply (t.probe key) key value = outcome at hadmission ⊢
  cases hadmission with
  | noRoom => exact (max_eq_left (size_le_slots t)).symm
  | keyRefused hroom | valueRefused hroom =>
      obtain ⟨capacity, -, rfl⟩ := Arena.eq_of_reserve_eq_some hroom
      exact (max_eq_left (size_le_slots t)).symm
  | admitted hroom =>
      simp only [Outcome.table_after, Outcome.table_map, slots_densityStep, size_densityStep]
      rw [h.slots_linkNew hroom, h.size_linkNew hroom hfound]

/-- A request that makes no key brings no slot into use. -/
theorem slots_of_consultations (h : t.Sound) {supply : Supply ε}
    (request : Request F ε K V VS σ ω) {asked : List (Table F p × K)}
    (hjournal : consultations (request.run supply t).journal = inquiries asked) :
    (request.run supply t).table.arena.slots.size =
      max t.arena.slots.size (request.run supply t).table.size := by
  have hslots := (h.edits_run supply request).slots_eq fun _ hmem =>
    not_asksKey_of_mem hjournal hmem
  have hle := size_le_slots (request.run supply t).table
  rw [hslots] at hle ⊢
  exact (max_eq_left hle).symm

theorem slots_insert (h : t.Sound) (supply : Supply ε) (key : K) (value : Option V) :
    (t.insert supply key value).table.arena.slots.size =
      max t.arena.slots.size (t.insert supply key value).table.size := by
  obtain ⟨asked, hasked⟩ := h.consults_insert supply key value
  cases hfound : (t.probe key).found with
  | none =>
      have htable : (t.insert supply key value).table =
          (t.insertNew supply (t.probe key) key value).table := by
        unfold insert
        simp only [hfound, Outcome.table_after, Outcome.table_map]
      rw [htable]
      exact h.slots_insertNew supply value hfound
  | some found =>
      obtain rfl := hasked.found (by rw [hfound]; rfl)
      exact h.slots_of_consultations (.insert key value : Request F ε K V VS Unit Unit)
        hasked.eq_inquiries

theorem slots_openSlotAnd (h : t.Sound) (supply : Supply ε) (key : K)
    (actions : List (ε × SlotAction V VS)) :
    (t.openSlotAnd supply key actions).table.arena.slots.size =
      max t.arena.slots.size (t.openSlotAnd supply key actions).table.size := by
  obtain ⟨asked, hasked⟩ := h.consults_openSlotAnd supply key actions
  cases hfound : (t.probe key).found with
  | none =>
      have hopen : (t.openSlot supply key).table =
          (t.insertNew supply (t.probe key) key none).table := by
        rw [openSlot_eq]
        simp only [hfound, Outcome.table_after]
      have hnew := h.slots_insertNew supply none hfound
      rw [← hopen] at hnew
      unfold openSlotAnd
      dsimp only
      split
      · exact hnew
      · simp only [Outcome.table_after, Outcome.table_map, slots_onSlots, size_onSlots]
        exact hnew
  | some found =>
      obtain rfl := hasked.found (by rw [hfound]; rfl)
      exact h.slots_of_consultations (.openSlot key actions : Request F ε K V VS Unit Unit)
        hasked.eq_inquiries

/-- **A request** leaves as many slots as there were, or as there are entries now. -/
theorem slots_run (h : t.Sound) (supply : Supply ε) (request : Request F ε K V VS σ ω) :
    (request.run supply t).table.arena.slots.size =
      max t.arena.slots.size (request.run supply t).table.size := by
  cases request with
  | insert key value => exact h.slots_insert supply key value
  | openSlot key actions => exact h.slots_openSlotAnd supply key actions
  | contains key | lookUp key => exact (max_eq_left (size_le_slots t)).symm
  | take key => exact h.slots_of_consultations (.take key) (h.consults_take supply key).eq_inquiries
  | erase key =>
      exact h.slots_of_consultations (.erase key) (h.consults_erase supply key).eq_inquiries
  | clear =>
      have hjournal : consultations t.clear.journal = inquiries ([] : List (Table F p × K)) :=
        t.consultations_clear
      exact h.slots_of_consultations .clear hjournal
  | densityStep =>
      have hjournal : consultations (t.densityStep supply).journal =
          inquiries ([] : List (Table F p × K)) := t.consultations_densityStep supply
      exact h.slots_of_consultations .densityStep hjournal
  | walk memory visitor =>
      exact h.slots_of_consultations (.walk memory visitor)
        (h.consultations_walk supply memory visitor)

end Sound

/-! ## runs -/

/-- A table that a run of requests ends with, and the largest number of entries that
it has had after a request. -/
inductive Peaks : Table F p → Nat → Prop where
  | made {t : Table F p} {supply : Supply ε} {band : DensityBand F} :
    withBand supply band = .ok t → Peaks t t.size
  | request {t : Table F p} {peak : Nat} {σ ω : Type} (supply : Supply ε)
    (request : Request F ε K V VS σ ω) : Peaks t peak →
      Peaks (request.run supply t).table (max peak (request.run supply t).table.size)

variable {peak : Nat}

theorem Peaks.sound (h : t.Peaks peak) : t.Sound := by
  induction h with
  | made hmade =>
      rw [eq_empty_of_withBand hmade]
      exact .empty _
  | request supply request _ ih => exact ih.run supply request

/-- **There are as many slots as there were entries at the peak.** -/
theorem Peaks.slots_eq (h : t.Peaks peak) : t.arena.slots.size = peak := by
  induction h with
  | made hmade =>
      rw [eq_empty_of_withBand hmade, size_empty]
      rfl
  | request supply request hpeaks ih => rw [hpeaks.sound.slots_run, ih]

/-! ## room -/

/-- One more entry finds a slot, whether or not the arena may grow. -/
def Spares (t : Table F p) : Prop := ∀ granted, t.arena.reserve granted = some t.arena

/-- A call that fails for want of room: before it asks for a key. -/
def FailsForRoom {α : Type} (outcome : Outcome F p (Except Failure α)) : Prop :=
  outcome.answer = .error .storage ∧ ∀ event ∈ outcome.journal, ¬event.AsksKey

/-- A request that makes no entry: it is not about making one, or the key has one. -/
def MakesNone (t : Table F p) : Request F ε K V VS σ ω → Prop
  | .insert key _ | .openSlot key _ => (t.probe key).found.isSome = true
  | .contains _ | .lookUp _ | .take _ | .erase _ | .clear | .densityStep | .walk _ _ => True

section Failing

variable {supply : Supply ε} {key : K} {value : Option V}

theorem Admission.failsForRoom_iff {outcome : Outcome F p (Except Failure EntryId)}
    (h : Admission t supply key value outcome) : FailsForRoom outcome ↔ t.NoRoom supply := by
  cases h with
  | noRoom hnone => exact iff_of_true ⟨rfl, by simp⟩ (noRoom_iff.mpr hnone)
  | keyRefused hroom =>
      refine iff_of_false (fun hfails => ?_) (not_noRoom hroom)
      exact hfails.2 (.key (.denied key)) (by simp) trivial
  | @valueRefused arena storedKey _ _ hroom =>
      refine iff_of_false (fun hfails => ?_) (not_noRoom hroom)
      exact hfails.2 (.key (.acquired storedKey)) (by simp) trivial
  | admitted hroom => exact iff_of_false (fun hfails => by simpa using hfails.1) (not_noRoom hroom)

omit [Scale F] in
/-- A search before makes no difference. -/
theorem failsForRoom_after {α : Type} (outcome : Outcome F p (Except Failure α)) (key : K) :
    FailsForRoom (outcome.after (t.probe key).calls) ↔ FailsForRoom outcome := by
  have hsearch (event : Event K KS V VS) (hmem : event ∈ (t.probe key).calls) :
      ¬event.AsksKey := (query_of_mem_probe hmem).not_asksKey
  simp only [FailsForRoom, Outcome.answer_after, Outcome.journal_after, List.forall_mem_append]
  exact ⟨fun ⟨hfails, _, hrest⟩ => ⟨hfails, hrest⟩, fun ⟨hfails, hrest⟩ => ⟨hfails, hsearch, hrest⟩⟩

theorem failsForRoom_insert_iff (hfound : (t.probe key).found = none) :
    FailsForRoom (t.insert supply key value) ↔ t.NoRoom supply := by
  rw [← (admission_insertNew t supply key value).failsForRoom_iff]
  unfold insert
  simp only [hfound]
  rw [failsForRoom_after, FailsForRoom, FailsForRoom]
  cases hnew : (t.insertNew supply (t.probe key) key value).answer <;> simp [hnew, Except.map]

theorem failsForRoom_openSlot_iff (hfound : (t.probe key).found = none) :
    FailsForRoom (t.openSlot supply key) ↔ t.NoRoom supply := by
  rw [← (admission_insertNew t supply key none).failsForRoom_iff]
  rw [openSlot_eq]
  simp only [hfound]
  exact failsForRoom_after _ key

/-- What is done with the slot afterwards makes no difference. -/
theorem failsForRoom_openSlotAnd_iff (hfound : (t.probe key).found = none)
    (actions : List (ε × SlotAction V VS)) :
    FailsForRoom (t.openSlotAnd supply key actions) ↔ t.NoRoom supply := by
  rw [← failsForRoom_openSlot_iff hfound]
  unfold openSlotAnd FailsForRoom
  dsimp only
  split
  · next why hwhy => simp [hwhy]
  · next id hid => simp [hid]

end Failing

theorem restoreBandWithin_arena (supply : Supply ε) (granted : Bool) (bound : Nat)
    (t : Table F p) : restoreBandWithin { supply with arena := granted } bound t =
      restoreBandWithin supply bound t := by
  induction bound generalizing t with
  | zero => rfl
  | succ bound ih =>
      unfold restoreBandWithin
      simp only [ih]
      rfl

/-- A request that makes no entry does not care whether the arena may grow. -/
theorem run_arena (supply : Supply ε) (granted : Bool) {request : Request F ε K V VS σ ω}
    (hrequest : t.MakesNone request) :
    request.run { supply with arena := granted } t = request.run supply t := by
  cases request with
  | insert key value =>
      obtain ⟨found, hfound⟩ := Option.isSome_iff_exists.mp hrequest
      simp only [Request.run, insert, hfound]
  | openSlot key actions =>
      obtain ⟨found, hfound⟩ := Option.isSome_iff_exists.mp hrequest
      simp only [Request.run, openSlotAnd, openSlot, hfound]
  | contains | lookUp | take | erase | clear | densityStep => rfl
  | walk memory visitor =>
      simp only [Request.run, walk, restoreBand, restoreBandWithin_arena]

namespace Sound

omit [Scale F] in
theorem spares_of_size_lt (h : t.Sound) (hlt : t.size < t.arena.slots.size) : t.Spares :=
  h.wellLinked.valid.reserve_of_size_lt hlt

/-- A request that makes the table smaller leaves a slot to spare. -/
theorem spares_run (h : t.Sound) {supply : Supply ε} (request : Request F ε K V VS σ ω)
    (hlt : (request.run supply t).table.size < t.size) :
    (request.run supply t).table.Spares := by
  have hslots := h.slots_run supply request
  have hle := size_le_slots t
  exact (h.run supply request).spares_of_size_lt (by omega)

theorem size_erase_lt (h : t.Sound) (supply : Supply ε) {key : K}
    (hfound : (t.probe key).found.isSome = true) :
    (t.erase supply key).table.size < t.size := by
  obtain ⟨⟨id, entry⟩, hfound⟩ := Option.isSome_iff_exists.mp hfound
  obtain ⟨hlink, hget⟩ := linked_of_probe_found hfound
  have hsize := h.size_unlink hlink hget
  unfold erase
  simp only [hfound, Outcome.table_after, Outcome.table_map, size_densityStep]
  exact hsize ▸ Nat.lt_succ_self _

/-- A walk that removes an entry makes the table smaller. -/
theorem size_walk_lt (h : t.Sound) (supply : Supply ε) {memory : σ}
    {visitor : Visitor F ε K V VS σ ω} {call : Call KS VS ω}
    (hcall : call ∈ t.calls memory visitor) (hleft : call.left = none) :
    (t.walk supply memory visitor).table.size < t.size := by
  obtain ⟨served, events, notices, hcourse⟩ := h.exists_course supply memory visitor
  let request : Request F ε K V VS σ ω := .walk memory visitor
  have hwalked : (t.walk supply memory visitor).table.Sound := h.run supply request
  have hcalls := hcourse.found.length_le
  have hremains := congrArg List.length hcourse.remains
  have hlost : ((t.calls memory visitor).filterMap Call.remains).length <
      (t.calls memory visitor).length :=
    List.length_filterMap_lt_length_iff_exists.mpr ⟨call, hcall, by rw [Call.remains, hleft]; rfl⟩
  rw [List.length_map] at hcalls
  rw [List.length_append, List.length_drop] at hremains
  rw [← hwalked.wellLinked.length_listing, ← h.wellLinked.length_listing,
    hcourse.final.length_eq]
  omega

end Sound

/-- A walk under way has the slots that it began with. -/
theorem slots_reaches {visitor : Visitor F ε K V VS σ ω} {w w' : Walk F p σ}
    (h : w.Reaches visitor w') (hsound : w.table.Sound) :
    w'.table.arena.slots.size = w.table.arena.slots.size := by
  have hkept := h.keep (P := fun t => t.Sound ∧ t.arena.slots.size = w.table.arena.slots.size)
    (fun {w id entry} _ hmeets ⟨hsound, hslots⟩ => by
      obtain ⟨hlink, hget⟩ := Walk.meets_eq_some_iff.mp hmeets
      have hedits := edits_visit (visitor w.memory) hlink hget
      have hjournal := (visitor w.memory).consultations_run hsound w.link id entry
      exact ⟨hsound.edits hedits,
        (hedits.slots_eq fun _ hmem => not_asksKey_of_mem hjournal hmem).trans hslots⟩)
    ⟨hsound, rfl⟩
  exact hkept.2

/-! ## the peak -/

theorem Peaks.size_le (h : t.Peaks peak) : t.size ≤ peak :=
  h.slots_eq ▸ Sound.size_le_slots t

/-- After a request that makes the table smaller, it is below its peak and has a slot to
spare. -/
theorem Peaks.spares_run (h : t.Peaks peak) {supply : Supply ε}
    (request : Request F ε K V VS σ ω) (hlt : (request.run supply t).table.size < t.size) :
    (request.run supply t).table.size < peak ∧ (request.run supply t).table.Spares :=
  ⟨hlt.trans_le h.size_le, h.sound.spares_run request hlt⟩

/-- The room that a table takes is that of its peak, and a new entry is refused
room only there. -/
structure RoomFollows (t : Table F p) (peak : Nat) : Prop where
  slots : t.arena.slots.size = peak
  size_le : t.size ≤ peak
  /-- No walk changes the room, and none makes the table larger. -/
  walking {σ ω : Type} {memory : σ} {visitor : Visitor F ε K V VS σ ω} {w : Walk F p σ} :
    (Walk.start t memory).Reaches visitor w → w.table.arena.slots.size = peak ∧ w.table.size ≤ peak
  /-- A key that is new is refused room at the peak, if the block is used up and may
  not grow. -/
  insert_fails {supply : Supply ε} {key : K} (value : Option V) :
    (t.probe key).found = none → (FailsForRoom (t.insert supply key value) ↔
      supply.arena = false ∧ t.size = peak ∧ t.arena.slots.size + 1 = t.arena.capacity)
  openSlot_fails {supply : Supply ε} {key : K} (actions : List (ε × SlotAction V VS)) :
    (t.probe key).found = none → (FailsForRoom (t.openSlotAnd supply key actions) ↔
      supply.arena = false ∧ t.size = peak ∧ t.arena.slots.size + 1 = t.arena.capacity)
  /-- Below the peak there is a slot to spare. -/
  spares : t.size < peak → t.Spares
  /-- That is so after every removal. -/
  erase {supply : Supply ε} {key : K} : (t.probe key).found.isSome = true →
    (t.erase supply key).table.size < peak ∧ (t.erase supply key).table.Spares
  take {supply : Supply ε} {key : K} : (t.probe key).found.isSome = true →
    (t.take supply key).table.size < peak ∧ (t.take supply key).table.Spares
  clear : t.size ≠ 0 → t.clear.table.size < peak ∧ t.clear.table.Spares
  walk {supply : Supply ε} {σ ω : Type} {memory : σ} {visitor : Visitor F ε K V VS σ ω}
    {call : Call KS VS ω} : call ∈ t.calls memory visitor → call.left = none →
      (t.walk supply memory visitor).table.size < peak ∧
        (t.walk supply memory visitor).table.Spares
  /-- What makes no entry is never refused room. -/
  unrefused {supply : Supply ε} {σ ω : Type} {request : Request F ε K V VS σ ω}
    (granted : Bool) : t.MakesNone request →
      request.run { supply with arena := granted } t = request.run supply t
  /-- Once there is room, an entry is put in without storage. -/
  insert_fits {granted : Bool} {arena : Arena κ (Entry KS VS)} (entry : Entry KS VS) :
    t.arena.reserve granted = some arena → (arena.insert entry).slots.size < arena.capacity ∧
      (arena.insert entry).capacity = arena.capacity

/-- **Room follows the peak** in every run of requests, whatever fails in it and however
the arena keeps its slots. -/
theorem roomFollows_of_peaks (h : t.Peaks peak) : t.RoomFollows peak := by
  have hsound := h.sound
  have hslots := h.slots_eq
  have hnoRoom (supply : Supply ε) : t.NoRoom supply ↔ supply.arena = false ∧ t.size = peak ∧
      t.arena.slots.size + 1 = t.arena.capacity := by
    rw [NoRoom, hsound.wellLinked.valid.isFull_iff_size, ← hslots, and_comm]
    rfl
  refine ⟨hslots, h.size_le, fun hreaches => ?_, fun value hfound => ?_, fun actions hfound => ?_,
    fun hlt => hsound.spares_of_size_lt (hslots.symm ▸ hlt), fun {supply key} hfound => ?_,
    fun {supply key} hfound => ?_, fun hsize => ?_,
    fun {supply _ _ memory visitor call} hcall hleft => ?_, fun granted => run_arena _ granted,
    fun entry hroom => hsound.wellLinked.valid.insert_of_reserve hroom entry⟩
  · have hwalked := (slots_reaches hreaches hsound).trans hslots
    exact ⟨hwalked, hwalked ▸ Sound.size_le_slots _⟩
  · rw [failsForRoom_insert_iff hfound, hnoRoom]
  · rw [failsForRoom_openSlotAnd_iff hfound, hnoRoom]
  · have hlt := hsound.size_erase_lt supply hfound
    exact h.spares_run (.erase key : Request F ε K V VS Unit Unit) hlt
  · have hlt := hsound.size_erase_lt supply hfound
    rw [← table_take] at hlt
    exact h.spares_run (.take key : Request F ε K V VS Unit Unit) hlt
  · have hcleared : t.clear.table.arena.slots.size = t.arena.slots.size := Array.size_replicate
    have hlt : t.clear.table.size < t.size := by
      rw [hsound.size_clear]
      exact Nat.pos_of_ne_zero hsize
    have hle := Sound.size_le_slots t
    exact ⟨hlt.trans_le h.size_le, hsound.clear.spares_of_size_lt (by omega)⟩
  · exact h.spares_run (.walk memory visitor) (hsound.size_walk_lt supply hcall hleft)

/-- The sample without one of its two entries: its peak is 2 still, and there is a slot
to spare. -/
theorem roomFollows_erased :
    (sample.erase plenty 1).table.size = 1 ∧ (sample.erase plenty 1).table.Peaks 2 ∧
      (sample.erase plenty 1).table.RoomFollows 2 := by
  have hmade : (empty .default : Table Rat oneChain).Peaks 0 :=
    .made (show withBand plenty .default = .ok _ from rfl)
  have hfirst := hmade.request (σ := Unit) (ω := Unit) plenty (.insert 1 (some 10))
  have hsecond := hfirst.request (σ := Unit) (ω := Unit) plenty (.insert 2 none)
  have hthird := hsecond.request (σ := Unit) (ω := Unit) plenty (.erase 1)
  have hpeaks : (sample.erase plenty 1).table.Peaks 2 := by
    refine Eq.mp ?_ hthird
    congr 1
    decide +kernel
  exact ⟨by decide +kernel, hpeaks, roomFollows_of_peaks hpeaks⟩

end Table

end ChainedTable
