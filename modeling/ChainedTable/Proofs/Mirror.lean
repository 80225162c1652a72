import ChainedTable.Proofs.Views
import ChainedTable.Request

/-!
# ChainedTable.Proofs.Mirror

Tables that cannot be told apart.

Two tables may store their keys and values in two ways, and order keys in two
ways.  As long as all that is stored looks the same to a caller, and the same keys
are equal, the one does what the other does (`Table.Mirrors`): an operation finds
its way by hashes, by views and by whether a comparison says equal, and by nothing
else.  Here this is proved of each operation for keys.
-/

namespace ChainedTable

variable {F ε ε' K KS KS' V VS VS' α α' β β' : Type} {κ : Keeper}

/-! ## policies -/

/-- Every item can be had, and looks like what it was made from. -/
def StoragePolicy.Transparent {View Stored : Type} (policy : StoragePolicy ε View Stored) : Prop :=
  ∀ copies source, ∃ stored, policy.acquire copies source = .ok stored ∧
    policy.view stored = source

/-- The same hashes, and the same keys are equal.  Of other keys either may be the
lesser. -/
structure HashPolicy.Agrees (hasher hasher' : HashPolicy K) : Prop where
  hash_eq (key : K) : hasher.hash key = hasher'.hash key
  compare_iff (a b : K) : hasher.compare a b = .eq ↔ hasher'.compare a b = .eq

namespace Policies

/-- Policies that differ in how they order keys and in what they store. -/
structure Alike (p : Policies ε K KS V VS κ) (p' : Policies ε' K KS' V VS' κ) : Prop where
  hasher : p.hasher.Agrees p'.hasher
  keys : p.keys.Transparent
  keys' : p'.keys.Transparent
  values : p.values.Transparent
  values' : p'.values.Transparent

variable (p : Policies ε K KS V VS κ) (p' : Policies ε' K KS' V VS' κ)

/-- An entry as a caller may see it. -/
def viewEntry : Entry KS VS → Entry K V := Entry.map p.keys.view p.values.view

/-- An event as a caller may see the keys and values in it. -/
def viewEvent : Event K KS V VS → Event K K V V := Event.map p.keys.view p.values.view

/-- Journals that look the same. -/
def SameJournal (journal : List (Event K KS V VS)) (journal' : List (Event K KS' V VS')) : Prop :=
  journal.map p.viewEvent = journal'.map p'.viewEvent

/-- Stored values that look the same, or none on both sides. -/
def SameValue (value : Option VS) (value' : Option VS') : Prop :=
  value.map p.values.view = value'.map p'.values.view

variable {p p'}

theorem SameJournal.append {first rest : List (Event K KS V VS)}
    {first' rest' : List (Event K KS' V VS')} (hfirst : p.SameJournal p' first first')
    (hrest : p.SameJournal p' rest rest') :
    p.SameJournal p' (first ++ rest) (first' ++ rest') := by
  unfold SameJournal at *
  rw [List.map_append, List.map_append, hfirst, hrest]

theorem SameJournal.cons {event : Event K KS V VS} {event' : Event K KS' V VS'}
    {rest : List (Event K KS V VS)} {rest' : List (Event K KS' V VS')}
    (hevent : p.viewEvent event = p'.viewEvent event') (hrest : p.SameJournal p' rest rest') :
    p.SameJournal p' (event :: rest) (event' :: rest') := by
  unfold SameJournal at *
  rw [List.map_cons, List.map_cons, hevent, hrest]

theorem SameValue.cases {value : Option VS} {value' : Option VS'}
    (h : p.SameValue p' value value') :
    (value = none ∧ value' = none) ∨ ∃ stored stored', value = some stored ∧
      value' = some stored' ∧ p.values.view stored = p'.values.view stored' :=
  none_or_some_of_map_eq h

/-- The same happens to values that look the same. -/
theorem sameJournal_eachValue {happens : VS → Handling V VS} {happens' : VS' → Handling V VS'}
    (hsame : ∀ stored stored', p.values.view stored = p'.values.view stored' →
      (happens stored).map p.values.view = (happens' stored').map p'.values.view)
    {value : Option VS} {value' : Option VS'}
    (hvalue : p.SameValue p' value value') :
    p.SameJournal p' (eachValue happens value) (eachValue happens' value') := by
  obtain ⟨rfl, rfl⟩ | ⟨stored, stored', rfl, rfl, hview⟩ := hvalue.cases
  · rfl
  · exact congrArg (fun what => [Event.value what]) (hsame stored stored' hview)

theorem sameJournal_releaseValue {value : Option VS} {value' : Option VS'}
    (hvalue : p.SameValue p' value value') :
    p.SameJournal p' (releaseValue value) (releaseValue value') := by
  refine sameJournal_eachValue ?_ hvalue
  exact fun _ _ hview => congrArg Handling.released hview

/-- A value is acquired, and looks like what it was made from. -/
theorem acquireValue_transparent (hvalues : p.values.Transparent) (copies : ε) (value : Option V) :
    ∃ stored calls, p.acquireValue copies value = (.ok stored, calls) ∧
      stored.map p.values.view = value ∧ calls.map p.viewEvent = eachValue .acquired value := by
  cases value with
  | none => exact ⟨none, [], rfl, rfl, rfl⟩
  | some source =>
      obtain ⟨stored, hstored, rfl⟩ := hvalues copies source
      refine ⟨some stored, [.value (.acquired stored)], ?_, rfl, rfl⟩
      rw [acquireValue, hstored]

end Policies

open Policies

variable {κ : Keeper} {p : Policies ε K KS V VS κ} {p' : Policies ε' K KS' V VS' κ}

/-- Surroundings that grant the same storage. -/
structure Supply.Alike (supply : Supply ε) (supply' : Supply ε') : Prop where
  buckets : supply.buckets = supply'.buckets
  arena : supply.arena = supply'.arena

/-! ## tables -/

/-- Tables that look the same. -/
structure Table.Mirrors (t : Table F p) (t' : Table F p') : Prop where
  chains : t.toChains.map p.keys.view p.values.view = t'.toChains.map p'.keys.view p'.values.view
  level : t.level = t'.level
  band : t.band = t'.band
  lastStep : t.lastStep = t'.lastStep

/-- Outcomes that look the same, with answers that are related. -/
structure Outcome.Mirrors (R : α → α' → Prop) (outcome : Outcome F p α)
    (outcome' : Outcome F p' α') : Prop where
  answer : R outcome.answer outcome'.answer
  table : outcome.table.Mirrors outcome'.table
  journal : p.SameJournal p' outcome.journal outcome'.journal

namespace Outcome.Mirrors

variable {R : α → α' → Prop} {outcome : Outcome F p α} {outcome' : Outcome F p' α'}

theorem after (h : outcome.Mirrors R outcome') {journal : List (Event K KS V VS)}
    {journal' : List (Event K KS' V VS')} (hjournal : p.SameJournal p' journal journal') :
    (outcome.after journal).Mirrors R (outcome'.after journal') :=
  ⟨h.answer, h.table, hjournal.append h.journal⟩

theorem map {S : β → β' → Prop} (h : outcome.Mirrors R outcome') {f : α → β} {f' : α' → β'}
    (hanswer : ∀ a a', R a a' → S (f a) (f' a')) :
    (outcome.map f).Mirrors S (outcome'.map f') :=
  ⟨hanswer _ _ h.answer, h.table, h.journal⟩

end Outcome.Mirrors

namespace Table.Mirrors

variable {t : Table F p} {t' : Table F p'}

theorem refl_empty (band : DensityBand F) :
    (Table.empty band : Table F p).Mirrors (Table.empty band : Table F p') := by
  refine ⟨?_, rfl, rfl, rfl⟩
  simp [Table.empty, Chains.empty, Chains.map, Arena.map, Arena.empty]

theorem size_eq (h : t.Mirrors t') : t.size = t'.size := by
  have hsize := congrArg Chains.size h.chains
  rwa [Chains.size_map, Chains.size_map] at hsize

theorem buckets_eq (h : t.Mirrors t') : t.buckets = t'.buckets :=
  congrArg (fun chains => chains.heads.size) h.chains

theorem slots_eq (h : t.Mirrors t') : t.arena.slots.size = t'.arena.slots.size := by
  have hslots := congrArg (fun chains => chains.arena.slots.size) h.chains
  simpa [Chains.map] using hslots

theorem linked_eq (h : t.Mirrors t') (link : Link) : t.linked link = t'.linked link := by
  have hlinked := congrArg (fun chains => chains.linked link) h.chains
  simpa using hlinked

/-- An id lives in both tables or in none, and names entries that look the same. -/
theorem get?_cases (h : t.Mirrors t') (id : EntryId) :
    (t.arena.get? id = none ∧ t'.arena.get? id = none) ∨
      ∃ entry entry', t.arena.get? id = some entry ∧ t'.arena.get? id = some entry' ∧
        p.viewEntry entry = p'.viewEntry entry' := by
  have hget := congrArg (fun chains => chains.arena.get? id) h.chains
  simp only [Chains.get?_map] at hget
  exact none_or_some_of_map_eq hget

/-- Edits of the chains that look the same. -/
theorem edit (h : t.Mirrors t') {chains : Chains κ KS VS} {chains' : Chains κ KS' VS'}
    (hchains : chains.map p.keys.view p.values.view =
      chains'.map p'.keys.view p'.values.view) :
    ({ t with toChains := chains } : Table F p).Mirrors
      ({ t' with toChains := chains' } : Table F p') :=
  ⟨hchains, h.level, h.band, h.lastStep⟩

theorem setValue (h : t.Mirrors t') (id : EntryId) {value : Option VS} {value' : Option VS'}
    (hvalue : p.SameValue p' value value') :
    ({ t with toChains := t.toChains.setValue id value } : Table F p).Mirrors
      ({ t' with toChains := t'.toChains.setValue id value' } : Table F p') := by
  refine h.edit ?_
  rw [Chains.map_setValue, Chains.map_setValue, h.chains]
  exact congrArg _ hvalue

theorem unlink (h : t.Mirrors t') (link : Link) (id : EntryId) {entry : Entry KS VS}
    {entry' : Entry KS' VS'} (hentry : p.viewEntry entry = p'.viewEntry entry') :
    ({ t with toChains := t.toChains.unlink link id entry } : Table F p).Mirrors
      ({ t' with toChains := t'.toChains.unlink link id entry' } : Table F p') := by
  refine h.edit ?_
  rw [Chains.map_unlink, Chains.map_unlink, h.chains]
  exact congrArg _ hentry

theorem insertAt (h : t.Mirrors t') (link : Link) (hash : UInt64) {key : KS} {key' : KS'}
    (hkey : p.keys.view key = p'.keys.view key') {value : Option VS} {value' : Option VS'}
    (hvalue : p.SameValue p' value value') :
    ({ t with toChains := t.toChains.insertAt link hash key value } : Table F p).Mirrors
      ({ t' with toChains := t'.toChains.insertAt link hash key' value' } : Table F p') := by
  refine h.edit ?_
  rw [Chains.map_insertAt, Chains.map_insertAt, h.chains, hkey]
  exact congrArg _ hvalue

/-- The next entry gets the same id. -/
theorem nextId_eq (h : t.Mirrors t') : t.arena.nextId = t'.arena.nextId := by
  have hnext := congrArg (fun chains => chains.arena.nextId) h.chains
  simpa [Chains.map] using hnext

/-- Both tables have room for one more entry, or neither. -/
theorem reserve_cases (h : t.Mirrors t') (granted : Bool) :
    (t.arena.reserve granted = none ∧ t'.arena.reserve granted = none) ∨
      ∃ arena arena', t.arena.reserve granted = some arena ∧
        t'.arena.reserve granted = some arena' ∧
        ({ t with arena } : Table F p).Mirrors ({ t' with arena := arena' } : Table F p') := by
  have hreserve := congrArg (fun chains => chains.arena.reserve granted) h.chains
  simp only [Chains.map, ← Arena.map_reserve] at hreserve
  refine (none_or_some_of_map_eq hreserve).imp_right ?_
  rintro ⟨arena, arena', hroom, hroom', harena⟩
  have hheads : t.heads = t'.heads := congrArg Chains.heads h.chains
  exact ⟨arena, arena', hroom, hroom', h.edit (congr (congrArg Chains.mk harena) hheads)⟩

/-! ## density steps -/

theorem resize (h : t.Mirrors t') {supply : Supply ε} {supply' : Supply ε'}
    (hsupply : supply.Alike supply') (target : Level) :
    (t.resize supply target).Mirrors Eq (t'.resize supply' target) := by
  have hmoved : (t.toChains.rehash target.buckets).map p.keys.view p.values.view =
      (t'.toChains.rehash target.buckets).map p'.keys.view p'.values.view := by
    rw [Chains.map_rehash, Chains.map_rehash, h.chains]
  have hsize : (t.toChains.rehash target.buckets).size =
      (t'.toChains.rehash target.buckets).size := by
    have hsize := congrArg Chains.size hmoved
    rwa [Chains.size_map, Chains.size_map] at hsize
  unfold Table.resize
  dsimp only
  rw [h.buckets_eq, h.level, hsupply.buckets]
  split
  · refine ⟨rfl, ⟨hmoved, rfl, h.band, rfl⟩, ?_⟩
    exact congrArg (fun size => [Event.noticed (.rehashed size _ _ _)]) hsize
  · exact ⟨rfl, ⟨h.chains, rfl, h.band, rfl⟩, rfl⟩

section Steps

variable [Scale F] {supply : Supply ε} {supply' : Supply ε'}

theorem densityStep (h : t.Mirrors t') (hsupply : supply.Alike supply') :
    (t.densityStep supply).Mirrors Eq (t'.densityStep supply') := by
  unfold Table.densityStep
  rw [h.band, h.level, h.size_eq]
  split
  · exact h.resize hsupply _
  · exact ⟨rfl, ⟨h.chains, rfl, rfl, rfl⟩, rfl⟩

theorem restoreBandWithin (h : t.Mirrors t') (hsupply : supply.Alike supply') (bound : Nat) :
    (restoreBandWithin supply bound t).Mirrors Eq (restoreBandWithin supply' bound t') := by
  induction bound generalizing t t' with
  | zero => exact ⟨h.lastStep, h, rfl⟩
  | succ bound ih =>
      have hstep := h.densityStep hsupply
      unfold Table.restoreBandWithin
      dsimp only
      rw [hstep.answer]
      split
      · exact (ih hstep.table).after hstep.journal
      · exact hstep

theorem restoreBand (h : t.Mirrors t') (hsupply : supply.Alike supply') :
    (t.restoreBand supply).Mirrors Eq (t'.restoreBand supply') := by
  have hwithin := h.restoreBandWithin hsupply levelCount
  unfold Table.restoreBand
  dsimp only
  rw [hwithin.answer, hwithin.table.size_eq]
  split
  · exact ⟨rfl, hwithin.table, hwithin.journal.append rfl⟩
  · exact hwithin

end Steps

end Table.Mirrors

/-! ## lookups -/

/-- Searches that look the same. -/
structure Probe.Mirrors (p : Policies ε K KS V VS κ) (p' : Policies ε' K KS' V VS' κ)
    (probe : Probe K KS V VS) (probe' : Probe K KS' V VS') : Prop where
  hash : probe.hash = probe'.hash
  link : probe.link = probe'.link
  found : probe.found.map (Prod.map id p.viewEntry) = probe'.found.map (Prod.map id p'.viewEntry)
  calls : p.SameJournal p' probe.calls probe'.calls

/-- Both searches find nothing, or entries with the same id that look the same. -/
theorem Probe.Mirrors.found_cases {probe : Probe K KS V VS} {probe' : Probe K KS' V VS'}
    (h : Probe.Mirrors p p' probe probe') :
    (probe.found = none ∧ probe'.found = none) ∨
      ∃ id entry entry', probe.found = some (id, entry) ∧ probe'.found = some (id, entry') ∧
        p.viewEntry entry = p'.viewEntry entry' := by
  refine (none_or_some_of_map_eq h.found).imp_right ?_
  rintro ⟨⟨id, entry⟩, ⟨id', entry'⟩, hfound, hfound', hsame⟩
  obtain ⟨hid, hview⟩ := Prod.mk.inj hsame
  obtain rfl : id = id' := hid
  exact ⟨id, entry, entry', hfound, hfound', hview⟩

namespace Table.Mirrors

variable {t : Table F p} {t' : Table F p'}

theorem seek (h : t.Mirrors t') (halike : p.Alike p') (key : K) (hash : UInt64) (bound : Nat)
    (link : Link) :
    Probe.Mirrors p p' (t.seek key hash bound link) (t'.seek key hash bound link) := by
  induction bound generalizing link with
  | zero => exact ⟨rfl, rfl, rfl, rfl⟩
  | succ bound ih =>
      unfold Table.seek
      rw [h.linked_eq]
      cases t'.linked link with
      | none => exact ⟨rfl, rfl, rfl, rfl⟩
      | some id =>
          dsimp only
          obtain ⟨hget, hget'⟩ | ⟨entry, entry', hget, hget', hview⟩ := h.get?_cases id
          · rw [hget, hget']
            exact ⟨rfl, rfl, rfl, rfl⟩
          · rw [hget, hget']
            have hkey : p.keys.view entry.key = p'.keys.view entry'.key :=
              congrArg Entry.key hview
            have hcompare := halike.hasher.compare_iff (p.keys.view entry.key) key
            rw [hkey] at hcompare
            dsimp only
            rw [hkey]
            by_cases hequal : p'.hasher.compare (p'.keys.view entry'.key) key = .eq
            · rw [if_pos hequal, if_pos (hcompare.mpr hequal)]
              exact ⟨rfl, rfl, congrArg (fun entry => some (id, entry)) hview, rfl⟩
            · rw [if_neg hequal, if_neg fun heq => hequal (hcompare.mp heq)]
              have hrest := ih (.after id)
              exact ⟨hrest.hash, hrest.link, hrest.found, hrest.calls.cons rfl⟩

theorem probe (h : t.Mirrors t') (halike : p.Alike p') (key : K) :
    Probe.Mirrors p p' (t.probe key) (t'.probe key) := by
  have hbucket : t.bucketOf (p.hasher.hash key) = t'.bucketOf (p'.hasher.hash key) := by
    rw [halike.hasher.hash_eq]
    exact congrArg (fun chains : Chains κ K V => chains.bucketOf (p'.hasher.hash key)) h.chains
  have hseek := h.seek halike key (p'.hasher.hash key) t'.arena.slots.size
    (.head (t'.bucketOf (p'.hasher.hash key)))
  unfold Table.probe
  dsimp only
  rw [h.slots_eq, hbucket, halike.hasher.hash_eq]
  exact ⟨hseek.hash, hseek.link, hseek.found, hseek.calls.cons rfl⟩

theorem contains (h : t.Mirrors t') (halike : p.Alike p') (key : K) :
    (t.contains key).Mirrors Eq (t'.contains key) := by
  have hprobe := h.probe halike key
  refine ⟨?_, h, hprobe.calls⟩
  change (t.probe key).found.isSome = (t'.probe key).found.isSome
  obtain ⟨hfound, hfound'⟩ | ⟨id, entry, entry', hfound, hfound', -⟩ := hprobe.found_cases
  · rw [hfound, hfound']
    rfl
  · rw [hfound, hfound']
    rfl

theorem get? (h : t.Mirrors t') (halike : p.Alike p') (key : K) :
    (t.get? key).Mirrors Eq (t'.get? key) := by
  have hprobe := h.probe halike key
  refine ⟨?_, h, hprobe.calls⟩
  change (t.probe key).found.bind _ = (t'.probe key).found.bind _
  obtain ⟨hfound, hfound'⟩ | ⟨id, entry, entry', hfound, hfound', hview⟩ := hprobe.found_cases
  · rw [hfound, hfound']
    rfl
  · rw [hfound, hfound']
    exact congrArg Entry.value hview

/-! ## updates -/

section Updates

variable [Scale F] {supply : Supply ε} {supply' : Supply ε'}

/-- **A new key** gets entries that look the same. -/
theorem insertNew (h : t.Mirrors t') (halike : p.Alike p') (hsupply : supply.Alike supply')
    {probe : Probe K KS V VS} {probe' : Probe K KS' V VS'}
    (hprobe : Probe.Mirrors p p' probe probe') (key : K) (value : Option V) :
    (t.insertNew supply probe key value).Mirrors Eq (t'.insertNew supply' probe' key value) := by
  unfold Table.insertNew
  rw [hsupply.arena]
  obtain ⟨hroom, hroom'⟩ | ⟨arena, arena', hroom, hroom', hlarger⟩ := h.reserve_cases supply'.arena
  · rw [hroom, hroom']
    exact ⟨rfl, h, rfl⟩
  · obtain ⟨storedKey, hkey, hviewKey⟩ := halike.keys supply.copies key
    obtain ⟨storedKey', hkey', hviewKey'⟩ := halike.keys' supply'.copies key
    obtain ⟨stored, calls, hvalue, hview, hcalls⟩ :=
      acquireValue_transparent halike.values supply.copies value
    obtain ⟨stored', calls', hvalue', hview', hcalls'⟩ :=
      acquireValue_transparent halike.values' supply'.copies value
    have hkeys : p.keys.view storedKey = p'.keys.view storedKey' := hviewKey.trans hviewKey'.symm
    have hlinked := hlarger.insertAt probe'.link probe'.hash hkeys (hview.trans hview'.symm)
    have hjournal : p.SameJournal p' (.key (.acquired storedKey) :: calls)
        (.key (.acquired storedKey') :: calls') :=
      .cons (congrArg (fun key => Event.key (.acquired key)) hkeys) (hcalls.trans hcalls'.symm)
    have hnext := hlarger.nextId_eq
    simp only [hroom, hroom', hkey, hkey', hvalue, hvalue', hprobe.link, hprobe.hash]
    exact ((hlinked.densityStep hsupply).map fun _ _ _ => congrArg Except.ok hnext).after hjournal

theorem insert (h : t.Mirrors t') (halike : p.Alike p') (hsupply : supply.Alike supply') (key : K)
    (value : Option V) :
    (t.insert supply key value).Mirrors Eq (t'.insert supply' key value) := by
  have hprobe := h.probe halike key
  unfold Table.insert
  dsimp only
  obtain ⟨hfound, hfound'⟩ | ⟨id, entry, entry', hfound, hfound', hview⟩ := hprobe.found_cases
  · rw [hfound, hfound']
    refine ((h.insertNew halike hsupply hprobe key value).map ?_).after hprobe.calls
    exact fun _ _ heq => congrArg _ heq
  · obtain ⟨stored, calls, hvalue, hstored, hcalls⟩ :=
      acquireValue_transparent halike.values supply.copies value
    obtain ⟨stored', calls', hvalue', hstored', hcalls'⟩ :=
      acquireValue_transparent halike.values' supply'.copies value
    rw [hfound, hfound']
    dsimp only
    rw [hvalue, hvalue']
    refine ⟨rfl, h.setValue id (hstored.trans hstored'.symm), ?_⟩
    exact (hprobe.calls.append (hcalls.trans hcalls'.symm)).append
      (sameJournal_releaseValue (congrArg Entry.value hview))

theorem openSlot (h : t.Mirrors t') (halike : p.Alike p') (hsupply : supply.Alike supply')
    (key : K) : (t.openSlot supply key).Mirrors Eq (t'.openSlot supply' key) := by
  have hprobe := h.probe halike key
  rw [openSlot_eq, openSlot_eq]
  dsimp only
  obtain ⟨hfound, hfound'⟩ | ⟨id, entry, entry', hfound, hfound', hview⟩ := hprobe.found_cases
  · rw [hfound, hfound']
    exact (h.insertNew halike hsupply hprobe key none).after hprobe.calls
  · rw [hfound, hfound']
    refine ⟨rfl, h.setValue id rfl, ?_⟩
    exact hprobe.calls.append (sameJournal_releaseValue (congrArg Entry.value hview))

end Updates

/-! ## removals -/

section Removals

variable {entry : Entry KS VS} {entry' : Entry KS' VS'}

theorem takeAt (h : t.Mirrors t') (link : Link) (id : EntryId)
    (hview : p.viewEntry entry = p'.viewEntry entry') :
    (t.takeAt link id entry).Mirrors (p.SameValue p') (t'.takeAt link id entry') := by
  refine ⟨congrArg Entry.value hview, h.unlink link id hview, ?_⟩
  refine .cons (congrArg (fun entry : Entry K V => Event.key (.released entry.key)) hview) ?_
  refine sameJournal_eachValue ?_ (congrArg Entry.value hview)
  exact fun _ _ hview => congrArg Handling.handedOver hview

theorem eraseAt (h : t.Mirrors t') (link : Link) (id : EntryId)
    (hview : p.viewEntry entry = p'.viewEntry entry') :
    (t.eraseAt link id entry).Mirrors Eq (t'.eraseAt link id entry') := by
  refine ⟨rfl, h.unlink link id hview, ?_⟩
  exact .cons (congrArg (fun entry : Entry K V => Event.key (.released entry.key)) hview)
    (sameJournal_releaseValue (congrArg Entry.value hview))

variable [Scale F] {supply : Supply ε} {supply' : Supply ε'}

theorem take (h : t.Mirrors t') (halike : p.Alike p') (hsupply : supply.Alike supply') (key : K) :
    (t.take supply key).Mirrors (p.SameValue p') (t'.take supply' key) := by
  have hprobe := h.probe halike key
  unfold Table.take
  dsimp only
  obtain ⟨hfound, hfound'⟩ | ⟨id, entry, entry', hfound, hfound', hview⟩ := hprobe.found_cases
  · rw [hfound, hfound']
    exact ⟨rfl, h, hprobe.calls⟩
  · have hremoved := h.takeAt (t'.probe key).link id hview
    rw [hfound, hfound', hprobe.link]
    exact ((hremoved.table.densityStep hsupply).map fun _ _ _ => hremoved.answer).after
      (hprobe.calls.append hremoved.journal)

theorem erase (h : t.Mirrors t') (halike : p.Alike p') (hsupply : supply.Alike supply') (key : K) :
    (t.erase supply key).Mirrors Eq (t'.erase supply' key) := by
  have hprobe := h.probe halike key
  unfold Table.erase
  dsimp only
  obtain ⟨hfound, hfound'⟩ | ⟨id, entry, entry', hfound, hfound', hview⟩ := hprobe.found_cases
  · rw [hfound, hfound']
    exact ⟨rfl, h, hprobe.calls⟩
  · have hremoved := h.eraseAt (t'.probe key).link id hview
    rw [hfound, hfound', hprobe.link]
    exact ((hremoved.table.densityStep hsupply).map fun _ _ _ => rfl).after
      (hprobe.calls.append hremoved.journal)

end Removals

/-- What is released looks like what is stored. -/
theorem map_releases (t : Table F p) : t.releases.map p.viewEvent =
    (t.toChains.map p.keys.view p.values.view).arena.entries.flatMap fun (_, entry) =>
      .key (.released entry.key) :: releaseValue entry.value := by
  have hentry (entry : Entry KS VS) :
      (.key (.released entry.key) :: releaseValue entry.value).map p.viewEvent =
        .key (.released (p.viewEntry entry).key) :: releaseValue (p.viewEntry entry).value := by
    obtain ⟨key, value, hash, next⟩ := entry
    cases value <;> rfl
  simp only [releases, Chains.map, Arena.entries_map, List.map_flatMap,
    List.flatMap_map, hentry]
  rfl

theorem clear (h : t.Mirrors t') : t.clear.Mirrors Eq t'.clear := by
  refine ⟨rfl, h.edit ?_, ?_⟩
  · rw [Chains.map_clear, Chains.map_clear, h.chains]
  · unfold SameJournal Table.clear
    rw [List.map_append, List.map_append, map_releases, map_releases, h.chains, h.size_eq,
      h.buckets_eq]
    rfl

end Table.Mirrors

end ChainedTable
