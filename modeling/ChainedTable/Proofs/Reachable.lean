import ChainedTable.Proofs.Edits

/-!
# ChainedTable.Proofs.Reachable

Tables as runs of operations make them.

A `History` is a run of requests on a new table, with the journal of the whole
run; `Reachable` forgets the journal.  A table is also seen while a walk goes
over it, between two calls of the visitor: `Seen` adds these states.

Every such table is `Sound`: its chains partition its entries, and its bucket
array has the size of its level.  The invariant is proved of edits
(`Sound.edit`), and operations are made of edits.
-/

namespace ChainedTable

variable {F ε K KS V VS σ ω : Type} {κ : Keeper} {p : Policies ε K KS V VS κ}

/-! ## the link that holds an entry -/

/-- A link that holds an entry is the one behind the entries before it. -/
theorem Chains.Spells.linked_eq_some {chains : Chains κ KS VS} {lists : Nat → List EntryId}
    (h : chains.Spells lists) {link : Link} {id : EntryId} (hlink : chains.linked link = some id) :
    ∃ bucket front rest, bucket < chains.heads.size ∧ link = .behind bucket front ∧
      lists bucket = front ++ id :: rest := by
  cases link with
  | head bucket =>
      have hlt : bucket < chains.heads.size := by
        by_contra hge
        simp [linked, Array.getElem?_eq_none (Nat.le_of_not_lt hge)] at hlink
      have hhead := (h.leads hlt).source_eq
      rw [hlink] at hhead
      obtain ⟨rest, hrest⟩ := List.head?_eq_some_iff.mp hhead.symm
      exact ⟨bucket, [], rest, hlt, rfl, hrest⟩
  | after other =>
      obtain ⟨entry, hget, hnext⟩ := Option.bind_eq_some_iff.mp hlink
      have hlt := h.bucketOf_lt entry.hash
      obtain ⟨front, rest, hlist⟩ := List.append_of_mem (h.listed (holding?_of_get? hget))
      have hleads := h.leads hlt
      change lists (chains.bucketOf entry.hash) = _ at hlist
      rw [hlist, leads_append] at hleads
      obtain ⟨_, _, _, entry', hget', hrest⟩ := hleads
      rw [hget, Option.some.injEq] at hget'
      subst hget'
      have hhead := hrest.source_eq
      rw [hnext] at hhead
      obtain ⟨rest', rfl⟩ := List.head?_eq_some_iff.mp hhead.symm
      exact ⟨_, front ++ [other], rest', hlt, by simp, by simpa using hlist⟩

namespace Table

/-- The chains partition the entries, and the bucket array has the size of the
level. -/
structure Sound (t : Table F p) : Prop where
  wellLinked : t.WellLinked
  buckets : t.heads.size = t.level.buckets

/-! ## what edits keep -/

namespace Sound

variable {t t' : Table F p}

theorem empty (band : DensityBand F) : (Table.empty band : Table F p).Sound :=
  ⟨(Chains.spells_empty Level.bottom.buckets_pos).wellLinked, buckets_empty band⟩

theorem reserve (h : t.Sound) {granted : Bool} {arena : Arena κ (Entry KS VS)}
    (hroom : t.arena.reserve granted = some arena) : ({ t with arena } : Table F p).Sound :=
  ⟨(h.wellLinked.reserve hroom).wellLinked, h.buckets⟩

/-- A new entry is at the end of its chain. -/
theorem spells_linkNew (h : t.Sound) {granted : Bool} {arena : Arena κ (Entry KS VS)}
    (hroom : t.arena.reserve granted = some arena) {key : K}
    (hfound : (t.probe key).found = none) (storedKey : KS) (value : Option VS) :
    (t.linkNew arena key storedKey value).Spells (Function.update t.chain (t.home key)
      (t.chain (t.home key) ++ [t.arena.nextId])) := by
  have hspells := (h.wellLinked.reserve hroom).insertAt (p.hasher.hash key) storedKey value
    (h.wellLinked.valid.reserve hroom).2 rfl
  rw [← Chains.nextId_reserve hroom, linkNew, (probe_not_found h.wellLinked hfound).1]
  exact hspells

theorem linkNew (h : t.Sound) {granted : Bool} {arena : Arena κ (Entry KS VS)}
    (hroom : t.arena.reserve granted = some arena) {key : K}
    (hfound : (t.probe key).found = none) (storedKey : KS) (value : Option VS) :
    (t.linkNew arena key storedKey value).Sound :=
  ⟨(h.spells_linkNew hroom hfound storedKey value).wellLinked,
    (Chains.size_heads_insertAt ..).trans h.buckets⟩

theorem setValue (h : t.Sound) (id : EntryId) (value : Option VS) :
    ({ t with toChains := t.toChains.setValue id value } : Table F p).Sound :=
  ⟨(h.wellLinked.setValue id value).wellLinked, h.buckets⟩

/-- An entry that leaves is cut out of its chain. -/
theorem spells_unlink (h : t.Sound) {link : Link} {id : EntryId} {entry : Entry KS VS}
    (hlink : t.linked link = some id) (hget : t.arena.get? id = some entry) :
    ∃ bucket front rest, bucket < t.heads.size ∧ link = .behind bucket front ∧
      t.chain bucket = front ++ id :: rest ∧
      (t.toChains.unlink link id entry).Spells
        (Function.update t.chain bucket (front ++ rest)) := by
  obtain ⟨bucket, front, rest, hlt, rfl, hlist⟩ := h.wellLinked.linked_eq_some hlink
  exact ⟨bucket, front, rest, hlt, rfl, hlist, h.wellLinked.unlink hlt hlist hget⟩

theorem unlink (h : t.Sound) {link : Link} {id : EntryId} {entry : Entry KS VS}
    (hlink : t.linked link = some id) (hget : t.arena.get? id = some entry) :
    ({ t with toChains := t.toChains.unlink link id entry } : Table F p).Sound := by
  obtain ⟨_, _, _, _, _, _, hspells⟩ := h.spells_unlink hlink hget
  exact ⟨hspells.wellLinked, (Chains.size_heads_unlink _).trans h.buckets⟩

theorem clear (h : t.Sound) : t.clear.table.Sound :=
  ⟨h.wellLinked.clear.wellLinked, by simpa [Table.clear, Chains.clear] using h.buckets⟩

theorem resize (h : t.Sound) (supply : Supply ε) (target : Level) :
    (t.resize supply target).table.Sound := by
  simp only [Table.resize]
  split
  · obtain ⟨hspells, hsize, -⟩ := h.wellLinked.rehash target.buckets_pos
    exact ⟨hspells.wellLinked, hsize⟩
  · exact ⟨h.wellLinked, h.buckets⟩

theorem densityStep [Scale F] (h : t.Sound) (supply : Supply ε) :
    (t.densityStep supply).table.Sound := by
  unfold Table.densityStep
  split
  · exact h.resize supply _
  · exact ⟨h.wellLinked, h.buckets⟩

/-- **An edit of a sound table** leaves it sound. -/
theorem edit [Scale F] {events : List (Event K KS V VS)} (hedit : Edit t events t')
    (h : t.Sound) : t'.Sound := by
  cases hedit with
  | remark => exact h
  | room hroom => exact h.reserve hroom
  | giveBack => exact h
  | link key storedKey value hfound hroom => exact h.linkNew hroom hfound storedKey value
  | value => exact h.setValue _ _
  | take hlink hget => exact h.unlink hlink hget
  | erase hlink hget => exact h.unlink hlink hget
  | clear => exact h.clear
  | step supply => exact h.densityStep supply

theorem edits [Scale F] {events : List (Event K KS V VS)} (hedits : Edits t events t')
    (h : t.Sound) : t'.Sound :=
  hedits.keep edit h

/-! ## what entries hold -/

/-- A resize moves entries and changes none. -/
theorem holding?_resize (h : t.Sound) (supply : Supply ε) (target : Level) (id : EntryId) :
    (t.resize supply target).table.holding? id = t.holding? id := by
  simp only [Table.resize]
  split
  · exact (h.wellLinked.rehash target.buckets_pos).2.2 id
  · rfl

theorem holding?_densityStep [Scale F] (h : t.Sound) (supply : Supply ε) (id : EntryId) :
    (t.densityStep supply).table.holding? id = t.holding? id := by
  unfold Table.densityStep
  split
  · exact h.holding?_resize supply _ id
  · rfl

/-- The next id is not that of an entry. -/
theorem holding?_nextId (h : t.Sound) : t.holding? t.arena.nextId = none := by
  rw [Chains.holding?, h.wellLinked.valid.get?_nextId]
  rfl

theorem holding?_linkNew (h : t.Sound) {granted : Bool} {arena : Arena κ (Entry KS VS)}
    (hroom : t.arena.reserve granted = some arena) (key : K) (storedKey : KS)
    (value : Option VS) (id : EntryId) :
    (t.linkNew arena key storedKey value).holding? id =
      if id = t.arena.nextId then some ⟨storedKey, value, p.hasher.hash key⟩
      else t.holding? id := by
  have hreserved : ({ t.toChains with arena } : Chains κ KS VS).holding? id = t.holding? id :=
    Chains.holding?_congr (Arena.get?_reserve hroom id)
  rw [← Chains.nextId_reserve hroom, ← hreserved]
  exact Chains.holding?_insertAt _ _ _ (h.wellLinked.valid.reserve hroom).1 _ id

/-- The entry that `openSlot` answers lives. -/
theorem live_openSlot [Scale F] (h : t.Sound) {supply : Supply ε} {key : K} {id : EntryId}
    (hid : (t.openSlot supply key).answer = .ok id) :
    ∃ entry, (t.openSlot supply key).table.arena.get? id = some entry := by
  rw [openSlot_eq] at hid ⊢
  dsimp only at hid ⊢
  split at hid
  · next id' entry hfound =>
      obtain rfl := Except.ok.inj hid
      exact ⟨_, get?_setValue (linked_of_probe_found hfound).2 none⟩
  · next hfound =>
      have hadmission := admission_insertNew t supply key none
      simp only [Outcome.answer_after, Outcome.table_after] at hid ⊢
      generalize t.insertNew supply (t.probe key) key none = outcome at hadmission hid ⊢
      cases hadmission with
      | noRoom => simp at hid
      | keyRefused => simp at hid
      | valueRefused => simp at hid
      | @admitted arena storedKey storedValue hroom hkey hvalue =>
          obtain rfl : arena.nextId = id := by simpa using hid
          have hlinked := h.linkNew hroom hfound storedKey storedValue
          have hheld := hlinked.holding?_densityStep supply arena.nextId
          rw [h.holding?_linkNew hroom, Chains.nextId_reserve hroom, if_pos rfl,
            Chains.holding?_eq_some_iff] at hheld
          obtain ⟨entry, hget, -⟩ := hheld
          rw [← Chains.nextId_reserve hroom] at hget
          exact ⟨entry, hget⟩

/-! ## requests -/

theorem edits_openSlotAnd [Scale F] (h : t.Sound) (supply : Supply ε) (key : K)
    (actions : List (ε × SlotAction V VS)) :
    Edits t (t.openSlotAnd supply key actions).journal
      (t.openSlotAnd supply key actions).table := by
  have hopen := edits_openSlot t supply key
  unfold openSlotAnd
  dsimp only
  split
  · exact hopen
  · next id hid =>
      obtain ⟨entry, hget⟩ := h.live_openSlot hid
      exact hopen.append (edits_onSlots hget actions)

/-- **A request is made of edits.** -/
theorem edits_run [Scale F] (h : t.Sound) (supply : Supply ε)
    (request : Request F ε K V VS σ ω) :
    Edits t (request.run supply t).journal (request.run supply t).table := by
  cases request with
  | insert key value => exact edits_insert t supply key value
  | openSlot key actions => exact h.edits_openSlotAnd supply key actions
  | contains key => exact edits_probe t key
  | lookUp key => exact edits_probe t key
  | take key => exact edits_take t supply key
  | erase key => exact edits_erase t supply key
  | clear => exact .of_edit .clear
  | densityStep => exact edits_densityStep t supply
  | walk memory visitor => exact edits_walk t supply memory visitor

theorem run [Scale F] (h : t.Sound) (supply : Supply ε) (request : Request F ε K V VS σ ω) :
    (request.run supply t).table.Sound :=
  h.edits (h.edits_run supply request)

end Sound

/-! ## runs -/

/-- A run of requests on a new table: the table that it ends with, and what the
run wrote to the journal. -/
inductive History [Scale F] : Table F p → List (Event K KS V VS) → Prop where
  | made {t : Table F p} {supply : Supply ε} {band : DensityBand F} :
    Table.withBand supply band = .ok t → History t []
  | request {t : Table F p} {journal : List (Event K KS V VS)} {σ ω : Type} (supply : Supply ε)
    (request : Request F ε K V VS σ ω) : History t journal →
      History (request.run supply t).table (journal ++ (request.run supply t).journal)

/-- A table that some run of requests ends with. -/
def Reachable [Scale F] (t : Table F p) : Prop := ∃ journal, History t journal

theorem eq_empty_of_withBand {supply : Supply ε} {band : DensityBand F} {t : Table F p}
    (h : withBand supply band = .ok t) : t = empty band := by
  unfold withBand at h
  split at h
  · exact (Except.ok.inj h).symm
  · contradiction

/-- **Every run leaves a sound table.** -/
theorem History.sound [Scale F] {t : Table F p} {journal : List (Event K KS V VS)}
    (h : History t journal) : t.Sound := by
  induction h with
  | made hmade =>
      rw [eq_empty_of_withBand hmade]
      exact .empty _
  | request supply request _ ih => exact ih.run supply request

theorem reachable_of_withBand [Scale F] {supply : Supply ε} {band : DensityBand F}
    {t : Table F p} (h : withBand supply band = .ok t) : t.Reachable :=
  ⟨[], .made h⟩

theorem Reachable.runAll [Scale F] {t : Table F p} (h : t.Reachable)
    (requests : List (Supply ε × Request F ε K V VS σ ω)) :
    (t.runAll requests).table.Reachable := by
  induction requests generalizing t with
  | nil => exact h
  | cons first rest ih =>
      obtain ⟨journal, hhistory⟩ := h
      exact ih ⟨_, hhistory.request first.1 first.2⟩

/-- Numbers as keys and values, with one chain for all keys. -/
def oneChain : Policies Unit Nat Nat Nat Nat where
  hasher := .digesting fun _ => 0
  keys := .inline
  values := .inline

/-- Numbers as keys and values, each key its own hash. -/
def spread : Policies Unit Nat Nat Nat Nat where
  hasher := .digesting UInt64.ofNat
  keys := .inline
  values := .inline

/-- Surroundings that grant everything. -/
def plenty : Supply Unit where
  buckets _ := true
  arena := true
  copies := ()

/-- A small table: two keys on one chain, the second mapped to no value. -/
def sample : Table Rat oneChain :=
  let requests : List (Supply Unit × Request Rat Unit Nat Nat Nat Unit Unit) :=
    [(plenty, .insert 1 (some 10)), (plenty, .insert 2 none)]
  ((Table.empty .default).runAll requests).table

theorem reachable_sample : sample.Reachable :=
  Reachable.runAll (reachable_of_withBand (show withBand plenty .default = .ok _ from rfl)) _

theorem Reachable.sound [Scale F] {t : Table F p} (h : t.Reachable) : t.Sound :=
  h.elim fun _ => History.sound

end Table

/-- A state of a walk that goes on: some number of steps were taken, and none of
them ended it. -/
inductive Walk.Reaches [Scale F] (visitor : Visitor F ε K V VS σ ω) (w : Walk F p σ) :
    Walk F p σ → Prop where
  | start : Reaches visitor w w
  | step {w' w'' : Walk F p σ} : Reaches visitor w w' → w'.step visitor = (w'', none) →
    Reaches visitor w w''

theorem Walk.Reaches.goes [Scale F] {visitor : Visitor F ε K V VS σ ω} {w w' : Walk F p σ}
    (h : w.Reaches visitor w') : w.Goes w' := by
  induction h with
  | start => exact .refl w
  | @step w' w'' _ hstep ih =>
      have hgoes := goes_step visitor w'
      rw [hstep] at hgoes
      exact ih.trans hgoes

/-- A table as it can be seen: after an operation, or between two calls of the
visitor of a walk. -/
inductive Table.Seen [Scale F] : Table F p → Prop where
  | after {t : Table F p} : t.Reachable → Seen t
  | during {t : Table F p} {σ ω : Type} {visitor : Visitor F ε K V VS σ ω} {memory : σ}
    {w : Walk F p σ} : t.Reachable → (Walk.start t memory).Reaches visitor w → Seen w.table

theorem Table.Seen.sound [Scale F] {t : Table F p} (h : t.Seen) : t.Sound := by
  cases h with
  | after hreachable => exact hreachable.sound
  | during hreachable hreaches =>
      obtain ⟨events, hedits, -⟩ := hreaches.goes
      exact hreachable.sound.edits hedits

end ChainedTable
