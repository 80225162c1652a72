import ChainedTable.Proofs.BulkRemoval
import ChainedTable.Proofs.Moments

/-!
# ChainedTable.Proofs.WalkReads

What a visitor reads in the table that it walks over.

Under a walk a table may be outside its density band, with an entry fewer at
every call, and the link at which the walk stands is one of the links that such a
removal has written.  It is a map all the same: the map at the start, with what
the calls have done to it (`KeyMap.afterCalls`).  So whatever is asked at a moment
of a visit is answered as by this map, with the value that the visit itself has
given to its entry so far (`Table.Glimpse`).
-/

namespace ChainedTable

variable {F ε K KS V VS ρ σ ω : Type} {κ : Keeper} {p : Policies ε K KS V VS κ}

/-! ## the map under a walk -/

namespace KeyMap

section

variable {hasher : HashPolicy K} {h : hasher.Lawful} {map : KeyMap VS h}

/-- The class of a key is mapped to a value, or removed. -/
noncomputable def leave (map : KeyMap VS h) (key : K) : Option (Option VS) → KeyMap VS h
  | some value => map.insert (h.classOf key) value
  | none => map.erase (h.classOf key)

theorem insert_eq_self {cls : h.Class} {value : Option VS} (hlookup : map.lookup cls = some value) :
    map.insert cls value = map := by
  refine Finmap.ext_lookup fun other => ?_
  by_cases heq : other = cls
  · rw [heq, Finmap.lookup_insert, hlookup]
  · exact Finmap.lookup_insert_of_ne map heq

/-- What a class was mapped to before is forgotten. -/
theorem leave_insert (key : K) (value : Option VS) (left : Option (Option VS)) :
    leave (map.insert (h.classOf key) value) key left = map.leave key left := by
  cases left with
  | some value' => exact Finmap.insert_insert map
  | none =>
      refine Finmap.ext_lookup fun other => ?_
      by_cases heq : other = h.classOf key
      · rw [heq, leave, leave, Finmap.lookup_erase, Finmap.lookup_erase]
      · rw [leave, leave, Finmap.lookup_erase_ne heq, Finmap.lookup_erase_ne heq,
          Finmap.lookup_insert_of_ne map heq]

end

/-- The map after calls of a visitor: what they removed is gone, and what they left
has the value that it was left with. -/
noncomputable def afterCalls {h : p.hasher.Lawful} (map : KeyMap VS h)
    (calls : List (Call KS VS ω)) : KeyMap VS h :=
  calls.foldl (fun map call => map.leave (p.keys.view call.found.key) call.left) map

end KeyMap

namespace Table

variable {h : p.hasher.Lawful} {t t' : Table F p} {map : KeyMap VS h}

/-- **A visit** does to the map what it does to its entry. -/
theorem Represents.visit [Scale F] (hrep : Represents h t map) (visit : Visit F ε K V VS ρ)
    {link : Link} {id : EntryId} {entry : Entry KS VS} (hlink : t.linked link = some id)
    (hget : t.arena.get? id = some entry) :
    Represents h (visit.run link id t entry).table
      (map.leave (p.keys.view entry.key) (visit.left id t entry)) := by
  induction visit generalizing t map entry with
  | key next ih => exact ih _ hrep hlink hget
  | value next ih => exact ih _ hrep hlink hget
  | slot copies action next ih =>
      have hchanged := hrep.setValue hget rfl (action.run p copies entry.value).value
      have hrest := ih (action.run p copies entry.value).reply hchanged
        ((linked_setValue ..).trans hlink) (get?_setValue hget _)
      rwa [KeyMap.leave_insert] at hrest
  | contains other next ih => exact ih _ hrep hlink hget
  | lookUp other next ih => exact ih _ hrep hlink hget
  | readings next ih => exact ih _ hrep hlink hget
  | leave result =>
      have hlookup := hrep.lookup_eq (Chains.holding?_of_get? hget)
      have hself : map.leave (p.keys.view entry.key) (some entry.value) = map :=
        KeyMap.insert_eq_self hlookup
      rw [← hself] at hrep
      exact hrep
  | erase result => exact hrep.unlink hlink hget rfl
  | take result => exact hrep.unlink hlink hget rfl

/-- Calls of a visitor do to the map what they do to their entries. -/
theorem Represents.served [Scale F] (hrep : Represents h t map)
    {visitor : Visitor F ε K V VS σ ω} {memory memory' : σ} {calls : List (Call KS VS ω)}
    {events : List (Event K KS V VS)}
    (hserved : Served visitor t memory calls t' memory' events) :
    Represents h t' (map.afterCalls calls) := by
  induction hserved generalizing map with
  | nil => exact hrep
  | cons hlink hget hrun _ ih =>
      subst hrun
      exact ih (hrep.visit _ hlink hget)

/-! ## readings -/

/-- Whatever is asked of a table is answered as by a map. -/
structure ReadsAs (h : p.hasher.Lawful) (t : Table F p) (map : KeyMap VS h) : Prop where
  contains (key : K) : (t.contains key).answer = (map.lookup (h.classOf key)).isSome
  get? (key : K) :
    (t.get? key).answer = (map.lookup (h.classOf key)).join.map p.values.view
  size : t.size = map.keys.card

theorem Represents.readsAs (hrep : Represents h t map) : ReadsAs h t map where
  contains key := by rw [answer_contains, hrep.mapped_eq]
  get? key := by rw [answer_get?, hrep.mapped_eq]
  size := hrep.size_eq

/-- What a visitor sees of a table at a moment of its visit to an entry. -/
structure Glimpse (h : p.hasher.Lawful) (before : Table F p) (map : KeyMap VS h) (id : EntryId)
    (entry : Entry KS VS) (t : Table F p) : Prop where
  reads : ReadsAs h t map
  /-- The entry is in the table, and the table finds it by its own key. -/
  live : t.arena.get? id = some entry
  present : (t.contains (p.keys.view entry.key)).answer = true
  value : (t.get? (p.keys.view entry.key)).answer = entry.value.map p.values.view
  /-- There has been no density step since before the walk. -/
  level : t.level = before.level
  buckets : t.buckets = before.buckets
  lastStep : t.lastStep = before.lastStep

end Table

/-- A walk takes no density step while it is under way. -/
theorem Walk.Reaches.trims [Scale F] {visitor : Visitor F ε K V VS σ ω} {w w' : Walk F p σ}
    (h : w.Reaches visitor w') : w.table.Trims w'.table := by
  induction h with
  | start => exact .refl _
  | @step w' w'' _ hstep ih =>
      have htrims := trims_step visitor w'
      rw [hstep] at htrims
      exact ih.trans htrims

namespace Table

variable {h : p.hasher.Lawful} {before t t' : Table F p} {map : KeyMap VS h}

/-- A moment of a visit to an entry of a table that has a map. -/
theorem Represents.glimpse [Scale F] (hrep : Represents h t map) (hbefore : before.Sound)
    (htrims : before.Trims t) {id : EntryId} {entry entry' : Entry KS VS}
    {visit rest : Visit F ε K V VS ρ} {actions : List (ε × SlotAction V VS)}
    (hget : t.arena.get? id = some entry)
    (hreaches : visit.Reaches id t entry actions rest t' entry') :
    Glimpse h before (map.insert (h.classOf (p.keys.view entry.key))
      (SlotAction.replies p actions entry.value).2) id entry' t' := by
  have hlive := hreaches.get?_eq hget
  have htable := hreaches.table_eq hget
  have hchanged := hrep.setValue hget rfl entry'.value
  rw [← htable] at hchanged
  have hlookup := Finmap.lookup_insert (a := h.classOf (p.keys.view entry.key))
    (b := entry'.value) map
  have hbuckets : t'.buckets = t'.level.buckets := hchanged.sound.buckets
  have hbuckets' : before.buckets = before.level.buckets := hbefore.buckets
  have hlevel : t'.level = before.level := by
    rw [htable]
    exact htrims.level
  obtain ⟨hkey, hvalue⟩ : entry'.key = entry.key ∧
      entry'.value = (SlotAction.replies p actions entry.value).2 := by
    rw [hreaches.entry_eq]
    exact ⟨rfl, rfl⟩
  rw [← hvalue]
  refine ⟨hchanged.readsAs, hlive, ?_, ?_, hlevel, ?_, ?_⟩
  · rw [hchanged.readsAs.contains, hkey, hlookup]
    rfl
  · rw [hchanged.readsAs.get?, hkey, hlookup]
    rfl
  · rw [hbuckets, hbuckets', hlevel]
  · rw [htable]
    exact htrims.lastStep

/-- **Reading under a walk**: at every moment of every visit the table answers as
the map at the start would, without what earlier calls removed and with the
values given so far. -/
theorem glimpse_of_reaches [Scale F] (hlawful : p.hasher.Lawful) (hkeys : p.FaithfulKeys)
    (hreachable : t.Reachable) (memory : σ) (visitor : Visitor F ε K V VS σ ω) :
    ∃ map, Represents hlawful t map ∧
      (∀ call ∈ t.calls memory visitor, ∃ w entry, (Walk.start t memory).Reaches visitor w ∧
        w.meets = some (call.id, entry) ∧ call = w.callAt visitor call.id entry) ∧
      ∀ {w : Walk F p σ} {id : EntryId} {entry : Entry KS VS},
        (Walk.start t memory).Reaches visitor w → w.meets = some (id, entry) →
        ∃ calls, calls ++ [w.callAt visitor id entry] <+: t.calls memory visitor ∧
          ∀ {actions : List (ε × SlotAction V VS)} {rest : Visit F ε K V VS (σ × Verdict ω)}
            {t' : Table F p} {entry' : Entry KS VS},
            (visitor w.memory).Reaches id w.table entry actions rest t' entry' →
            (∃ events, w.outcomeAt visitor id entry = (rest.run w.link id t' entry').after events) ∧
              Glimpse hlawful t
                ((map.afterCalls calls).insert (hlawful.classOf (p.keys.view entry.key))
                  (SlotAction.replies p actions entry.value).2) id entry' t' := by
  obtain ⟨map, hrep⟩ := hreachable.represents hlawful hkeys
  refine ⟨map, hrep, fun call hcall => Walk.Reaches.start.exists_of_mem_callsWithin hcall,
    fun {w id entry} hreaches hmeets => ?_⟩
  obtain ⟨calls, bound, hmidway⟩ := hreaches.midway hreachable.sound
  obtain ⟨events, hserved⟩ := hmidway.served
  obtain ⟨-, hget⟩ := Walk.meets_eq_some_iff.mp hmeets
  exact ⟨calls, hmidway.call hmeets, fun hmoment => ⟨hmoment.run_eq w.link,
    (hrep.served hserved).glimpse hreachable.sound hreaches.trims hget hmoment⟩⟩

/-- A visitor that gives a value to an entry and then removes it. -/
def refilling : Visitor Rat Unit Nat Nat Nat Unit Unit := fun _ =>
  .slot () (.put 7) fun _ => .erase ((), .goOn)

/-- At the second entry of the sample, when the first is gone and the second has
its value: the table holds this one entry. -/
theorem glimpse_of_reaches_sample :
    let w := ((Walk.start sample ()).step refilling).1
    let seen : Table Rat oneChain := { w.table with toChains := w.table.setValue ⟨1⟩ (some 7) }
    oneChain.FaithfulKeys ∧ sample.Reachable ∧ (Walk.start sample ()).Reaches refilling w ∧
      w.meets = some (⟨1⟩, ⟨2, none, 0, none⟩) ∧
      ∃ map, Represents lawful_oneChain sample map ∧
        ∃ calls,
          calls ++ [w.callAt refilling ⟨1⟩ ⟨2, none, 0, none⟩] <+: sample.calls () refilling ∧
          Glimpse lawful_oneChain sample
            ((map.afterCalls calls).insert (lawful_oneChain.classOf 2) (some 7)) ⟨1⟩
            ⟨2, some 7, 0, none⟩ seen := by
  intro w seen
  have hgoOn : ((Walk.start sample ()).step refilling).2 = none := by decide +kernel
  have hreaches : (Walk.start sample ()).Reaches refilling w := .step .start (Prod.ext rfl hgoOn)
  have hmeets : w.meets = some (⟨1⟩, ⟨2, none, 0, none⟩) := by decide +kernel
  obtain ⟨map, hrep, -, hall⟩ := glimpse_of_reaches lawful_oneChain faithfulKeys_oneChain
    reachable_sample () refilling
  obtain ⟨calls, hcalls, hglimpse⟩ := hall hreaches hmeets
  exact ⟨faithfulKeys_oneChain, reachable_sample, hreaches, hmeets, map, hrep, calls, hcalls,
    (hglimpse (.slot .here)).2⟩

end Table

end ChainedTable
