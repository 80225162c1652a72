import ChainedTable.Proofs.FiniteMap
import ChainedTable.Proofs.Reachable

/-!
# ChainedTable.Proofs.Contract

A table answers like a finite map.

`Represents` ties a table to a map: the entries have one key class each, no two
of them the same, and the map takes these classes to the values of the entries.
A stored hash is that of the stored key, so that an entry with the class of a key
is on the chain where the key is looked up.  Each operation keeps the two
together and answers what the map answers (`Represents.run`), and so does any
run of operations.
-/

namespace ChainedTable

variable {F ε K KS V VS σ ω : Type} {κ : Keeper} {p : Policies ε K KS V VS κ}

/-- A key that was acquired compares as equal to the one it was made from. -/
def Policies.FaithfulKeys (p : Policies ε K KS V VS κ) : Prop :=
  ∀ {copies : ε} {source : K} {stored : KS}, p.keys.acquire copies source = .ok stored →
    p.hasher.compare (p.keys.view stored) source = .eq

theorem Policies.fst_acquireValue (p : Policies ε K KS V VS κ) (copies : ε) (value : Option V) :
    (p.acquireValue copies value).1 = value.mapM (p.values.acquire copies) := by
  cases value with
  | none => rfl
  | some source =>
      simp only [acquireValue, Option.mapM_some]
      cases p.values.acquire copies source <;> rfl

theorem Policies.Acquires.mapM_eq {copies : ε} {value : Option V} {stored : Option VS}
    (hvalue : p.Acquires copies value stored) :
    value.mapM (p.values.acquire copies) = .ok stored := by
  cases hvalue with
  | absent => rfl
  | present hstored =>
      rw [Option.mapM_some, hstored]
      rfl

theorem Arena.granted_eq_false {arena : Arena κ (Entry KS VS)} {granted : Bool}
    (hroom : arena.reserve granted = none) : granted = false := by
  unfold Arena.reserve at hroom
  cases granted with
  | false => rfl
  | true =>
      split at hroom
      · contradiction
      · contradiction

namespace Table

variable {h : p.hasher.Lawful} {t t' : Table F p} {map : KeyMap VS h}

/-- A table and a map with the same key classes and values. -/
structure Represents (h : p.hasher.Lawful) (t : Table F p) (map : KeyMap VS h) : Prop where
  sound : t.Sound
  hash_eq {id : EntryId} {held : Holding KS VS} : t.holding? id = some held →
    held.hash = p.hasher.hash (p.keys.view held.key)
  lookup_eq {id : EntryId} {held : Holding KS VS} : t.holding? id = some held →
    map.lookup (h.classOf (p.keys.view held.key)) = some held.value
  unique {id id' : EntryId} {held held' : Holding KS VS} : t.holding? id = some held →
    t.holding? id' = some held' →
    h.classOf (p.keys.view held.key) = h.classOf (p.keys.view held'.key) → id = id'
  cover {cls : h.Class} : cls ∈ map →
    ∃ id held, t.holding? id = some held ∧ h.classOf (p.keys.view held.key) = cls

/-- What the table maps a key to, if it has an entry for it. -/
def mapped (t : Table F p) (key : K) : Option (Option VS) :=
  (t.probe key).found.map fun (_, entry) => entry.value

namespace Represents

theorem empty (band : DensityBand F) : Represents h (Table.empty band) ∅ where
  sound := .empty band
  hash_eq hheld := by simp [Table.empty, Chains.empty, Chains.holding?] at hheld
  lookup_eq hheld := by simp [Table.empty, Chains.empty, Chains.holding?] at hheld
  unique hheld := by simp [Table.empty, Chains.empty, Chains.holding?] at hheld
  cover hmem := absurd hmem Finmap.notMem_empty

/-! ## what a search finds -/

/-- A key that is found has the class of the entry. -/
theorem found (hrep : Represents h t map) {key : K} {id : EntryId} {entry : Entry KS VS}
    (hfound : (t.probe key).found = some (id, entry)) :
    t.arena.get? id = some entry ∧ h.classOf (p.keys.view entry.key) = h.classOf key ∧
      map.lookup (h.classOf key) = some entry.value := by
  obtain ⟨_, hget⟩ := linked_of_probe_found hfound
  obtain ⟨_, _, _, _, hmatches, -⟩ := probe_found hrep.sound.wellLinked hfound
  rw [matches_iff_of_get? hget, ← h.classOf_eq_iff] at hmatches
  have hlookup := hrep.lookup_eq (Chains.holding?_of_get? hget)
  change map.lookup (h.classOf (p.keys.view entry.key)) = some entry.value at hlookup
  rw [hmatches] at hlookup
  exact ⟨hget, hmatches, hlookup⟩

/-- A key that is not found has a class that is not in the map. -/
theorem not_found (hrep : Represents h t map) {key : K} (hfound : (t.probe key).found = none) :
    map.lookup (h.classOf key) = none := by
  obtain ⟨_, hnone⟩ := probe_not_found hrep.sound.wellLinked hfound
  rw [Finmap.lookup_eq_none]
  intro hmem
  obtain ⟨id, held, hheld, hclass⟩ := hrep.cover hmem
  have hequal := h.classOf_eq_iff.mp hclass
  have hhash : held.hash = p.hasher.hash key := (hrep.hash_eq hheld).trans (h.hash_eq hequal)
  have hlisted := hrep.sound.wellLinked.listed hheld
  rw [hhash] at hlisted
  exact hnone id hlisted ⟨held, hheld, hequal⟩

/-! ## edits -/

/-- Only what entries hold matters. -/
theorem congr (hrep : Represents h t map) (hsound : t'.Sound)
    (hsame : ∀ id, t'.holding? id = t.holding? id) : Represents h t' map where
  sound := hsound
  hash_eq hheld := hrep.hash_eq (hsame _ ▸ hheld)
  lookup_eq hheld := hrep.lookup_eq (hsame _ ▸ hheld)
  unique hheld hheld' := hrep.unique (hsame _ ▸ hheld) (hsame _ ▸ hheld')
  cover hmem := by
    obtain ⟨id, held, hheld, hclass⟩ := hrep.cover hmem
    exact ⟨id, held, (hsame id).trans hheld, hclass⟩

theorem reserve (hrep : Represents h t map) {granted : Bool} {arena : Arena κ (Entry KS VS)}
    (hroom : t.arena.reserve granted = some arena) :
    Represents h ({ t with arena } : Table F p) map :=
  hrep.congr (hrep.sound.reserve hroom) fun id =>
    Chains.holding?_congr (Arena.get?_reserve hroom id)

theorem densityStep [Scale F] (hrep : Represents h t map) (supply : Supply ε) :
    Represents h (t.densityStep supply).table map :=
  hrep.congr (hrep.sound.densityStep supply) (hrep.sound.holding?_densityStep supply)

/-- One entry comes, or takes another value, and the map follows. -/
theorem put (hrep : Represents h t map) (hsound : t'.Sound) {id : EntryId}
    {held : Holding KS VS} (hhere : t'.holding? id = some held)
    (helse : ∀ other, other ≠ id → t'.holding? other = t.holding? other)
    (hhash : held.hash = p.hasher.hash (p.keys.view held.key))
    (hclass : ∀ other held', other ≠ id → t.holding? other = some held' →
      h.classOf (p.keys.view held'.key) ≠ h.classOf (p.keys.view held.key))
    (hold : ∀ held', t.holding? id = some held' →
      h.classOf (p.keys.view held'.key) = h.classOf (p.keys.view held.key)) :
    Represents h t' (map.insert (h.classOf (p.keys.view held.key)) held.value) where
  sound := hsound
  hash_eq {other held'} hheld' := by
    by_cases heq : other = id
    · subst heq
      obtain rfl : held = held' := Option.some.inj (hhere.symm.trans hheld')
      exact hhash
    · rw [helse other heq] at hheld'
      exact hrep.hash_eq hheld'
  lookup_eq {other held'} hheld' := by
    by_cases heq : other = id
    · subst heq
      obtain rfl : held = held' := Option.some.inj (hhere.symm.trans hheld')
      exact Finmap.lookup_insert map
    · rw [helse other heq] at hheld'
      rw [Finmap.lookup_insert_of_ne map (hclass other held' heq hheld')]
      exact hrep.lookup_eq hheld'
  unique {other other' held₁ held₂} hheld₁ hheld₂ hsame := by
    by_cases heq : other = id
    · subst heq
      obtain rfl : held = held₁ := Option.some.inj (hhere.symm.trans hheld₁)
      by_contra hne
      rw [helse other' (Ne.symm hne)] at hheld₂
      exact hclass other' held₂ (Ne.symm hne) hheld₂ hsame.symm
    · rw [helse other heq] at hheld₁
      by_cases heq' : other' = id
      · subst heq'
        obtain rfl : held = held₂ := Option.some.inj (hhere.symm.trans hheld₂)
        exact absurd hsame (hclass other held₁ heq hheld₁)
      · rw [helse other' heq'] at hheld₂
        exact hrep.unique hheld₁ hheld₂ hsame
  cover {cls} hmem := by
    rcases Finmap.mem_insert.mp hmem with rfl | hmem
    · exact ⟨id, held, hhere, rfl⟩
    · obtain ⟨other, held', hheld', rfl⟩ := hrep.cover hmem
      by_cases heq : other = id
      · subst heq
        exact ⟨other, held, hhere, (hold held' hheld').symm⟩
      · exact ⟨other, held', (helse other heq).trans hheld', rfl⟩

/-- One entry goes, and its class with it. -/
theorem remove (hrep : Represents h t map) (hsound : t'.Sound) {id : EntryId}
    {held : Holding KS VS} (hheld : t.holding? id = some held)
    (hgone : ∀ other, t'.holding? other = if id = other then none else t.holding? other) :
    Represents h t' (map.erase (h.classOf (p.keys.view held.key))) := by
  have hstay {other : EntryId} {held' : Holding KS VS} (hheld' : t'.holding? other = some held') :
      id ≠ other ∧ t.holding? other = some held' := by
    rw [hgone other] at hheld'
    split at hheld'
    · contradiction
    · next hne => exact ⟨hne, hheld'⟩
  refine ⟨hsound, fun hheld' => hrep.hash_eq (hstay hheld').2, fun hheld' => ?_,
    fun hheld₁ hheld₂ => hrep.unique (hstay hheld₁).2 (hstay hheld₂).2, fun hmem => ?_⟩
  · obtain ⟨hne, hold⟩ := hstay hheld'
    have hclass : h.classOf (p.keys.view _) ≠ h.classOf (p.keys.view held.key) := fun hsame =>
      hne (hrep.unique hold hheld hsame).symm
    rw [Finmap.lookup_erase_ne hclass]
    exact hrep.lookup_eq hold
  · obtain ⟨hne, hmem⟩ := Finmap.mem_erase.mp hmem
    obtain ⟨other, held', hheld', rfl⟩ := hrep.cover hmem
    have hother : id ≠ other := by
      rintro rfl
      rw [hheld, Option.some.injEq] at hheld'
      exact hne (by rw [hheld'])
    exact ⟨other, held', by rw [hgone, if_neg hother, hheld'], rfl⟩

theorem unlink (hrep : Represents h t map) {link : Link} {id : EntryId} {entry : Entry KS VS}
    (hlink : t.linked link = some id) (hget : t.arena.get? id = some entry) {key : K}
    (hclass : h.classOf (p.keys.view entry.key) = h.classOf key) :
    Represents h { t with toChains := t.toChains.unlink link id entry }
      (map.erase (h.classOf key)) := by
  rw [← hclass]
  exact hrep.remove (hrep.sound.unlink hlink hget) (Chains.holding?_of_get? hget)
    fun other => Chains.holding?_unlink link other

theorem clear (hrep : Represents h t map) : Represents h t.clear.table ∅ := by
  have hnone (id : EntryId) : t.clear.table.holding? id = none := by
    simp [Table.clear, Chains.clear, Chains.holding?]
  exact ⟨hrep.sound.clear, fun hheld => by simp [hnone] at hheld,
    fun hheld => by simp [hnone] at hheld, fun hheld => by simp [hnone] at hheld,
    fun hmem => absurd hmem Finmap.notMem_empty⟩

theorem setValue (hrep : Represents h t map) {id : EntryId} {entry : Entry KS VS}
    (hget : t.arena.get? id = some entry) {key : K}
    (hclass : h.classOf (p.keys.view entry.key) = h.classOf key) (value : Option VS) :
    Represents h { t with toChains := t.toChains.setValue id value }
      (map.insert (h.classOf key) value) := by
  have hheld := Chains.holding?_of_get? hget
  have hhere := Chains.holding?_of_get? (get?_setValue hget value)
  have hhash : entry.hash = p.hasher.hash (p.keys.view entry.key) := hrep.hash_eq hheld
  have hput := hrep.put (hrep.sound.setValue id value) hhere
    (fun other hne => Chains.holding?_setValue_of_ne hne value) hhash
    (fun other held' hne hheld' hsame => hne (hrep.unique hheld' hheld hsame))
    (fun held' hheld' => by
      rw [hheld, Option.some.injEq] at hheld'
      rw [← hheld']
      rfl)
  rw [← hclass]
  exact hput

theorem linkNew (hrep : Represents h t map) {granted : Bool} {arena : Arena κ (Entry KS VS)}
    (hroom : t.arena.reserve granted = some arena) {key : K}
    (hfound : (t.probe key).found = none) {storedKey : KS}
    (hclass : h.classOf (p.keys.view storedKey) = h.classOf key) (value : Option VS) :
    Represents h (t.linkNew arena key storedKey value) (map.insert (h.classOf key) value) := by
  have hheld := hrep.sound.holding?_linkNew hroom key storedKey value
  have hnew := hrep.sound.holding?_nextId
  have hlookup := hrep.not_found hfound
  have hput := hrep.put (hrep.sound.linkNew hroom hfound storedKey value)
    ((hheld t.arena.nextId).trans (if_pos rfl))
    (fun other hne => (hheld other).trans (if_neg hne))
    (h.hash_eq (h.classOf_eq_iff.mp hclass.symm))
    (fun other held' _ hheld' hsame => by
      have hlookup' := hrep.lookup_eq hheld'
      rw [hsame, hclass, hlookup] at hlookup'
      contradiction)
    (fun held' hheld' => by rw [hnew] at hheld'; contradiction)
  rw [← hclass]
  exact hput

/-! ## the size -/

/-- There are as many entries as classes. -/
theorem size_eq (hrep : Represents h t map) : t.size = map.keys.card := by
  have hlinked := hrep.sound.wellLinked
  let classes := t.listing.map fun listed => h.classOf (p.keys.view listed.2.key)
  have hnodup : classes.Nodup := by
    refine List.Nodup.map_on (fun x hx y hy hsame => ?_) (List.Nodup.of_map _ hlinked.nodup_listing)
    obtain ⟨id, held⟩ := x
    obtain ⟨id', held'⟩ := y
    rw [hlinked.mem_listing_iff] at hx hy
    obtain rfl := hrep.unique hx hy hsame
    rw [hx, Option.some.injEq] at hy
    rw [hy]
  have hkeys : classes.toFinset = map.keys := by
    ext cls
    rw [List.mem_toFinset, Finmap.mem_keys, List.mem_map]
    constructor
    · rintro ⟨⟨id, held⟩, hmem, rfl⟩
      exact Finmap.mem_of_lookup_eq_some (hrep.lookup_eq (hlinked.mem_listing_iff.mp hmem))
    · intro hmem
      obtain ⟨id, held, hheld, rfl⟩ := hrep.cover hmem
      exact ⟨(id, held), hlinked.mem_listing_iff.mpr hheld, rfl⟩
  rw [← hlinked.length_listing, ← hkeys, List.toFinset_card_of_nodup hnodup, List.length_map]

theorem isEmpty_iff (hrep : Represents h t map) : t.isEmpty = true ↔ map = ∅ := by
  rw [isEmpty, beq_iff_eq, hrep.size_eq, Finset.card_eq_zero]
  constructor
  · intro hkeys
    refine Finmap.ext_lookup fun cls => ?_
    rw [Finmap.lookup_empty, Finmap.lookup_eq_none, ← Finmap.mem_keys, hkeys]
    exact Finset.notMem_empty cls
  · rintro rfl
    exact Finmap.keys_empty

/-! ## requests -/

section Requests

variable {key : K}

/-- **A key that is new** is refused, or it gets an entry with its value. -/
theorem insertNew [Scale F] (hrep : Represents h t map) (hkeys : p.FaithfulKeys) (supply : Supply ε)
    (value : Option V) (hfound : (t.probe key).found = none) :
    ∃ room, (supply.arena = true → room = true) ∧
      ((∃ why, KeyMap.acquire h room supply.copies map key value = .error why ∧
          (t.insertNew supply (t.probe key) key value).answer = .error why ∧
          Represents h (t.insertNew supply (t.probe key) key value).table map) ∨
        ∃ stored id held, KeyMap.acquire h room supply.copies map key value = .ok stored ∧
          (t.insertNew supply (t.probe key) key value).answer = .ok id ∧
          Represents h (t.insertNew supply (t.probe key) key value).table
            (map.insert (h.classOf key) stored) ∧
          (t.insertNew supply (t.probe key) key value).table.holding? id = some held ∧
          held.value = stored ∧ h.classOf (p.keys.view held.key) = h.classOf key) := by
  have hlookup := hrep.not_found hfound
  have hadmission := admission_insertNew t supply key value
  generalize t.insertNew supply (t.probe key) key value = outcome at hadmission ⊢
  cases hadmission with
  | noRoom hroom =>
      have hgranted := Arena.granted_eq_false hroom
      refine ⟨false, fun harena => absurd (hgranted.symm.trans harena) Bool.false_ne_true,
        .inl ⟨.storage, ?_, rfl, hrep⟩⟩
      unfold KeyMap.acquire
      rw [hlookup]
      rfl
  | keyRefused hroom hkey =>
      refine ⟨true, fun _ => rfl, .inl ⟨_, ?_, rfl, hrep.reserve hroom⟩⟩
      unfold KeyMap.acquire
      rw [hlookup, hkey]
      rfl
  | valueRefused hroom hkey hgiven hwhy =>
      refine ⟨true, fun _ => rfl, .inl ⟨_, ?_, rfl, hrep.reserve hroom⟩⟩
      rw [KeyMap.acquire_of_not_mem hlookup hkey, hgiven, Option.mapM_some, hwhy]
      rfl
  | @admitted arena storedKey storedValue hroom hkey hvalue =>
      have hclass := h.classOf_eq_iff.mpr (hkeys hkey)
      have hlinked := hrep.linkNew hroom hfound hclass storedValue
      have hheld := hrep.sound.holding?_linkNew hroom key storedKey storedValue t.arena.nextId
      rw [if_pos rfl, ← Chains.nextId_reserve hroom] at hheld
      have hstored : KeyMap.acquire h true supply.copies map key value = .ok storedValue :=
        (KeyMap.acquire_of_not_mem hlookup hkey).trans (hvalue.mapM_eq)
      exact ⟨true, fun _ => rfl, .inr ⟨storedValue, arena.nextId,
        ⟨storedKey, storedValue, p.hasher.hash key⟩, hstored, rfl, hlinked.densityStep supply,
        (hlinked.sound.holding?_densityStep supply arena.nextId).trans hheld, rfl, hclass⟩⟩

/-- An outcome is the answer of a map to a request, with some word whether there
is room, and leaves a table with the map afterwards. -/
def Follows (h : p.hasher.Lawful) (supply : Supply ε) (map : KeyMap VS h)
    (request : Request F ε K V VS σ ω) (outcome : Outcome F p (Reply V VS σ ω)) : Prop :=
  ∃ room, (supply.arena = true → room = true) ∧
    outcome.answer.told = (KeyMap.answer h room supply.copies map request).1 ∧
    Represents h outcome.table (KeyMap.answer h room supply.copies map request).2

theorem follows_insert [Scale F] (hrep : Represents h t map) (hkeys : p.FaithfulKeys)
    (supply : Supply ε) (key : K) (value : Option V) :
    Follows h supply map (.insert key value : Request F ε K V VS σ ω)
      ((t.insert supply key value).map .inserted) := by
  unfold insert
  dsimp only
  split
  · next id entry hfound =>
      obtain ⟨hget, hclass, hlookup⟩ := hrep.found hfound
      have hacquire : KeyMap.acquire h true supply.copies map key value = _ :=
        KeyMap.acquire_of_lookup hlookup
      rw [← p.fst_acquireValue] at hacquire
      refine ⟨true, fun _ => rfl, ?_⟩
      split
      · next why events hvalue =>
          rw [hvalue] at hacquire
          simp only [KeyMap.answer, hacquire]
          exact ⟨rfl, hrep⟩
      · next fresh events hvalue =>
          rw [hvalue] at hacquire
          simp only [KeyMap.answer, hacquire, hlookup]
          exact ⟨rfl, hrep.setValue hget hclass fresh⟩
  · next hfound =>
      have hlookup := hrep.not_found hfound
      obtain ⟨room, hroom, hcases⟩ := hrep.insertNew hkeys supply value hfound
      refine ⟨room, hroom, ?_⟩
      obtain ⟨why, hnew, hanswer, hafter⟩ | ⟨stored, id, held, hnew, hanswer, hafter, -⟩ := hcases
      · simp only [KeyMap.answer, hnew, Outcome.answer_map, Outcome.answer_after, hanswer]
        exact ⟨rfl, hafter⟩
      · simp only [KeyMap.answer, hnew, hlookup, Outcome.answer_map, Outcome.answer_after, hanswer]
        exact ⟨rfl, hafter⟩

/-- Slot actions on the entry of a class change what the class is mapped to. -/
theorem onSlots {value : Option VS} {cls : h.Class}
    (hrep : Represents h t (map.insert cls value)) {id : EntryId} {entry : Entry KS VS}
    (hget : t.arena.get? id = some entry) (hvalue : entry.value = value)
    (hclass : h.classOf (p.keys.view entry.key) = cls) (actions : List (ε × SlotAction V VS)) :
    (t.onSlots id actions).answer = (SlotAction.replies p actions value).1 ∧
      Represents h (t.onSlots id actions).table
        (map.insert cls (SlotAction.replies p actions value).2) := by
  induction actions generalizing t entry value with
  | nil => exact ⟨rfl, hrep⟩
  | cons first rest ih =>
      obtain ⟨copies, action⟩ := first
      subst hvalue
      subst hclass
      have hset := hrep.setValue hget rfl (action.run p copies entry.value).value
      rw [Finmap.insert_insert] at hset
      obtain ⟨hanswer, hafter⟩ := ih hset (get?_setValue hget _) rfl rfl
      simp only [Table.onSlots, onSlot_eq hget, SlotAction.replies, ← SlotAction.run_eq_reply]
      exact ⟨congrArg _ hanswer, hafter⟩

/-- The entry that `openSlot` answers has the class of the key, and no value. -/
theorem openSlot [Scale F] (hrep : Represents h t map) (hkeys : p.FaithfulKeys) (supply : Supply ε)
    (key : K) :
    ∃ room, (supply.arena = true → room = true) ∧
      ((∃ why, KeyMap.acquire h room supply.copies map key none = .error why ∧
          (t.openSlot supply key).answer = .error why ∧
          Represents h (t.openSlot supply key).table map) ∨
        ∃ stored id entry, KeyMap.acquire h room supply.copies map key none = .ok stored ∧
          (t.openSlot supply key).answer = .ok id ∧
          Represents h (t.openSlot supply key).table (map.insert (h.classOf key) stored) ∧
          (t.openSlot supply key).table.arena.get? id = some entry ∧
          entry.value = stored ∧ h.classOf (p.keys.view entry.key) = h.classOf key) := by
  rw [openSlot_eq]
  dsimp only
  split
  · next id entry hfound =>
      obtain ⟨hget, hclass, hlookup⟩ := hrep.found hfound
      exact ⟨true, fun _ => rfl, .inr ⟨none, id, _, KeyMap.acquire_of_lookup hlookup, rfl,
        hrep.setValue hget hclass none, get?_setValue hget none, rfl, hclass⟩⟩
  · next hfound =>
      obtain ⟨room, hroom, hcases⟩ := hrep.insertNew hkeys supply none hfound
      refine ⟨room, hroom, ?_⟩
      obtain ⟨why, hnew, hanswer, hafter⟩ | ⟨stored, id, held, hnew, hanswer, hafter, hheld,
        hvalue, hclass⟩ := hcases
      · exact .inl ⟨why, hnew, hanswer, hafter⟩
      · obtain ⟨entry, hget, rfl⟩ := Chains.holding?_eq_some_iff.mp hheld
        exact .inr ⟨stored, id, entry, hnew, hanswer, hafter, hget, hvalue, hclass⟩

theorem follows_openSlot [Scale F] (hrep : Represents h t map) (hkeys : p.FaithfulKeys)
    (supply : Supply ε) (key : K) (actions : List (ε × SlotAction V VS)) :
    Follows h supply map (.openSlot key actions : Request F ε K V VS σ ω)
      ((t.openSlotAnd supply key actions).map .filled) := by
  obtain ⟨room, hroom, hcases⟩ := hrep.openSlot hkeys supply key
  refine ⟨room, hroom, ?_⟩
  obtain ⟨why, hnew, hanswer, hafter⟩ | ⟨stored, id, entry, hnew, hanswer, hafter, hget, hvalue,
    hclass⟩ := hcases
  · simp only [openSlotAnd, hanswer, KeyMap.answer, hnew]
    exact ⟨rfl, hafter⟩
  · obtain ⟨hreplies, hrest⟩ := onSlots hafter hget hvalue hclass actions
    simp only [openSlotAnd, hanswer, KeyMap.answer, hnew]
    refine ⟨?_, hrest⟩
    simp only [Outcome.answer_map, Outcome.answer_after, hreplies]
    rfl

theorem follows_contains (hrep : Represents h t map) (supply : Supply ε) (key : K) :
    Follows h supply map (.contains key : Request F ε K V VS σ ω)
      ((t.contains key).map .flag) := by
  refine ⟨true, fun _ => rfl, ?_, hrep⟩
  simp only [Outcome.answer_map, Table.contains, Reply.told, KeyMap.answer]
  cases hfound : (t.probe key).found with
  | none => rw [hrep.not_found hfound]; rfl
  | some found => rw [(hrep.found hfound).2.2]; rfl

theorem follows_lookUp (hrep : Represents h t map) (supply : Supply ε) (key : K) :
    Follows h supply map (.lookUp key : Request F ε K V VS σ ω) ((t.get? key).map .content) := by
  refine ⟨true, fun _ => rfl, ?_, hrep⟩
  simp only [Outcome.answer_map, Table.get?, Reply.told, KeyMap.answer]
  cases hfound : (t.probe key).found with
  | none => rw [hrep.not_found hfound]; rfl
  | some found => rw [(hrep.found hfound).2.2]; rfl

theorem follows_take [Scale F] (hrep : Represents h t map) (supply : Supply ε) (key : K) :
    Follows h supply map (.take key : Request F ε K V VS σ ω)
      ((t.take supply key).map .taken) := by
  refine ⟨true, fun _ => rfl, ?_⟩
  unfold Table.take
  simp only [KeyMap.answer]
  cases hfound : (t.probe key).found with
  | none =>
      have hlookup := hrep.not_found hfound
      rw [hlookup, KeyMap.erase_eq_self hlookup]
      exact ⟨rfl, hrep⟩
  | some found =>
      obtain ⟨id, entry⟩ := found
      obtain ⟨hlink, -⟩ := linked_of_probe_found hfound
      obtain ⟨hget, hclass, hlookup⟩ := hrep.found hfound
      rw [hlookup]
      exact ⟨rfl, (hrep.unlink hlink hget hclass).densityStep supply⟩

theorem follows_erase [Scale F] (hrep : Represents h t map) (supply : Supply ε) (key : K) :
    Follows h supply map (.erase key : Request F ε K V VS σ ω)
      ((t.erase supply key).map fun _ => .done) := by
  refine ⟨true, fun _ => rfl, rfl, ?_⟩
  unfold Table.erase
  simp only [KeyMap.answer]
  cases hfound : (t.probe key).found with
  | none =>
      rw [KeyMap.erase_eq_self (hrep.not_found hfound)]
      exact hrep
  | some found =>
      obtain ⟨id, entry⟩ := found
      obtain ⟨hlink, -⟩ := linked_of_probe_found hfound
      obtain ⟨hget, hclass, -⟩ := hrep.found hfound
      exact (hrep.unlink hlink hget hclass).densityStep supply

/-- **A request is answered as by the map.** -/
theorem follows_run [Scale F] (hrep : Represents h t map) (hkeys : p.FaithfulKeys)
    (supply : Supply ε) (request : Request F ε K V VS σ ω) (hrequest : request.OnMap) :
    Follows h supply map request (request.run supply t) := by
  cases request with
  | insert key value => exact hrep.follows_insert hkeys supply key value
  | openSlot key actions => exact hrep.follows_openSlot hkeys supply key actions
  | contains key => exact hrep.follows_contains supply key
  | lookUp key => exact hrep.follows_lookUp supply key
  | take key => exact hrep.follows_take supply key
  | erase key => exact hrep.follows_erase supply key
  | clear => exact ⟨true, fun _ => rfl, rfl, hrep.clear⟩
  | densityStep => exact ⟨true, fun _ => rfl, rfl, hrep.densityStep supply⟩
  | walk memory visitor => exact hrequest.elim

/-- **A run is answered as by the map**, request by request. -/
theorem follows_runAll [Scale F] (hrep : Represents h t map) (hkeys : p.FaithfulKeys)
    (requests : List (Supply ε × Request F ε K V VS σ ω))
    (hrequests : ∀ call ∈ requests, call.2.OnMap) :
    ∃ calls : List (Bool × Supply ε × Request F ε K V VS σ ω),
      calls.map (·.2) = requests ∧ (∀ call ∈ calls, call.2.1.arena = true → call.1 = true) ∧
        (t.runAll requests).answer.map Reply.told = (KeyMap.answers h calls map).1 ∧
        Represents h (t.runAll requests).table (KeyMap.answers h calls map).2 := by
  induction requests generalizing t map with
  | nil => exact ⟨[], rfl, by simp, rfl, hrep⟩
  | cons first rest ih =>
      obtain ⟨supply, request⟩ := first
      obtain ⟨hrequest, hrest⟩ := List.forall_mem_cons.mp hrequests
      obtain ⟨room, hroom, htold, hafter⟩ := hrep.follows_run hkeys supply request hrequest
      obtain ⟨calls, heq, hrooms, hanswers, hlast⟩ := ih hafter hrest
      refine ⟨(room, supply, request) :: calls, by rw [List.map_cons, heq],
        List.forall_mem_cons.mpr ⟨hroom, hrooms⟩, ?_, hlast⟩
      simp only [runAll, Outcome.answer_after, Outcome.answer_map, List.map_cons,
        KeyMap.answers, ← hanswers, ← htold]

/-- What a key is mapped to. -/
theorem mapped_eq (hrep : Represents h t map) (key : K) :
    t.mapped key = map.lookup (h.classOf key) := by
  unfold mapped
  cases hfound : (t.probe key).found with
  | none => exact (hrep.not_found hfound).symm
  | some found => exact (hrep.found hfound).2.2.symm

/-- A request that fails leaves a table with the same map. -/
theorem failed_run [Scale F] (hrep : Represents h t map) (hkeys : p.FaithfulKeys)
    (supply : Supply ε) (request : Request F ε K V VS σ ω) (hrequest : request.OnMap)
    (hfailed : (request.run supply t).answer.Failed) :
    Represents h (request.run supply t).table map := by
  obtain ⟨room, -, htold, hafter⟩ := hrep.follows_run hkeys supply request hrequest
  generalize (request.run supply t).answer = reply at htold hfailed
  have hanswer : (KeyMap.answer h room supply.copies map request).1 = some reply := by
    rw [← htold]
    cases reply with
    | inserted result => rfl
    | filled result => rfl
    | _ => exact hfailed.elim
  rwa [KeyMap.answer_of_failed hanswer hfailed] at hafter

end Requests

end Represents

/-- A run of requests, told as a run of a finite map. -/
structure RunsAsMap [Scale F] (h : p.hasher.Lawful) (t : Table F p)
    (requests : List (Supply ε × Request F ε K V VS σ ω))
    (calls : List (Bool × Supply ε × Request F ε K V VS σ ω)) : Prop where
  /-- The map is asked the same. -/
  requests_eq : calls.map (·.2) = requests
  /-- There is room whenever the arena may grow. -/
  room : ∀ call ∈ calls, call.2.1.arena = true → call.1 = true
  /-- The map gives the same answers. -/
  answers : (t.runAll requests).answer.map Reply.told = (KeyMap.answers h calls ∅).1
  mapped (key : K) :
    (t.runAll requests).table.mapped key = (KeyMap.answers h calls ∅).2.lookup (h.classOf key)
  size : (t.runAll requests).table.size = (KeyMap.answers h calls ∅).2.keys.card
  isEmpty : (t.runAll requests).table.isEmpty = true ↔ (KeyMap.answers h calls ∅).2 = ∅
  /-- A request that fails leaves the table with what it mapped. -/
  failed {first rest : List (Supply ε × Request F ε K V VS σ ω)} {supply : Supply ε}
    {request : Request F ε K V VS σ ω} : requests = first ++ (supply, request) :: rest →
    (request.run supply (t.runAll first).table).answer.Failed →
    (request.run supply (t.runAll first).table).table.mapped = (t.runAll first).table.mapped ∧
      (request.run supply (t.runAll first).table).table.size = (t.runAll first).table.size

/-- **The map contract**: on a lawful hash policy and faithful copies of keys, a new
table answers any run of requests like a finite map from key classes.  Integers,
texts and strings of bytes are such keys, and each is a class of its own. -/
theorem runsAsMap_of_withBand [Scale F] (h : p.hasher.Lawful) (hkeys : p.FaithfulKeys)
    {supply : Supply ε} {band : DensityBand F} (hmade : withBand supply band = .ok t)
    (requests : List (Supply ε × Request F ε K V VS σ ω))
    (hrequests : ∀ call ∈ requests, call.2.OnMap) :
    (∃ calls, t.RunsAsMap h requests calls) ∧
      (∀ kind, (HashPolicy.integer : HashPolicy (MachineInt kind)).Exact) ∧
      HashPolicy.text.Exact ∧ HashPolicy.bytes.Exact ∧
      ∀ {K' : Type} {hasher : HashPolicy K'}, hasher.Exact → hasher.Lawful := by
  have hempty : Represents h t ∅ := eq_empty_of_withBand hmade ▸ .empty band
  refine ⟨?_, HashPolicy.exact_integer, HashPolicy.exact_text, HashPolicy.exact_bytes,
    HashPolicy.Exact.lawful⟩
  obtain ⟨calls, heq, hroom, hanswers, hlast⟩ := hempty.follows_runAll hkeys requests hrequests
  refine ⟨calls, heq, hroom, hanswers, hlast.mapped_eq, hlast.size_eq, hlast.isEmpty_iff, ?_⟩
  intro first rest supply' request hsplit hfailed
  rw [hsplit] at hrequests
  obtain ⟨_, _, _, _, hbefore⟩ := hempty.follows_runAll hkeys first fun call hcall =>
    hrequests call (List.mem_append_left _ hcall)
  have hafter := hbefore.failed_run hkeys supply' request
    (hrequests (supply', request) (by simp)) hfailed
  refine ⟨?_, hafter.size_eq.trans hbefore.size_eq.symm⟩
  funext key
  rw [hafter.mapped_eq, hbefore.mapped_eq]

theorem lawful_oneChain : oneChain.hasher.Lawful :=
  (HashPolicy.exact_digesting fun _ => 0).lawful

theorem faithfulKeys_oneChain : oneChain.FaithfulKeys := by
  intro copies source stored hacquire
  obtain rfl := Except.ok.inj hacquire
  exact lawful_oneChain.refl _

/-- Two keys on one chain: the first is removed, and the second gets its value later. -/
theorem runsAsMap_sample :
    let requests : List (Supply Unit × Request Rat Unit Nat Nat Nat Unit Unit) :=
      [(plenty, .insert 1 (some 10)), (plenty, .openSlot 2 [((), .put 5)]), (plenty, .take 1)]
    oneChain.FaithfulKeys ∧ (∀ call ∈ requests, call.2.OnMap) ∧
      ∃ calls, (empty .default : Table Rat oneChain).RunsAsMap lawful_oneChain requests calls := by
  intro requests
  have hmade : withBand plenty .default = .ok (empty .default : Table Rat oneChain) := rfl
  have honMap : ∀ call ∈ requests, call.2.OnMap := by
    simp [requests, Request.OnMap]
  exact ⟨faithfulKeys_oneChain, honMap,
    (runsAsMap_of_withBand lawful_oneChain faithfulKeys_oneChain hmade requests honMap).1⟩

end Table

end ChainedTable
