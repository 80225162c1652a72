import ChainedTable.Chains
import ChainedTable.Journal

/-!
# ChainedTable.Proofs.Views

Entries under another form.

Chains hold keys and values and never look at them.  So it makes no difference
whether all keys and values are put into another form before an edit or after it:
`Chains.map` commutes with whatever is done to chains.  Where the other form is
what a caller may see, this says that an edit is known by what it does to views.
-/

namespace ChainedTable

variable {κ : Keeper} {K KS V VS : Type}

/-- Two options that look the same are both none, or both hold something. -/
theorem none_or_some_of_map_eq {α β γ : Type} {f : α → γ} {g : β → γ} {x : Option α} {y : Option β}
    (h : x.map f = y.map g) :
    (x = none ∧ y = none) ∨ ∃ a b, x = some a ∧ y = some b ∧ f a = g b := by
  cases x with
  | none => exact .inl ⟨rfl, Option.map_eq_none_iff.mp h.symm⟩
  | some a =>
      obtain ⟨b, hb, heq⟩ := Option.map_eq_some_iff.mp h.symm
      exact .inr ⟨a, b, rfl, hb, heq.symm⟩

/-- An entry with its key and value in another form. -/
def Entry.map (f : KS → K) (g : VS → V) (entry : Entry KS VS) : Entry K V where
  key := f entry.key
  value := entry.value.map g
  hash := entry.hash
  next := entry.next

/-! ## arenas -/

namespace Arena

variable {α β : Type} (f : α → β) (arena : Arena κ α)

/-- An arena with all entries in another form. -/
def map : Arena κ β where
  slots := arena.slots.map (Option.map f)
  vacant := arena.vacant
  capacity := arena.capacity

@[simp] theorem size_slots_map : (arena.map f).slots.size = arena.slots.size :=
  Array.size_map

@[simp] theorem size_map : (arena.map f).size = arena.size := by
  rw [size, size_slots_map]
  rfl

theorem get?_map (id : EntryId) : (arena.map f).get? id = (arena.get? id).map f := by
  simp only [get?, map, Array.getElem?_map]
  cases arena.slots[id.index]? <;> rfl

@[simp] theorem nextId_map : (arena.map f).nextId = arena.nextId := by
  simp [nextId, map]

theorem map_modify {u : α → α} {v : β → β} (h : ∀ a, f (u a) = v (f a)) (id : EntryId) :
    (arena.modify id u).map f = (arena.map f).modify id v := by
  have hslots : (arena.slots.modify id.index (Option.map u)).map (Option.map f) =
      (arena.slots.map (Option.map f)).modify id.index (Option.map v) := by
    refine Array.ext_getElem? fun i => ?_
    simp only [Array.getElem?_map, Array.getElem?_modify]
    split
    · cases arena.slots[i]? with
      | none => rfl
      | some slot => cases slot <;> simp [h]
    · rfl
  rw [modify, map, hslots]
  rfl

theorem map_reserve (granted : Bool) :
    (arena.reserve granted).map (map f) = (arena.map f).reserve granted := by
  have hfull : (arena.map f).isFull = arena.isFull := by simp [isFull, map]
  unfold reserve
  rw [hfull]
  split
  · rfl
  · split <;> rfl

theorem map_insert (entry : α) : (arena.insert entry).map f = (arena.map f).insert (f entry) := by
  have hvacant : (arena.map f).vacant = arena.vacant := rfl
  unfold insert
  rw [hvacant]
  cases κ.next arena.vacant <;> simp [map]

theorem map_erase (id : EntryId) : (arena.erase id).map f = (arena.map f).erase id := by
  simp [erase, map]

theorem entries_map : (arena.map f).entries = arena.entries.map fun (id, a) => (id, f a) := by
  simp [entries, map, List.zipIdx_map, List.filterMap_map, List.map_filterMap, Function.comp_def]

theorem map_clear : arena.clear.map f = (arena.map f).clear := by
  have hids : (arena.map f).entries.map (·.1.index) = arena.entries.map (·.1.index) := by
    rw [entries_map, List.map_map]
    rfl
  rw [clear, clear, hids]
  simp [map]

end Arena

/-! ## chains -/

namespace Chains

variable (f : KS → K) (g : VS → V) (chains : Chains κ KS VS)

/-- Chains with all keys and values in another form. -/
def map : Chains κ K V where
  arena := chains.arena.map (Entry.map f g)
  heads := chains.heads

@[simp] theorem size_map : (chains.map f g).size = chains.size :=
  Arena.size_map ..

@[simp] theorem bucketOf_map (hash : UInt64) :
    (chains.map f g).bucketOf hash = chains.bucketOf hash := rfl

theorem get?_map (id : EntryId) :
    (chains.map f g).arena.get? id = (chains.arena.get? id).map (Entry.map f g) :=
  Arena.get?_map ..

@[simp] theorem linked_map (link : Link) : (chains.map f g).linked link = chains.linked link := by
  cases link with
  | head bucket => rfl
  | after id =>
      simp only [linked, get?_map]
      cases chains.arena.get? id <;> rfl

theorem map_relink (link : Link) (target : Option EntryId) :
    (chains.relink link target).map f g = (chains.map f g).relink link target := by
  cases link with
  | head bucket => rfl
  | after id =>
      simp only [relink, map, Chains.mk.injEq, and_true]
      refine Arena.map_modify (Entry.map f g) chains.arena ?_ id
      exact fun _ => rfl

theorem map_setValue (id : EntryId) (value : Option VS) :
    (chains.setValue id value).map f g = (chains.map f g).setValue id (value.map g) := by
  simp only [setValue, map, Chains.mk.injEq, and_true]
  refine Arena.map_modify (Entry.map f g) chains.arena ?_ id
  exact fun _ => rfl

theorem map_insertAt (link : Link) (hash : UInt64) (key : KS) (value : Option VS) :
    (chains.insertAt link hash key value).map f g =
      (chains.map f g).insertAt link hash (f key) (value.map g) := by
  rw [insertAt, map_relink]
  simp only [insertAt, map, Arena.map_insert, Arena.nextId_map]
  rfl

theorem map_unlink (link : Link) (id : EntryId) (entry : Entry KS VS) :
    (chains.unlink link id entry).map f g =
      (chains.map f g).unlink link id (entry.map f g) := by
  rw [unlink, map_relink]
  simp only [unlink, map, Arena.map_erase]
  rfl

theorem map_clear : chains.clear.map f g = (chains.map f g).clear := by
  simp only [clear, map, Arena.map_clear]

/-- Moving entries does not depend on their form. -/
theorem map_scatter (bound : Nat) (cursor : Option EntryId) :
    (scatter bound cursor chains).map f g = scatter bound cursor (chains.map f g) := by
  induction bound generalizing cursor chains with
  | zero => rfl
  | succ bound ih =>
      cases cursor with
      | none => rfl
      | some id =>
          simp only [scatter, get?_map]
          cases chains.arena.get? id with
          | none => rfl
          | some entry =>
              simp only [Option.map_some, ih, map_relink, bucketOf_map, linked_map]
              rfl

theorem map_rehash (buckets : Nat) :
    (chains.rehash buckets).map f g = (chains.map f g).rehash buckets := by
  have hfold (heads : List (Option EntryId)) (moved : Chains κ KS VS) :
      (heads.foldl (fun moved head => scatter moved.arena.slots.size head moved) moved).map f g =
        heads.foldl (fun moved head => scatter moved.arena.slots.size head moved)
          (moved.map f g) := by
    induction heads generalizing moved with
    | nil => rfl
    | cons head heads ih =>
        have hslots : (moved.map f g).arena.slots.size = moved.arena.slots.size :=
          Arena.size_slots_map ..
        rw [List.foldl_cons, List.foldl_cons, ih, map_scatter, hslots]
  rw [rehash, rehash, ← Array.foldl_toList, ← Array.foldl_toList, hfold]
  rfl

end Chains

/-! ## journals -/

/-- What happened to an item, with the item in another form. -/
def Handling.map {View Stored Stored' : Type} (f : Stored → Stored') :
    Handling View Stored → Handling View Stored'
  | acquired stored => .acquired (f stored)
  | denied source => .denied source
  | released stored => .released (f stored)
  | supplied stored => .supplied (f stored)
  | handedOver stored => .handedOver (f stored)
  | overwritten stored => .overwritten (f stored)

/-- What happened, with stored keys and values in another form. -/
def Event.map {KS' VS' : Type} (f : KS → KS') (g : VS → VS') :
    Event K KS V VS → Event K KS' V VS'
  | hashed source hash => .hashed source hash
  | compared stored probe => .compared stored probe
  | key what => .key (what.map f)
  | value what => .value (what.map g)
  | noticed notice => .noticed notice

end ChainedTable
