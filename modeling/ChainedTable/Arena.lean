import ChainedTable.Arena.Keeper

/-!
# ChainedTable.Arena

Storage for entries, addressed by ids that stay valid while an entry lives.

An arena is a sequence of slots. A slot holds an entry or is vacant. A new
entry takes the vacant slot that the `Keeper` of the arena gives, and only if it
gives none does a new slot come into use.

The slots stand in a block of storage with room for `capacity` places. One
place is taken from the start, so the arena must grow when the slots in use
and that place fill the block; the keeper tells when, and to what size. Growth
can be refused; `reserve` asks for it ahead of time, so that `insert` itself
never needs storage.
-/

namespace ChainedTable

/-- Name of an entry in its arena. -/
structure EntryId where
  index : Nat
deriving DecidableEq, Repr

/-- Slots for entries. -/
structure Arena (κ : Keeper) (α : Type) where
  /-- Every slot ever used; `none` is a vacant one. -/
  slots : Array (Option α) := #[]
  /-- What the keeper keeps of the vacant slots. -/
  vacant : κ.Vacancies := κ.empty
  /-- Places in the block of storage, one of which is never a slot. -/
  capacity : Nat := κ.least
deriving DecidableEq

namespace Arena

variable {κ : Keeper} {α : Type}

/-- An arena with no slots. -/
def empty : Arena κ α := {}

/-- Number of entries. -/
def size (arena : Arena κ α) : Nat := arena.slots.size - κ.count arena.vacant

/-- The entry with a given id, if it lives. -/
def get? (arena : Arena κ α) (id : EntryId) : Option α := arena.slots[id.index]?.join

/-- Changes the entry with a given id, if it lives. -/
def modify (arena : Arena κ α) (id : EntryId) (f : α → α) : Arena κ α :=
  { arena with slots := arena.slots.modify id.index (·.map f) }

/-- Whether one more entry needs a larger block of storage. -/
def isFull (arena : Arena κ α) : Bool :=
  κ.mustGrow arena.vacant arena.slots.size arena.capacity

/-- Makes sure that there is room for one more entry. Fails if a larger block
is needed and not granted. -/
def reserve (arena : Arena κ α) (granted : Bool) : Option (Arena κ α) :=
  if !arena.isFull then some arena
  else if granted then some { arena with capacity := κ.grow arena.capacity }
  else none

/-- The id that the next entry gets. -/
def nextId (arena : Arena κ α) : EntryId := ⟨(κ.next arena.vacant).getD arena.slots.size⟩

/-- Puts an entry into a vacant slot, or into a new one. -/
def insert (arena : Arena κ α) (entry : α) : Arena κ α :=
  match κ.next arena.vacant with
  | some i =>
    { arena with
      slots := arena.slots.setIfInBounds i (some entry)
      vacant := κ.rest arena.vacant }
  | none => { arena with slots := arena.slots.push (some entry) }

/-- Vacates the slot of an entry. -/
def erase (arena : Arena κ α) (id : EntryId) : Arena κ α :=
  { arena with
    slots := arena.slots.setIfInBounds id.index none
    vacant := κ.vacate arena.vacant id.index }

/-- The entries with their ids, in the order of the slots. -/
def entries (arena : Arena κ α) : List (EntryId × α) :=
  arena.slots.toList.zipIdx.filterMap fun (slot, i) => slot.map (⟨i⟩, ·)

/-- Vacates every slot in use, in ascending order. -/
def clear (arena : Arena κ α) : Arena κ α :=
  { arena with
    slots := Array.replicate arena.slots.size none
    vacant := (arena.entries.map (·.1.index)).foldl κ.vacate arena.vacant }

@[simp] theorem size_empty : (empty : Arena κ α).size = 0 := Nat.zero_sub _

/-! ## reading after writing -/

@[simp] theorem get?_empty (id : EntryId) : (empty : Arena κ α).get? id = none := by
  simp [get?, empty]

theorem get?_modify (arena : Arena κ α) (id other : EntryId) (f : α → α) :
    (arena.modify id f).get? other =
      if id = other then (arena.get? other).map f else arena.get? other := by
  obtain ⟨i⟩ := id
  obtain ⟨j⟩ := other
  simp only [get?, modify, Array.getElem?_modify, EntryId.mk.injEq]
  split
  · cases arena.slots[j]? <;> simp
  · rfl

/-- Two changes of one entry are one. -/
theorem modify_modify (arena : Arena κ α) (id : EntryId) (f g : α → α) :
    (arena.modify id f).modify id g = arena.modify id (g ∘ f) := by
  simp only [modify, mk.injEq, and_self, and_true]
  refine Array.ext_getElem? fun i => ?_
  simp only [Array.getElem?_modify]
  split
  · simp [Option.map_map, Function.comp_def]
  · rfl

/-- Changes that commute can be made in either order. -/
theorem modify_comm (arena : Arena κ α) (id other : EntryId) {f g : α → α}
    (h : ∀ a, f (g a) = g (f a)) :
    (arena.modify id f).modify other g = (arena.modify other g).modify id f := by
  simp only [modify, mk.injEq, and_self, and_true]
  refine Array.ext_getElem? fun i => ?_
  simp only [Array.getElem?_modify]
  split
  · split
    · simp [Option.map_map, Function.comp_def, h]
    · rfl
  · rfl

theorem get?_erase (arena : Arena κ α) (id other : EntryId) :
    (arena.erase id).get? other = if id = other then none else arena.get? other := by
  obtain ⟨i⟩ := id
  obtain ⟨j⟩ := other
  simp only [get?, erase, Array.getElem?_setIfInBounds, EntryId.mk.injEq]
  split
  · split <;> simp
  · rfl

/-- Reserving changes nothing that can be read. -/
theorem get?_reserve {arena larger : Arena κ α} {granted : Bool}
    (h : arena.reserve granted = some larger) (id : EntryId) :
    larger.get? id = arena.get? id := by
  unfold reserve at h
  grind [get?]

@[simp] theorem get?_clear (arena : Arena κ α) (id : EntryId) : arena.clear.get? id = none := by
  simp only [get?, clear, Array.getElem?_replicate]
  split <;> simp

end Arena

end ChainedTable
