import ChainedTable.Arena
import Mathlib.Data.List.Perm.Subperm
import Mathlib.Data.List.Nodup

/-!
# ChainedTable.Arena.Valid

Arenas as operations make them, and how large they are.

An arena is valid if its keeper names every vacant slot once and nothing else,
and the block of storage has room for the slots in use. Every operation keeps
this, and in a valid arena

* `nextId` is the id of no entry, and reading after `insert` finds the new
  entry there and all else unchanged (`Valid.get?_insert`);
* `size` is the number of entries (`Valid.length_entries`), one more after
  `insert` and one less after `erase`.
-/

namespace ChainedTable.Arena

variable {κ : Keeper} {α : Type}

/-- The keeper names the vacant slots, and the block holds the slots in use. -/
structure Valid (arena : Arena κ α) : Prop where
  mem_vacant_iff (i : Nat) : i ∈ κ.indices arena.vacant ↔ arena.slots[i]? = some none
  nodup_vacant : (κ.indices arena.vacant).Nodup
  size_lt_capacity : arena.slots.size < arena.capacity

/-- One more entry needs no larger block. -/
def HasRoom (arena : Arena κ α) : Prop :=
  κ.indices arena.vacant ≠ [] ∨ arena.slots.size + 1 < arena.capacity

theorem valid_empty : (empty : Arena κ α).Valid where
  mem_vacant_iff i := by simp [empty, κ.indices_empty]
  nodup_vacant := by simp [empty, κ.indices_empty]
  size_lt_capacity := κ.least_pos

/-! ## vacant slots -/

theorem get?_eq_some_iff {arena : Arena κ α} {id : EntryId} {x : α} :
    arena.get? id = some x ↔ arena.slots[id.index]? = some (some x) :=
  Option.join_eq_some_iff

/-- The slot of an entry is in use. -/
theorem index_lt_of_get? {arena : Arena κ α} {id : EntryId} {x : α}
    (hx : arena.get? id = some x) : id.index < arena.slots.size :=
  (Array.getElem?_eq_some_iff.mp (get?_eq_some_iff.mp hx)).1

theorem Valid.lt_of_mem_vacant {arena : Arena κ α} (h : arena.Valid) {i : Nat}
    (hi : i ∈ κ.indices arena.vacant) : i < arena.slots.size := by
  have hnone := (h.mem_vacant_iff i).mp hi
  exact (Array.getElem?_eq_some_iff.mp hnone).1

/-- The slot of an entry is not vacant. -/
theorem Valid.not_mem_vacant {arena : Arena κ α} (h : arena.Valid) {id : EntryId} {x : α}
    (hx : arena.get? id = some x) : id.index ∉ κ.indices arena.vacant := by
  rw [h.mem_vacant_iff, get?_eq_some_iff.mp hx]
  exact nofun

/-- Distinct indices below a bound are no more than the bound. -/
theorem length_le_of_nodup_of_lt {l : List Nat} {n : Nat} (hl : l.Nodup)
    (hn : ∀ i ∈ l, i < n) : l.length ≤ n := by
  have hsub : l ⊆ List.range n := fun i hi => List.mem_range.mpr (hn i hi)
  simpa using (List.subperm_of_subset hl hsub).length_le

theorem Valid.count_vacant_le {arena : Arena κ α} (h : arena.Valid) :
    κ.count arena.vacant ≤ arena.slots.size := by
  rw [← κ.length_indices]
  exact length_le_of_nodup_of_lt h.nodup_vacant fun i hi => h.lt_of_mem_vacant hi

/-- Where an entry lives, not all slots are vacant. -/
theorem Valid.count_vacant_lt {arena : Arena κ α} (h : arena.Valid) {id : EntryId} {x : α}
    (hx : arena.get? id = some x) : κ.count arena.vacant < arena.slots.size := by
  have hnodup : (id.index :: κ.indices arena.vacant).Nodup :=
    List.nodup_cons.mpr ⟨h.not_mem_vacant hx, h.nodup_vacant⟩
  have hle := length_le_of_nodup_of_lt hnodup fun i hi => by
    rcases List.mem_cons.mp hi with rfl | hi
    · exact index_lt_of_get? hx
    · exact h.lt_of_mem_vacant hi
  rw [List.length_cons, κ.length_indices] at hle
  omega

/-! ## making room -/

/-- A larger block is needed if no slot is vacant and the block is used up. -/
theorem isFull_iff {arena : Arena κ α} : arena.isFull = true ↔
    κ.indices arena.vacant = [] ∧ arena.slots.size + 1 = arena.capacity :=
  κ.mustGrow_iff

theorem Valid.reserve {arena larger : Arena κ α} {granted : Bool} (h : arena.Valid)
    (hr : arena.reserve granted = some larger) : larger.Valid ∧ larger.HasRoom := by
  have hcap := h.size_lt_capacity
  unfold Arena.reserve at hr
  split at hr
  · next hfull =>
    obtain rfl := Option.some.inj hr
    refine ⟨h, ?_⟩
    by_cases hv : κ.indices arena.vacant = []
    · right
      have hnot : ¬(arena.isFull = true) := by simpa using hfull
      rw [isFull_iff] at hnot
      have : arena.slots.size + 1 ≠ arena.capacity := fun heq => hnot ⟨hv, heq⟩
      omega
    · exact Or.inl hv
  · next hfull =>
    have hfull : arena.isFull = true := by simpa using hfull
    have hgrows := κ.lt_grow arena.capacity
    have huse := (isFull_iff.mp hfull).2
    split at hr
    · obtain rfl := Option.some.inj hr
      refine ⟨⟨h.mem_vacant_iff, h.nodup_vacant, by dsimp only; omega⟩, Or.inr ?_⟩
      dsimp only
      omega
    · contradiction

/-! ## putting an entry in -/

/-- The next id is free. -/
theorem Valid.get?_nextId {arena : Arena κ α} (h : arena.Valid) :
    arena.get? arena.nextId = none := by
  unfold get? nextId
  cases hnext : κ.next arena.vacant with
  | none => simp
  | some i => simp [(h.mem_vacant_iff i).mp (Keeper.mem_indices_of_next hnext)]

theorem Valid.get?_insert {arena : Arena κ α} (h : arena.Valid) (x : α) (id : EntryId) :
    (arena.insert x).get? id = if id = arena.nextId then some x else arena.get? id := by
  obtain ⟨j⟩ := id
  unfold get? nextId Arena.insert
  cases hnext : κ.next arena.vacant with
  | none =>
    simp only [Array.getElem?_push, Option.getD_none, EntryId.mk.injEq]
    split <;> simp
  | some i =>
    have hi := h.lt_of_mem_vacant (Keeper.mem_indices_of_next hnext)
    simp only [Array.getElem?_setIfInBounds, Option.getD_some, EntryId.mk.injEq]
    by_cases hij : j = i
    · simp [hij, hi]
    · simp [hij, Ne.symm hij]

theorem Valid.size_insert {arena : Arena κ α} (h : arena.Valid) (x : α) :
    (arena.insert x).size = arena.size + 1 := by
  have hle := h.count_vacant_le
  unfold size Arena.insert
  cases hnext : κ.next arena.vacant with
  | none =>
    have hcount := κ.length_indices arena.vacant
    rw [κ.indices_of_next_eq_none hnext] at hcount
    simp [← hcount]
  | some i =>
    have hcount := (κ.indices_of_next_eq_some hnext).length_eq
    rw [List.length_cons, κ.length_indices, κ.length_indices] at hcount
    simp only [Array.size_setIfInBounds]
    omega

theorem Valid.insert {arena : Arena κ α} (h : arena.Valid) (hroom : arena.HasRoom) (x : α) :
    (arena.insert x).Valid := by
  have hcap := h.size_lt_capacity
  unfold Arena.insert
  cases hnext : κ.next arena.vacant with
  | none =>
    have hv := κ.indices_of_next_eq_none hnext
    have hroom : arena.slots.size + 1 < arena.capacity := by
      rcases hroom with hne | hlt
      · exact absurd hv hne
      · exact hlt
    refine ⟨fun i => ?_, h.nodup_vacant, by simpa using hroom⟩
    have := h.mem_vacant_iff i
    simp only [Array.getElem?_push]
    split <;> simp_all
  | some i =>
    have hperm := κ.indices_of_next_eq_some hnext
    have hi := h.lt_of_mem_vacant (Keeper.mem_indices_of_next hnext)
    obtain ⟨hnot, hnodup⟩ := List.nodup_cons.mp (hperm.nodup_iff.mp h.nodup_vacant)
    refine ⟨fun j => ?_, hnodup, by simpa using hcap⟩
    have hj := h.mem_vacant_iff j
    rw [hperm.mem_iff, List.mem_cons] at hj
    by_cases heq : i = j
    · subst heq
      simp [hnot, hi]
    · rw [Array.getElem?_setIfInBounds_ne heq, ← hj]
      simp [Ne.symm heq]

/-! ## taking an entry out -/

theorem Valid.erase {arena : Arena κ α} (h : arena.Valid) {id : EntryId} {x : α}
    (hx : arena.get? id = some x) : (arena.erase id).Valid := by
  have hlt := index_lt_of_get? hx
  have hperm := κ.indices_vacate arena.vacant id.index
  unfold Arena.erase
  refine ⟨fun i => ?_, ?_, by simpa using h.size_lt_capacity⟩
  · have hi := h.mem_vacant_iff i
    rw [hperm.mem_iff, List.mem_cons, hi]
    by_cases heq : id.index = i
    · subst heq
      simp [hlt]
    · simp [Array.getElem?_setIfInBounds_ne heq, Ne.symm heq]
  · exact hperm.nodup_iff.mpr (List.nodup_cons.mpr ⟨h.not_mem_vacant hx, h.nodup_vacant⟩)

theorem Valid.size_erase {arena : Arena κ α} (h : arena.Valid) {id : EntryId} {x : α}
    (hx : arena.get? id = some x) : (arena.erase id).size + 1 = arena.size := by
  have hlt := h.count_vacant_lt hx
  have hcount := (κ.indices_vacate arena.vacant id.index).length_eq
  rw [List.length_cons, κ.length_indices, κ.length_indices] at hcount
  simp only [size, Arena.erase, Array.size_setIfInBounds]
  omega

/-! ## changing an entry -/

theorem Valid.modify {arena : Arena κ α} (h : arena.Valid) (id : EntryId) (f : α → α) :
    (arena.modify id f).Valid := by
  unfold Arena.modify
  refine ⟨fun i => ?_, h.nodup_vacant, by simpa using h.size_lt_capacity⟩
  rw [h.mem_vacant_iff i, Array.getElem?_modify]
  split
  · cases arena.slots[i]? with
    | none => simp
    | some slot => cases slot <;> simp
  · rfl

@[simp] theorem size_modify (arena : Arena κ α) (id : EntryId) (f : α → α) :
    (arena.modify id f).size = arena.size := by
  simp [size, Arena.modify]

/-! ## all entries -/

theorem mem_entries_iff {arena : Arena κ α} {id : EntryId} {x : α} :
    (id, x) ∈ arena.entries ↔ arena.get? id = some x := by
  simp only [entries, List.mem_filterMap, Prod.exists, Option.map_eq_some_iff, Prod.mk.injEq,
    List.mem_zipIdx_iff_getElem?, Array.getElem?_toList, get?_eq_some_iff]
  constructor
  · rintro ⟨slot, i, hslot, y, rfl, rfl, rfl⟩
    exact hslot
  · intro h
    exact ⟨some x, id.index, h, x, rfl, rfl, rfl⟩

/-- Picking slots by what they hold, no index is picked twice. -/
private theorem nodup_filterMap_zipIdx {β : Type} (l : List β) {pick : β × Nat → Option Nat}
    (hpick : ∀ p, pick p = none ∨ pick p = some p.2) : (l.zipIdx.filterMap pick).Nodup := by
  have hsub : (l.zipIdx.filterMap pick).Sublist (l.zipIdx.map (·.2)) := by
    induction l.zipIdx with
    | nil => exact List.Sublist.refl _
    | cons p ps ih =>
      rcases hpick p with hnone | hsome
      · simpa [hnone] using ih.cons p.2
      · simpa [hsome] using ih.cons_cons p.2
  rw [List.zipIdx_map_snd] at hsub
  exact hsub.nodup List.nodup_range'

private theorem nodup_index_entries (arena : Arena κ α) :
    (arena.entries.map (·.1.index)).Nodup := by
  rw [entries, List.map_filterMap]
  exact nodup_filterMap_zipIdx _ fun (slot, i) => by cases slot <;> simp

/-- No id is listed twice. -/
theorem nodup_entries (arena : Arena κ α) : (arena.entries.map (·.1)).Nodup :=
  List.Nodup.of_map EntryId.index
    (by simpa [Function.comp_def] using nodup_index_entries arena)

/-- The indices of the vacant slots, in ascending order. -/
private def vacancies (arena : Arena κ α) : List Nat :=
  arena.slots.toList.zipIdx.filterMap fun (slot, i) => if slot.isNone then some i else none

private theorem length_entries_add_vacancies (arena : Arena κ α) :
    arena.entries.length + arena.vacancies.length = arena.slots.size := by
  have hlen : arena.slots.toList.zipIdx.length = arena.slots.size := by simp
  rw [← hlen]
  unfold entries vacancies
  induction arena.slots.toList.zipIdx with
  | nil => rfl
  | cons p ps ih =>
    obtain ⟨slot, i⟩ := p
    cases slot <;> simp at ih ⊢ <;> omega

private theorem Valid.perm_vacancies {arena : Arena κ α} (h : arena.Valid) :
    arena.vacancies.Perm (κ.indices arena.vacant) := by
  have hnodup : arena.vacancies.Nodup :=
    nodup_filterMap_zipIdx _ fun (slot, i) => by cases slot <;> simp
  refine (List.perm_ext_iff_of_nodup hnodup h.nodup_vacant).mpr fun i => ?_
  rw [h.mem_vacant_iff]
  simp [vacancies, List.mem_zipIdx_iff_getElem?]

/-- `size` counts the entries. -/
theorem Valid.length_entries {arena : Arena κ α} (h : arena.Valid) :
    arena.entries.length = arena.size := by
  have hsum := length_entries_add_vacancies arena
  have hcount := h.perm_vacancies.length_eq
  rw [κ.length_indices] at hcount
  unfold size
  omega

/-! ## taking all entries out -/

theorem Valid.clear {arena : Arena κ α} (h : arena.Valid) : arena.clear.Valid := by
  have hperm := Keeper.indices_foldl_vacate arena.vacant (arena.entries.map (·.1.index))
  unfold Arena.clear
  refine ⟨fun i => ?_, ?_, by simpa using h.size_lt_capacity⟩
  · have hi := h.mem_vacant_iff i
    simp only [hperm.mem_iff, List.mem_append, hi, List.mem_map, Prod.exists,
      Array.getElem?_replicate]
    constructor
    · rintro (⟨id, x, hx, rfl⟩ | hnone)
      · simp [index_lt_of_get? (mem_entries_iff.mp hx)]
      · simp [(Array.getElem?_eq_some_iff.mp hnone).1]
    · intro hlt
      have hlt : i < arena.slots.size := by
        by_contra hge
        simp [hge] at hlt
      cases hs : arena.slots[i] with
      | none => exact Or.inr (Array.getElem?_eq_some_iff.mpr ⟨hlt, hs⟩)
      | some x =>
        refine Or.inl ⟨⟨i⟩, x, mem_entries_iff.mpr ?_, rfl⟩
        exact get?_eq_some_iff.mpr (Array.getElem?_eq_some_iff.mpr ⟨hlt, hs⟩)
  · rw [hperm.nodup_iff, List.nodup_append]
    refine ⟨nodup_index_entries arena, h.nodup_vacant, ?_⟩
    rintro i hi j hj rfl
    obtain ⟨⟨id, x⟩, hx, rfl⟩ := List.mem_map.mp hi
    exact h.not_mem_vacant (mem_entries_iff.mp hx) hj

/-- Nothing is left in a cleared arena. -/
theorem Valid.size_clear {arena : Arena κ α} (h : arena.Valid) : arena.clear.size = 0 := by
  rw [← h.clear.length_entries, List.length_eq_zero_iff, List.eq_nil_iff_forall_not_mem]
  rintro ⟨id, x⟩ hx
  simpa using mem_entries_iff.mp hx

end ChainedTable.Arena
