/-!
# ChainedTable.Arena.Keeper

How an arena keeps its slots.

An arena leaves it to a `Keeper` which vacant slot is taken next, how large the
block of storage is at first, when it must grow, and how large it becomes.
Whatever the keeper does, four things can be relied on:

1. a slot that is vacated is vacant (`Keeper.indices_vacate`);
2. a vacant slot is taken before a new one comes into use
   (`Keeper.indices_of_next_eq_none`, `Keeper.indices_of_next_eq_some`);
3. the block must grow exactly when no slot is vacant and the slots in use, with
   the one place that is taken from the start, fill it (`Keeper.mustGrow_iff`);
4. a block that grew has room for one more (`Keeper.lt_grow`).

With `Keeper.stack` the slot vacated last is taken first, and the block doubles. The
arenas of tables are kept like that, by `Keeper.usual`, where nothing else is said.
-/

namespace ChainedTable

/-- What becomes of vacant slots, and how a block of storage grows. -/
structure Keeper where
  /-- What is kept of the vacant slots. -/
  Vacancies : Type
  decEq : DecidableEq Vacancies
  /-- No slot is vacant. -/
  empty : Vacancies
  /-- The vacant slots. -/
  indices : Vacancies → List Nat
  /-- Number of vacant slots. -/
  count : Vacancies → Nat
  /-- Keeps one more vacant slot. -/
  vacate : Vacancies → Nat → Vacancies
  /-- The vacant slot that is taken next; if there is none, a new slot comes into use. -/
  next : Vacancies → Option Nat
  /-- What is kept once that slot was taken. -/
  rest : Vacancies → Vacancies
  /-- Whether one more entry needs a larger block, with so many slots in use and so many
  places in the block. -/
  mustGrow : Vacancies → (slots capacity : Nat) → Bool
  /-- Number of places of the first block. -/
  least : Nat
  /-- Number of places of the larger block. -/
  grow : (capacity : Nat) → Nat
  indices_empty : indices empty = []
  length_indices (vacant : Vacancies) : (indices vacant).length = count vacant
  /-- **A slot that is vacated is vacant.** -/
  indices_vacate (vacant : Vacancies) (i : Nat) :
    (indices (vacate vacant i)).Perm (i :: indices vacant)
  /-- **A vacant slot is taken** before a new one comes into use. -/
  indices_of_next_eq_none {vacant : Vacancies} : next vacant = none → indices vacant = []
  indices_of_next_eq_some {vacant : Vacancies} {i : Nat} :
    next vacant = some i → (indices vacant).Perm (i :: indices (rest vacant))
  /-- **The block must grow** exactly when no slot is vacant and the block is used up. -/
  mustGrow_iff {vacant : Vacancies} {slots capacity : Nat} :
    mustGrow vacant slots capacity = true ↔ indices vacant = [] ∧ slots + 1 = capacity
  /-- The first block has the place that is taken from the start. -/
  least_pos : 0 < least
  /-- **A block that grew** has room for one more. -/
  lt_grow (capacity : Nat) : capacity < grow capacity

namespace Keeper

instance (κ : Keeper) : DecidableEq κ.Vacancies := κ.decEq

variable {κ : Keeper}

/-- A slot that is taken was vacant. -/
theorem mem_indices_of_next {vacant : κ.Vacancies} {i : Nat} (h : κ.next vacant = some i) :
    i ∈ κ.indices vacant :=
  (κ.indices_of_next_eq_some h).mem_iff.mpr List.mem_cons_self

/-- Slots that are vacated one after the other are vacant. -/
theorem indices_foldl_vacate (vacant : κ.Vacancies) (indices : List Nat) :
    (κ.indices (indices.foldl κ.vacate vacant)).Perm (indices ++ κ.indices vacant) := by
  induction indices generalizing vacant with
  | nil => exact List.Perm.refl _
  | cons i rest ih =>
      have hfirst := (κ.indices_vacate vacant i).append_left rest
      exact (ih _).trans (hfirst.trans List.perm_middle)

/-- Vacant slots on a stack, and a block that has one place at first and grows to twice its
size, or to `grown` places if that is more. -/
def stack (grown : Nat) (hgrown : 0 < grown) : Keeper where
  Vacancies := Array Nat
  decEq := inferInstance
  empty := #[]
  indices := Array.toList
  count := Array.size
  vacate := Array.push
  next := Array.back?
  rest := Array.pop
  mustGrow vacant slots capacity := vacant.isEmpty && slots + 1 == capacity
  least := 1
  grow capacity := max grown (2 * capacity)
  indices_empty := rfl
  length_indices _ := Array.length_toList
  indices_vacate vacant i := by
    rw [Array.toList_push]
    exact List.perm_append_singleton i vacant.toList
  indices_of_next_eq_none h := by simpa using h
  indices_of_next_eq_some {vacant i} h := by
    obtain ⟨below, rfl⟩ := Array.back?_eq_some_iff.mp h
    rw [Array.toList_push, Array.pop_push]
    exact List.perm_append_singleton i below.toList
  mustGrow_iff := by simp
  least_pos := Nat.one_pos
  lt_grow capacity := by omega

/-- A stack of vacant slots, and a block of four places once it has grown. -/
def usual : Keeper := stack 4 (Nat.succ_pos 3)

end Keeper

end ChainedTable
