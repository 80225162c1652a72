import ChainedTable.Proofs.Reachable

/-!
# ChainedTable.Proofs.Visit

What one visit does to a table.

A visit works at the entry that a link holds.  Whatever it asks for on its way,
in the end the entry is on its chain with some value, or it was cut out of the
chain, and `Visit.left` tells which.  No other entry has changed
(`Visit.visits_run`).
-/

namespace ChainedTable

variable {F ε K KS V VS ρ : Type} {κ : Keeper} {p : Policies ε K KS V VS κ}

/-- The value that a visit leaves its entry with, unless it removes the entry. -/
def Visit.left [Scale F] (id : EntryId) :
    Visit F ε K V VS ρ → Table F p → Entry KS VS → Option (Option VS)
  | key next, t, entry => left id (next (p.keys.view entry.key)) t entry
  | value next, t, entry => left id (next (entry.value.map p.values.view)) t entry
  | slot copies action next, t, entry =>
    let did := action.run p copies entry.value
    left id (next did.reply) { t with toChains := t.toChains.setValue id did.value }
      { entry with value := did.value }
  | contains other next, t, entry => left id (next (t.contains other).answer) t entry
  | lookUp other next, t, entry => left id (next (t.get? other).answer) t entry
  | readings next, t, entry => left id (next t.readings) t entry
  | leave _, _, entry => some entry.value
  | erase _, _, _ => none
  | take _, _, _ => none

/-- The ids that are left of an entry's own. -/
def survivors (id : EntryId) (left : Option (Option VS)) : List EntryId :=
  if left.isSome then [id] else []

@[simp] theorem survivors_none (id : EntryId) :
    survivors id (none : Option (Option VS)) = [] := rfl

@[simp] theorem survivors_some (id : EntryId) (value : Option VS) :
    survivors id (some value) = [id] := rfl

namespace Table

/-- A table after a visit to one entry: the entry has the value it was left
with, or is gone from its chain, and nothing else is different. -/
structure Visits (t : Table F p) (lists : Nat → List EntryId) (bucket : Nat)
    (front : List EntryId) (id : EntryId) (rest : List EntryId) (held : Holding KS VS)
    (left : Option (Option VS)) (t' : Table F p) : Prop where
  spells : t'.Spells (Function.update lists bucket (front ++ survivors id left ++ rest))
  here : t'.holding? id = left.map fun value => { held with value }
  elsewhere {other : EntryId} : other ≠ id → t'.holding? other = t.holding? other
  heads : t'.heads.size = t.heads.size
  level : t'.level = t.level
  band : t'.band = t.band
  lastStep : t'.lastStep = t.lastStep

end Table

/-- An entry that is cut out of its chain. -/
theorem Table.visits_unlink {t : Table F p} {lists : Nat → List EntryId} {bucket : Nat}
    {front rest : List EntryId} {id : EntryId} {entry : Entry KS VS} (h : t.Spells lists)
    (hbucket : bucket < t.heads.size) (hlist : lists bucket = front ++ id :: rest)
    (hget : t.arena.get? id = some entry) :
    t.Visits lists bucket front id rest entry.holding none
      { t with toChains := t.toChains.unlink (.behind bucket front) id entry } where
  spells := by
    rw [survivors_none, List.append_nil]
    exact h.unlink hbucket hlist hget
  here := (Chains.holding?_unlink _ id).trans (if_pos rfl)
  elsewhere hne := (Chains.holding?_unlink _ _).trans (if_neg (Ne.symm hne))
  heads := Chains.size_heads_unlink _
  level := rfl
  band := rfl
  lastStep := rfl

/-- **One visit** changes or removes its own entry, and no other. -/
theorem Visit.visits_run [Scale F] (visit : Visit F ε K V VS ρ) {t : Table F p}
    {lists : Nat → List EntryId} {bucket : Nat} {front rest : List EntryId} {id : EntryId}
    {entry : Entry KS VS} (h : t.Spells lists) (hbucket : bucket < t.heads.size)
    (hlist : lists bucket = front ++ id :: rest) (hget : t.arena.get? id = some entry) :
    t.Visits lists bucket front id rest entry.holding (visit.left id t entry)
      (visit.run (.behind bucket front) id t entry).table := by
  induction visit generalizing t entry with
  | key next ih => exact ih _ h hbucket hget
  | value next ih => exact ih _ h hbucket hget
  | slot copies action next ih =>
      let value := (action.run p copies entry.value).value
      let changed : Table F p := { t with toChains := t.toChains.setValue id value }
      have hchanged : changed.Spells lists := h.setValue id value
      have hrest := ih (action.run p copies entry.value).reply hchanged hbucket
        (Table.get?_setValue hget value)
      refine ⟨hrest.spells, hrest.here, fun hne => (hrest.elsewhere hne).trans ?_,
        hrest.heads, hrest.level, hrest.band, hrest.lastStep⟩
      exact Chains.holding?_setValue_of_ne hne _
  | contains other next ih => exact ih _ h hbucket hget
  | lookUp other next ih => exact ih _ h hbucket hget
  | readings next ih => exact ih _ h hbucket hget
  | leave result =>
      refine ⟨?_, Chains.holding?_of_get? hget, fun _ => rfl, rfl, rfl, rfl, rfl⟩
      have hself : Function.update lists bucket (front ++ survivors id (some entry.value) ++ rest) =
          lists := by
        rw [Function.update_eq_self_iff, hlist, survivors_some]
        simp
      rw [← hself] at h
      exact h
  | erase result => exact Table.visits_unlink h hbucket hlist hget
  | take result => exact Table.visits_unlink h hbucket hlist hget

end ChainedTable
