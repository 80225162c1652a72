import ChainedTable.Table.Slot

/-!
# ChainedTable.Walk.Visit

What a visitor does at one entry.

A `Visit` is a program that asks for one thing at a time and goes on with the
answer. It may read the entry it is at and the whole table, and work on the
value of its entry. It ends in one of three ways: it leaves the entry where it
is, erases it, or takes it, and only then gives its result. So a visit has no
way to change the table other than at its own entry, and none to touch the
entry once it is gone.

`Visit.run` carries a visit out at the entry that a given link holds.
-/

namespace ChainedTable

/-- A program for one entry, with a result of type `ρ`. -/
inductive Visit (F ε K V VS ρ : Type) where
  /-- Look at the key of the entry. -/
  | key (next : K → Visit F ε K V VS ρ)
  /-- Look at the value of the entry. -/
  | value (next : Option V → Visit F ε K V VS ρ)
  /-- Do something with the value of the entry. -/
  | slot (copies : ε) (action : SlotAction V VS) (next : SlotReply V → Visit F ε K V VS ρ)
  /-- Ask the table whether a key has an entry. -/
  | contains (other : K) (next : Bool → Visit F ε K V VS ρ)
  /-- Ask the table for the value of a key. -/
  | lookUp (other : K) (next : Option V → Visit F ε K V VS ρ)
  /-- Read off the state of the table. -/
  | readings (next : Readings F → Visit F ε K V VS ρ)
  /-- Leave the entry in the table. -/
  | leave (result : ρ)
  /-- Remove the entry and release its key and value. -/
  | erase (result : ρ)
  /-- Remove the entry, release its key, and hand its value over. -/
  | take (result : Option VS → ρ)

namespace Visit

variable {F ε K KS V VS ρ : Type} [Scale F] {κ : Keeper} {p : Policies ε K KS V VS κ}

/-- Carries out a visit at the entry with a given id, which a given link
holds. -/
def run (link : Link) (id : EntryId) :
    Visit F ε K V VS ρ → (t : Table F p) → (entry : Entry KS VS) → Outcome F p ρ
  | key next, t, entry => run link id (next (p.keys.view entry.key)) t entry
  | value next, t, entry => run link id (next (entry.value.map p.values.view)) t entry
  | slot copies action next, t, entry =>
    let did := action.run p copies entry.value
    let t : Table F p := { t with toChains := t.toChains.setValue id did.value }
    (run link id (next did.reply) t { entry with value := did.value }).after did.journal
  | contains other next, t, entry =>
    let asked := t.contains other
    (run link id (next asked.answer) t entry).after asked.journal
  | lookUp other next, t, entry =>
    let asked := t.get? other
    (run link id (next asked.answer) t entry).after asked.journal
  | readings next, t, entry => run link id (next t.readings) t entry
  | leave result, t, _ => ⟨result, t, []⟩
  | erase result, t, entry => (t.eraseAt link id entry).map fun _ => result
  | take result, t, entry => (t.takeAt link id entry).map result

end Visit

end ChainedTable
