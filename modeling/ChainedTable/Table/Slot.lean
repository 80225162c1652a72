import ChainedTable.Table.Update

/-!
# ChainedTable.Table.Slot

Working on the value of one entry.

A `SlotAction` is one thing that can be done with the value of an entry, once
the entry is at hand: after `Table.openSlot`, or during a walk. Three of them
go through the storage policy of the values:

1. `store` acquires a value, keeps it and releases the old one; if the value
   cannot be had, the old one stays;
2. `put` keeps what the caller already owns, and releases the old value;
3. `clear` releases the value.

Two bypass the policy: `replace` and `overwrite` let the caller write to the
stored value itself, and what was there before is not released.
-/

namespace ChainedTable

/-- Something to do with the value of an entry. -/
inductive SlotAction (V VS : Type) where
  /-- Acquire a value and keep it. -/
  | store (source : V)
  /-- Keep what the caller owns. -/
  | put (stored : VS)
  /-- Leave no value. -/
  | clear
  /-- Look at the value. -/
  | look
  /-- Ask whether there is no value. -/
  | isEmpty
  /-- Write over the value in place, if there is one. -/
  | replace (stored : VS)
  /-- Write over whatever there is. -/
  | overwrite (stored : Option VS)
deriving DecidableEq, Repr

/-- The answer to a slot action. -/
inductive SlotReply (V : Type) where
  /-- Done, and nothing to tell. -/
  | done
  /-- A value could not be acquired. -/
  | refused (why : Failure)
  /-- The value looked at. -/
  | content (value : Option V)
  /-- The answer to a question. -/
  | flag (answer : Bool)
deriving DecidableEq, Repr

/-- What a slot action gives: its reply, the value afterwards, and what
happened to values meanwhile. -/
structure SlotOutcome (K KS V VS : Type) where
  reply : SlotReply V
  value : Option VS
  journal : List (Event K KS V VS)

namespace SlotAction

variable {ε K KS V VS : Type} {κ : Keeper}

/-- Does something with a value. -/
def run (p : Policies ε K KS V VS κ) (copies : ε) (value : Option VS) :
    SlotAction V VS → SlotOutcome K KS V VS
  | store source =>
    match p.values.acquire copies source with
    | .error why => ⟨.refused why, value, [.value (.denied source)]⟩
    | .ok stored =>
      ⟨.done, some stored, .value (.acquired stored) :: Policies.releaseValue value⟩
  | put stored =>
    ⟨.done, some stored, .value (.supplied stored) :: Policies.releaseValue value⟩
  | clear => ⟨.done, none, Policies.releaseValue value⟩
  | look => ⟨.content (value.map p.values.view), value, []⟩
  | isEmpty => ⟨.flag value.isNone, value, []⟩
  | replace stored =>
    match value with
    | none => ⟨.flag false, none, []⟩
    | some old =>
      ⟨.flag true, some stored, [.value (.overwritten old), .value (.supplied stored)]⟩
  | overwrite stored =>
    ⟨.done, stored,
      Policies.eachValue .overwritten value ++ Policies.eachValue .supplied stored⟩

end SlotAction

namespace Table

variable {F ε K KS V VS : Type} {κ : Keeper} {p : Policies ε K KS V VS κ}

/-- Does something with the value of a living entry. -/
def onSlot (t : Table F p) (id : EntryId) (copies : ε) (action : SlotAction V VS) :
    Outcome F p (SlotReply V) :=
  let did := action.run p copies ((t.arena.get? id).bind (·.value))
  ⟨did.reply, { t with toChains := t.toChains.setValue id did.value }, did.journal⟩

/-- Does several things with the value of a living entry. Each comes with what
the copy functions look at meanwhile. -/
def onSlots (t : Table F p) (id : EntryId) :
    List (ε × SlotAction V VS) → Outcome F p (List (SlotReply V))
  | [] => ⟨[], t, []⟩
  | (copies, action) :: rest =>
    let did := t.onSlot id copies action
    ((onSlots did.table id rest).map (did.answer :: ·)).after did.journal

end Table

end ChainedTable
