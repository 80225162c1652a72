import ChainedTable.Walk.Basic

/-!
# ChainedTable.Request

Calls on a table as data, and runs of many calls.

A `Request` is one call of the public interface, and `Request.run` carries it
out. What a table can become is what a list of requests makes of an empty one,
each with a supply of its own: `Table.runAll`. A caller owns a table or has
given it up: `Owner`.
-/

namespace ChainedTable

/-- A call on a table. -/
inductive Request (F ε K V VS σ ω : Type) where
  /-- Map a key to a value or to none. -/
  | insert (key : K) (value : Option V)
  /-- Map a key to no value, and then work on the value of its entry. -/
  | openSlot (key : K) (actions : List (ε × SlotAction V VS))
  /-- Ask whether a key has an entry. -/
  | contains (key : K)
  /-- Ask for the value of a key. -/
  | lookUp (key : K)
  /-- Remove a key and hand its value over. -/
  | take (key : K)
  /-- Remove a key. -/
  | erase (key : K)
  /-- Release every entry. -/
  | clear
  /-- Take one density step. -/
  | densityStep
  /-- Visit every entry. -/
  | walk (memory : σ) (visitor : Visitor F ε K V VS σ ω)

/-- The answer to a request. -/
inductive Reply (V VS σ ω : Type) where
  /-- Whether `insert` made an entry. -/
  | inserted (result : Except Failure Bool)
  /-- The replies to the slot actions after `openSlot`. -/
  | filled (result : Except Failure (List (SlotReply V)))
  /-- Whether a key has an entry. -/
  | flag (answer : Bool)
  /-- The value of a key. -/
  | content (value : Option V)
  /-- A value handed over. -/
  | taken (value : Option VS)
  /-- Done, and nothing to tell. -/
  | done
  /-- The outcome of a density step. -/
  | stepped (step : StepOutcome)
  /-- The result of a walk. -/
  | toured (tour : Tour σ ω)

variable {F ε K KS V VS σ ω : Type} {κ : Keeper} {p : Policies ε K KS V VS κ}

/-- `openSlot`, and slot actions on the entry it answers. -/
def Table.openSlotAnd [Scale F] (t : Table F p) (supply : Supply ε) (key : K)
    (actions : List (ε × SlotAction V VS)) :
    Outcome F p (Except Failure (List (SlotReply V))) :=
  let opened := t.openSlot supply key
  match opened.answer with
  | .error why => ⟨.error why, opened.table, opened.journal⟩
  | .ok id => ((opened.table.onSlots id actions).map .ok).after opened.journal

/-- Carries out a request. -/
def Request.run [Scale F] (supply : Supply ε) (t : Table F p) :
    Request F ε K V VS σ ω → Outcome F p (Reply V VS σ ω)
  | insert key value => (t.insert supply key value).map .inserted
  | openSlot key actions => (t.openSlotAnd supply key actions).map .filled
  | contains key => (t.contains key).map .flag
  | lookUp key => (t.get? key).map .content
  | take key => (t.take supply key).map .taken
  | erase key => (t.erase supply key).map fun _ => .done
  | clear => t.clear.map fun _ => .done
  | densityStep => (t.densityStep supply).map .stepped
  | walk memory visitor => (t.walk supply memory visitor).map .toured

/-- Carries out requests in order, each with its own supply. -/
def Table.runAll [Scale F] (t : Table F p) :
    List (Supply ε × Request F ε K V VS σ ω) → Outcome F p (List (Reply V VS σ ω))
  | [] => ⟨[], t, []⟩
  | (supply, request) :: rest =>
    let first := request.run supply t
    ((first.table.runAll rest).map (first.answer :: ·)).after first.journal

/-- A table that someone owns, unless it was freed. -/
abbrev Owner (F : Type) {ε K KS V VS : Type} {κ : Keeper}
    (policies : Policies ε K KS V VS κ) : Type :=
  Option (Table F policies)

namespace Owner

/-- Frees the table, if there is one; nothing is owned afterwards. -/
def free : Owner F p → Owner F p × List (Event K KS V VS)
  | none => (none, [])
  | some t => (none, t.free)

/-- What happens when the owner goes out of use. -/
def dispose : Owner F p → List (Event K KS V VS)
  | none => []
  | some t => t.dispose

end Owner

/-- A run of requests and then of more requests is one run. -/
theorem Table.table_runAll_append [Scale F] (t : Table F p)
    (first rest : List (Supply ε × Request F ε K V VS σ ω)) :
    (t.runAll (first ++ rest)).table = ((t.runAll first).table.runAll rest).table := by
  induction first generalizing t with
  | nil => rfl
  | cons request first ih => exact ih _

/-- The journal of two runs one after the other. -/
theorem Table.journal_runAll_append [Scale F] (t : Table F p)
    (first rest : List (Supply ε × Request F ε K V VS σ ω)) :
    (t.runAll (first ++ rest)).journal =
      (t.runAll first).journal ++ ((t.runAll first).table.runAll rest).journal := by
  induction first generalizing t with
  | nil => rfl
  | cons request first ih => simp [Table.runAll, ih, List.append_assoc]

end ChainedTable
