import ChainedTable.Walk.Basic

/-!
# ChainedTable.Walk.Script

Visitors given as data.

A script is a list of rules. At each entry, the first rule that applies says
what is done there, deed by deed; where none applies the entry is left alone.
What was seen and answered is recorded, visit by visit. The record is what the
visitor remembers, so it also tells how many visits there have been.
-/

namespace ChainedTable

/-- What a rule may look at: the entry as the visit finds it, and how many
visits there have been, this one included. -/
structure Sighting (K V : Type) where
  number : Nat
  key : K
  value : Option V
deriving DecidableEq, Repr

/-- Something to do at an entry. -/
inductive Deed (K V VS : Type) where
  /-- Do something with the value. -/
  | slot (action : SlotAction V VS)
  /-- Acquire a value and keep it; if it cannot be had, fail with the message
  of the failure. -/
  | insist (source : V)
  /-- Record the key. -/
  | key
  /-- Record the value. -/
  | value
  /-- Record whether a key has an entry. -/
  | contains (other : K)
  /-- Record the value of a key. -/
  | lookUp (other : K)
  /-- Record the state of the table. -/
  | readings
  /-- Remove the entry and release what it held. -/
  | erase
  /-- Remove the entry and record the value handed over. -/
  | take
  /-- End the walk. -/
  | stop
  /-- End the walk with an error. -/
  | fail (message : String)
deriving DecidableEq, Repr

/-- What came of a deed. -/
inductive Remark (F K V VS : Type) where
  | slot (reply : SlotReply V)
  | key (key : K)
  | value (value : Option V)
  | flag (answer : Bool)
  | readings (readings : Readings F)
  | taken (value : Option VS)

/-- When something is done, and what. -/
structure Rule (K V VS : Type) where
  applies : Sighting K V → Bool
  deeds : List (Deed K V VS)

/-- One visit in retrospect. -/
structure Record (F K V VS : Type) where
  sighting : Sighting K V
  remarks : List (Remark F K V VS)

namespace Script

variable {F ε K V VS ρ : Type}

/-- What a list of deeds wants once the entry is gone. -/
def verdict : List (Deed K V VS) → Verdict String
  | [] => .goOn
  | .stop :: _ => .stop
  | .fail message :: _ => .fail message
  | _ :: rest => verdict rest

/-- Does one deed after the other, and gives the remarks and the verdict. -/
def perform (copies : ε) (finish : List (Remark F K V VS) → Verdict String → ρ) :
    List (Deed K V VS) → List (Remark F K V VS) → Visit F ε K V VS ρ
  | [], remarks => .leave (finish remarks .goOn)
  | .slot action :: rest, remarks =>
    .slot copies action fun reply => perform copies finish rest (remarks ++ [.slot reply])
  | .insist source :: rest, remarks =>
    .slot copies (.store source) fun
      | .refused why => .leave (finish remarks (.fail why.message))
      | reply => perform copies finish rest (remarks ++ [.slot reply])
  | .key :: rest, remarks =>
    .key fun key => perform copies finish rest (remarks ++ [.key key])
  | .value :: rest, remarks =>
    .value fun value => perform copies finish rest (remarks ++ [.value value])
  | .contains other :: rest, remarks =>
    .contains other fun answer => perform copies finish rest (remarks ++ [.flag answer])
  | .lookUp other :: rest, remarks =>
    .lookUp other fun value => perform copies finish rest (remarks ++ [.value value])
  | .readings :: rest, remarks =>
    .readings fun readings => perform copies finish rest (remarks ++ [.readings readings])
  | .erase :: rest, remarks => .erase (finish remarks (verdict rest))
  | .take :: rest, remarks =>
    .take fun value => finish (remarks ++ [.taken value]) (verdict rest)
  | .stop :: _, remarks => .leave (finish remarks .stop)
  | .fail message :: _, remarks => .leave (finish remarks (.fail message))

/-- The visitor that follows a list of rules. -/
def visitor (copies : ε) (rules : List (Rule K V VS)) :
    Visitor F ε K V VS (Array (Record F K V VS)) String := fun records =>
  .key fun key => .value fun value =>
    let sighting : Sighting K V := ⟨records.size + 1, key, value⟩
    let deeds := (rules.find? (·.applies sighting)).elim [] (·.deeds)
    perform copies (fun remarks verdict => (records.push ⟨sighting, remarks⟩, verdict)) deeds []

end Script

end ChainedTable
