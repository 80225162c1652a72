import ChainedTable.Table.Update

/-!
# ChainedTable.Sweep

The same call for many keys, one after the other.

`Table.sweep` makes one call per item and counts what came of it. It also
notes each item at which the record of the last density step became another
one, for that is where the bucket array moved or failed to.
-/

namespace ChainedTable

/-- What came of one call in a sweep. -/
inductive Hit where
  /-- It had an effect. -/
  | hit
  /-- It had none. -/
  | miss
  /-- It failed. -/
  | failed
deriving DecidableEq, Repr

/-- What came of a sweep. -/
structure Tally (ι : Type) where
  hits : Nat := 0
  errors : Nat := 0
  /-- Items at which the record of the last density step changed. -/
  moves : Array (ι × StepOutcome) := #[]
deriving DecidableEq, Repr

namespace Table

variable {F ε K KS V VS ι : Type} {κ : Keeper} {p : Policies ε K KS V VS κ}

/-- The rest of a sweep, after a part with a given tally and journal. -/
def sweepOn (call : Table F p → ι → Outcome F p Hit) (tally : Tally ι)
    (journal : Array (Event K KS V VS)) (t : Table F p) : List ι → Outcome F p (Tally ι)
  | [] => ⟨tally, t, journal.toList⟩
  | item :: rest =>
    let before := t.lastStep
    let ⟨came, t, calls⟩ := call t item
    let tally : Tally ι :=
      { hits := tally.hits + (if came = .hit then 1 else 0)
        errors := tally.errors + (if came = .failed then 1 else 0)
        moves := if t.lastStep = before then tally.moves
          else tally.moves.push (item, t.lastStep) }
    sweepOn call tally (journal ++ calls) t rest

/-- Makes one call per item. The journal is that of all calls together. -/
def sweep (t : Table F p) (call : Table F p → ι → Outcome F p Hit) (items : List ι) :
    Outcome F p (Tally ι) :=
  sweepOn call {} #[] t items

/-- Maps many keys; a hit is an entry made. -/
def insertEach [Scale F] (t : Table F p) (supply : Supply ε) (key : ι → K)
    (value : ι → Option V) (items : List ι) : Outcome F p (Tally ι) :=
  let call (t : Table F p) (item : ι) : Outcome F p Hit :=
    (t.insert supply (key item) (value item)).map fun
      | .ok true => .hit
      | .ok false => .miss
      | .error _ => .failed
  t.sweep call items

/-- Erases many keys. -/
def eraseEach [Scale F] (t : Table F p) (supply : Supply ε) (key : ι → K) (items : List ι) :
    Outcome F p (Tally ι) :=
  t.sweep (fun t item => (t.erase supply (key item)).map fun _ => .miss) items

/-- Takes many keys; a hit is a value handed over. -/
def takeEach [Scale F] (t : Table F p) (supply : Supply ε) (key : ι → K) (items : List ι) :
    Outcome F p (Tally ι) :=
  let call (t : Table F p) (item : ι) : Outcome F p Hit :=
    (t.take supply (key item)).map fun taken => if taken.isSome then .hit else .miss
  t.sweep call items

/-- Asks for many keys; a hit is a key that has an entry. -/
def containsEach (t : Table F p) (key : ι → K) (items : List ι) : Outcome F p (Tally ι) :=
  let call (t : Table F p) (item : ι) : Outcome F p Hit :=
    (t.contains (key item)).map fun found => if found then .hit else .miss
  t.sweep call items

/-- Gets many keys: their values, as far as there are any, in order. -/
def getEach? (t : Table F p) (keys : List K) : Outcome F p (List V) :=
  let asked := keys.map t.get?
  ⟨asked.filterMap (·.answer), t, asked.flatMap (·.journal)⟩

end Table

/-- The integers from one towards another, up or down, in steps of a given
size. The other end is not reached. -/
def stepsTowards (start stop : Int) (step : Nat) : List Int :=
  let distance := (stop - start).natAbs
  let direction : Int := if start ≤ stop then 1 else -1
  (List.range ((distance + step - 1) / step)).map fun i => start + direction * (i * step : Nat)

end ChainedTable
