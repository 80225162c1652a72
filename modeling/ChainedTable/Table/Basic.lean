import ChainedTable.Chains
import ChainedTable.Density
import ChainedTable.Hash.Policy
import ChainedTable.Journal
import ChainedTable.StepOutcome
import ChainedTable.Storage

/-!
# ChainedTable.Table.Basic

The table, and what its operations take and give.

* `Policies` are fixed for the lifetime of a table, so they are part of its
  type: how keys are hashed, and how keys and values are stored.
* `Supply` is what the surroundings grant while an operation runs: bucket
  arrays, growth of the arena, and whatever the copy functions look at. It is
  a parameter of every operation that may need storage.
* `Outcome` is what an operation gives: its answer, the table afterwards, and
  the journal of what the operation did besides.

In the type parameters, `K` and `V` are what callers pass and see for keys and
values, `KS` and `VS` what entries hold of them, `ε` what copy functions look
at, and `F` the numbers that densities are measured in. `κ` is how the arena
keeps its slots.
-/

namespace ChainedTable

/-- How a table hashes keys and stores keys and values. The keeper of its arena
is part of the type. -/
structure Policies (ε K KS V VS : Type) (κ : Keeper := .usual) where
  hasher : HashPolicy K
  keys : StoragePolicy ε K KS
  values : StoragePolicy ε V VS

/-- What the surroundings grant while an operation runs. -/
structure Supply (ε : Type) where
  /-- Whether a bucket array of a given size can be had. No operation asks for
  the same size twice. -/
  buckets : Nat → Bool
  /-- Whether the arena may grow. -/
  arena : Bool
  /-- What copy functions look at. -/
  copies : ε

/-- A hash table whose buckets are chains through an arena. -/
structure Table (F : Type) {ε K KS V VS : Type} {κ : Keeper}
    (policies : Policies ε K KS V VS κ) extends Chains κ KS VS where
  level : Level
  band : DensityBand F
  /-- Outcome of the most recent density step. -/
  lastStep : StepOutcome
deriving DecidableEq

/-- What an operation gives. -/
structure Outcome (F : Type) {ε K KS V VS : Type} {κ : Keeper}
    (policies : Policies ε K KS V VS κ) (α : Type) where
  answer : α
  table : Table F policies
  journal : List (Event K KS V VS)

/-- What can be read off a table without calling a policy. -/
structure Readings (F : Type) where
  size : Nat
  buckets : Nat
  level : Level
  /-- Entries per bucket. -/
  load : F
  band : DensityBand F
  lastStep : StepOutcome
deriving BEq, DecidableEq, Repr

namespace Outcome

variable {F ε K KS V VS α β : Type} {κ : Keeper} {p : Policies ε K KS V VS κ}

/-- The same outcome after things that came before. -/
def after (before : List (Event K KS V VS)) (outcome : Outcome F p α) : Outcome F p α :=
  ⟨outcome.answer, outcome.table, before ++ outcome.journal⟩

/-- The same outcome with another answer. -/
def map (f : α → β) (outcome : Outcome F p α) : Outcome F p β :=
  ⟨f outcome.answer, outcome.table, outcome.journal⟩

@[simp] theorem answer_after (before : List (Event K KS V VS)) (o : Outcome F p α) :
    (o.after before).answer = o.answer := rfl

@[simp] theorem table_after (before : List (Event K KS V VS)) (o : Outcome F p α) :
    (o.after before).table = o.table := rfl

@[simp] theorem journal_after (before : List (Event K KS V VS)) (o : Outcome F p α) :
    (o.after before).journal = before ++ o.journal := rfl

@[simp] theorem answer_map (f : α → β) (o : Outcome F p α) :
    (o.map f).answer = f o.answer := rfl

@[simp] theorem table_map (f : α → β) (o : Outcome F p α) : (o.map f).table = o.table := rfl

@[simp] theorem journal_map (f : α → β) (o : Outcome F p α) :
    (o.map f).journal = o.journal := rfl

end Outcome

namespace Policies

variable {ε K KS V VS : Type} {κ : Keeper}

/-- Acquires a value; an absent one reaches no policy. -/
def acquireValue (p : Policies ε K KS V VS κ) (copies : ε) :
    Option V → Except Failure (Option VS) × List (Event K KS V VS)
  | none => (.ok none, [])
  | some source =>
    match p.values.acquire copies source with
    | .ok stored => (.ok (some stored), [.value (.acquired stored)])
    | .error why => (.error why, [.value (.denied source)])

/-- What happens to a value, if there is one. -/
def eachValue (happens : VS → Handling V VS) : Option VS → List (Event K KS V VS)
  | none => []
  | some stored => [.value (happens stored)]

/-- The call that gives a value back; an absent one needs none. -/
def releaseValue : Option VS → List (Event K KS V VS) := eachValue .released

end Policies

namespace Table

variable {F ε K KS V VS : Type} {κ : Keeper} {p : Policies ε K KS V VS κ}

/-- Number of buckets. -/
def buckets (t : Table F p) : Nat := t.heads.size

/-- Whether there is no entry. -/
def isEmpty (t : Table F p) : Bool := t.size == 0

/-- Entries per bucket. -/
def load [Scale F] (t : Table F p) : F := density t.size t.buckets

/-- What can be read off a table. -/
def readings [Scale F] (t : Table F p) : Readings F where
  size := t.size
  buckets := t.buckets
  level := t.level
  load := t.load
  band := t.band
  lastStep := t.lastStep

/-- A short text about a table. -/
def describe (t : Table F p) : String :=
  s!"Table \x7b size: {t.size}, level: {t.level.val}, bucket_count: {t.buckets} \x7d"

/-- A table without entries, at the bottom level. -/
def empty (band : DensityBand F) : Table F p where
  toChains := .empty Level.bottom.buckets
  level := .bottom
  band
  lastStep := .steady

/-- Makes a table without entries, unless its bucket array is refused. -/
def withBand (supply : Supply ε) (band : DensityBand F) : Except Failure (Table F p) :=
  if supply.buckets Level.bottom.buckets then .ok (empty band) else .error .storage

/-- Makes a table without entries and with the default band. -/
def make [Scale F] (supply : Supply ε) : Except Failure (Table F p) :=
  withBand supply .default

@[simp] theorem size_empty (band : DensityBand F) : (empty band : Table F p).size = 0 :=
  Arena.size_empty

@[simp] theorem buckets_empty (band : DensityBand F) :
    (empty band : Table F p).buckets = Level.bottom.buckets := by
  simp [buckets, empty, Chains.empty]

end Table

end ChainedTable
