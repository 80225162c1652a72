import ChainedTable.Failure

/-!
# ChainedTable.Storage

How a table comes to own keys and values, and what it lets callers see.

A `StoragePolicy` is chosen for each side of a table, keys and values:

1. `inline` keeps a copy of a small value in the entry itself;
2. `copying` runs a function of the caller, which may fail;
3. `borrowed` keeps what the caller gave, and never owns it.

`acquire` depends on its surroundings `ε`, a value that the caller supplies
with each operation: a copy that succeeds now may be refused later. An absent
value never reaches a policy.
-/

namespace ChainedTable

/-- Who owns what an entry holds. -/
inductive Custody where
  | inline
  | copied
  | borrowed
deriving DecidableEq, Repr

/-- What a policy is called in messages. -/
def Custody.name : Custody → String
  | inline => "Inline"
  | copied => "Custom"
  | borrowed => "PassThrough"

/-- How one side of a table turns what callers pass into what entries hold. -/
structure StoragePolicy (ε View Stored : Type) where
  custody : Custody
  /-- Makes the stored form, or says why it cannot be had. -/
  acquire : ε → View → Except Failure Stored
  /-- What callers see of the stored form. -/
  view : Stored → View

namespace StoragePolicy

variable {ε View Stored : Type}

/-- A copy inside the entry: it always succeeds. -/
def inline : StoragePolicy ε View View where
  custody := .inline
  acquire _ source := .ok source
  view stored := stored

/-- What the caller gave, kept as it is. -/
def borrowed : StoragePolicy ε View View where
  custody := .borrowed
  acquire _ source := .ok source
  view stored := stored

/-- A copy function of the caller, which does not look at its surroundings. -/
def copying (copy : View → Except Failure Stored) (view : Stored → View) :
    StoragePolicy ε View Stored where
  custody := .copied
  acquire _ source := copy source
  view := view

/-- Texts in storage of their own. The surroundings tell whether storage can
be had; the empty text needs none. -/
def ownedText : StoragePolicy Bool String String where
  custody := .copied
  acquire granted source :=
    if source.isEmpty || granted then .ok source else .error .storage
  view stored := stored

end StoragePolicy

end ChainedTable
