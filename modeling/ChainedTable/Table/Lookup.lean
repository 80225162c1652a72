import ChainedTable.Table.Basic

/-!
# ChainedTable.Table.Lookup

Looking a key up.

`Table.probe` hashes the key once and walks the chain of its bucket, comparing
each stored key with the one looked for, until one is equal or the chain ends.
Its result serves lookup, insertion and removal alike: it holds the link at
which the search stopped, which either holds the entry found or ends the chain.

The comparison alone decides whether a key is found. A stored hash is never
looked at.
-/

namespace ChainedTable

/-- Result of searching a chain for a key. -/
structure Probe (K KS V VS : Type) where
  hash : UInt64
  /-- The link that holds the entry found, or the empty link at the end. -/
  link : Link
  found : Option (EntryId × Entry KS VS)
  /-- The calls made to the hash policy. -/
  calls : List (Event K KS V VS)

namespace Table

variable {F ε K KS V VS : Type} {κ : Keeper} {p : Policies ε K KS V VS κ}

/-- Searches a chain from a link on, over a bounded number of entries. -/
def seek (t : Table F p) (key : K) (hash : UInt64) : Nat → Link → Probe K KS V VS
  | 0, link => ⟨hash, link, none, []⟩
  | bound + 1, link =>
    match t.linked link with
    | none => ⟨hash, link, none, []⟩
    | some id =>
      match t.arena.get? id with
      | none => ⟨hash, link, none, []⟩
      | some entry =>
        let stored := p.keys.view entry.key
        if p.hasher.compare stored key = .eq then
          ⟨hash, link, some (id, entry), [.compared stored key]⟩
        else
          let rest := seek t key hash bound (.after id)
          { rest with calls := .compared stored key :: rest.calls }

/-- Looks a key up in the chain of its bucket. No chain is longer than the
arena. -/
def probe (t : Table F p) (key : K) : Probe K KS V VS :=
  let hash := p.hasher.hash key
  let searched := t.seek key hash t.arena.slots.size (.head (t.bucketOf hash))
  { searched with calls := .hashed key hash :: searched.calls }

/-- Whether a key has an entry. -/
def contains (t : Table F p) (key : K) : Outcome F p Bool :=
  let probe := t.probe key
  ⟨probe.found.isSome, t, probe.calls⟩

/-- The value of a key. There is none for a key without an entry and for a key
mapped to no value; `contains` tells them apart. -/
def get? (t : Table F p) (key : K) : Outcome F p (Option V) :=
  let probe := t.probe key
  ⟨probe.found.bind fun (_, entry) => entry.value.map p.values.view, t, probe.calls⟩

@[simp] theorem table_contains (t : Table F p) (key : K) : (t.contains key).table = t := rfl

@[simp] theorem table_get? (t : Table F p) (key : K) : (t.get? key).table = t := rfl

/-- A search keeps the hash it was made for. -/
@[simp] theorem hash_seek (t : Table F p) (key : K) (hash : UInt64) (bound : Nat) (link : Link) :
    (t.seek key hash bound link).hash = hash := by
  induction bound generalizing link with
  | zero => rfl
  | succ bound ih =>
    simp only [seek]
    split
    · rfl
    · split
      · rfl
      · split
        · rfl
        · exact ih _

@[simp] theorem hash_probe (t : Table F p) (key : K) :
    (t.probe key).hash = p.hasher.hash key := by
  simp [probe]

end Table

end ChainedTable
