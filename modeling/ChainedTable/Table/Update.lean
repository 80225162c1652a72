import ChainedTable.Table.Lookup
import ChainedTable.Table.Resize

/-!
# ChainedTable.Table.Update

Changing what a table maps.

* A key that has an entry keeps it: `insert` acquires the new value first and
  releases the old one afterwards, so that a refusal leaves the old value in
  place. The stored key is not acquired again, and no density step is taken.
* For a new key, `insertNew` first makes sure of room in the arena, then
  acquires the key, then the value. The first refusal is the answer; a key
  acquired before it is given back. The entry goes to the end of its chain, and
  a density step follows. `openNew` does the same for an entry whose value is
  filled in later.
* `take` and `erase` unlink the entry of a key and release the key. They
  differ in the value, which `take` hands over and `erase` releases.
* `clear` releases everything, in the order of the slots, and keeps the bucket
  array as large as it is.
-/

namespace ChainedTable

namespace Table

variable {F ε K KS V VS : Type} {κ : Keeper} {p : Policies ε K KS V VS κ}

/-! ## mapping a key -/

/-- Makes the entry of a key that was looked up and not found. -/
def insertNew [Scale F] (t : Table F p) (supply : Supply ε) (probe : Probe K KS V VS) (key : K)
    (value : Option V) : Outcome F p (Except Failure EntryId) :=
  match t.arena.reserve supply.arena with
  | none => ⟨.error .storage, t, []⟩
  | some arena =>
    let t : Table F p := { t with arena }
    match p.keys.acquire supply.copies key with
    | .error why => ⟨.error why, t, [.key (.denied key)]⟩
    | .ok storedKey =>
      match p.acquireValue supply.copies value with
      | (.error why, calls) =>
        ⟨.error why, t, .key (.acquired storedKey) :: calls ++ [.key (.released storedKey)]⟩
      | (.ok storedValue, calls) =>
        let id := t.arena.nextId
        let linked : Table F p :=
          { t with toChains := t.toChains.insertAt probe.link probe.hash storedKey storedValue }
        ((linked.densityStep supply).map fun _ => .ok id).after
          (.key (.acquired storedKey) :: calls)

/-- Maps a key to a value or to none. Answers whether an entry was made. -/
def insert [Scale F] (t : Table F p) (supply : Supply ε) (key : K) (value : Option V) :
    Outcome F p (Except Failure Bool) :=
  let probe := t.probe key
  match probe.found with
  | some (id, entry) =>
    match p.acquireValue supply.copies value with
    | (.error why, calls) => ⟨.error why, t, probe.calls ++ calls⟩
    | (.ok fresh, calls) =>
      ⟨.ok false, { t with toChains := t.toChains.setValue id fresh },
        probe.calls ++ calls ++ Policies.releaseValue entry.value⟩
  | none => ((t.insertNew supply probe key value).map (·.map fun _ => true)).after probe.calls

/-- Makes the entry of a key that was looked up and not found. It has no value
yet, and no value is acquired for it. -/
def openNew [Scale F] (t : Table F p) (supply : Supply ε) (probe : Probe K KS V VS) (key : K) :
    Outcome F p (Except Failure EntryId) :=
  match t.arena.reserve supply.arena with
  | none => ⟨.error .storage, t, []⟩
  | some arena =>
    let t : Table F p := { t with arena }
    match p.keys.acquire supply.copies key with
    | .error why => ⟨.error why, t, [.key (.denied key)]⟩
    | .ok storedKey =>
      let id := t.arena.nextId
      let linked : Table F p :=
        { t with toChains := t.toChains.insertAt probe.link probe.hash storedKey none }
      ((linked.densityStep supply).map fun _ => .ok id).after [.key (.acquired storedKey)]

/-- Maps a key to no value, releasing the one it had. Answers the entry, whose
value can then be filled in. -/
def openSlot [Scale F] (t : Table F p) (supply : Supply ε) (key : K) :
    Outcome F p (Except Failure EntryId) :=
  let probe := t.probe key
  match probe.found with
  | some (id, entry) =>
    ⟨.ok id, { t with toChains := t.toChains.setValue id none },
      probe.calls ++ Policies.releaseValue entry.value⟩
  | none => (t.openNew supply probe key).after probe.calls

/-- An entry that has no value yet is the entry of a key that is mapped to none. -/
theorem openNew_eq_insertNew [Scale F] (t : Table F p) (supply : Supply ε)
    (probe : Probe K KS V VS) (key : K) :
    t.openNew supply probe key = t.insertNew supply probe key none := by
  unfold openNew insertNew
  cases t.arena.reserve supply.arena with
  | none => rfl
  | some arena =>
    cases p.keys.acquire supply.copies key with
    | error why => rfl
    | ok storedKey => rfl

/-- So a slot that is opened for a new key is made as `insertNew` makes it. -/
theorem openSlot_eq [Scale F] (t : Table F p) (supply : Supply ε) (key : K) :
    t.openSlot supply key = match (t.probe key).found with
      | some (id, entry) =>
        ⟨.ok id, { t with toChains := t.toChains.setValue id none },
          (t.probe key).calls ++ Policies.releaseValue entry.value⟩
      | none => (t.insertNew supply (t.probe key) key none).after (t.probe key).calls := by
  rw [← openNew_eq_insertNew]
  rfl

/-! ## removing a key -/

/-- Unlinks an entry, releases its key and hands its value over. -/
def takeAt (t : Table F p) (link : Link) (id : EntryId) (entry : Entry KS VS) :
    Outcome F p (Option VS) :=
  ⟨entry.value, { t with toChains := t.toChains.unlink link id entry },
    .key (.released entry.key) :: Policies.eachValue .handedOver entry.value⟩

/-- Unlinks an entry and releases its key and its value. -/
def eraseAt (t : Table F p) (link : Link) (id : EntryId) (entry : Entry KS VS) :
    Outcome F p Unit :=
  ⟨(), { t with toChains := t.toChains.unlink link id entry },
    .key (.released entry.key) :: Policies.releaseValue entry.value⟩

/-- Removes a key and hands over the value stored for it. -/
def take [Scale F] (t : Table F p) (supply : Supply ε) (key : K) : Outcome F p (Option VS) :=
  let probe := t.probe key
  match probe.found with
  | none => ⟨none, t, probe.calls⟩
  | some (id, entry) =>
    let removed := t.takeAt probe.link id entry
    ((removed.table.densityStep supply).map fun _ => removed.answer).after
      (probe.calls ++ removed.journal)

/-- Removes a key. -/
def erase [Scale F] (t : Table F p) (supply : Supply ε) (key : K) : Outcome F p Unit :=
  let probe := t.probe key
  match probe.found with
  | none => ⟨(), t, probe.calls⟩
  | some (id, entry) =>
    let removed := t.eraseAt probe.link id entry
    ((removed.table.densityStep supply).map fun _ => ()).after (probe.calls ++ removed.journal)

/-! ## removing everything -/

/-- The calls that release every entry, in the order of the slots. -/
def releases (t : Table F p) : List (Event K KS V VS) :=
  t.arena.entries.flatMap fun (_, entry) =>
    .key (.released entry.key) :: Policies.releaseValue entry.value

/-- Releases every entry and keeps the bucket array. -/
def clear (t : Table F p) : Outcome F p Unit :=
  ⟨(), { t with toChains := t.toChains.clear },
    t.releases ++ [.noticed (.cleared t.size t.buckets)]⟩

/-- What happens when a table goes out of use: it is cleared. -/
def dispose (t : Table F p) : List (Event K KS V VS) := t.clear.journal

/-- What happens when a table is given up on request. Cleared and announced as
freed, it goes out of use with nothing left to release. -/
def free (t : Table F p) : List (Event K KS V VS) :=
  t.clear.journal ++ .noticed (.freed t.level.val) :: t.clear.table.dispose

end Table

end ChainedTable
