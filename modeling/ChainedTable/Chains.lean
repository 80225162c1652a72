import ChainedTable.Arena

/-!
# ChainedTable.Chains

Buckets of entries, each bucket a chain through one arena.

An array holds, for each bucket, the id of the first entry of its chain, and
each entry holds the id of the next. A `Link` is a position that holds such an
id: the head of a bucket, or the `next` field of an entry. Looking an entry up
yields the link that holds it, so that an entry at the head, in the middle and
at the end of a chain is unlinked in the same way, and the link that ends a
chain is where a new entry goes.

Entries never move in the arena. `rehash` gives the table another array of
heads and only rewrites links. It takes the old buckets by index and each old
chain from its head, and puts every entry at the head of its new chain; the
hash of a key was stored with the entry, so no key is hashed again.
-/

namespace ChainedTable

/-- A key with its value, and the place it has in a chain. -/
structure Entry (KS VS : Type) where
  key : KS
  /-- The value, unless the key is mapped to no value. -/
  value : Option VS
  /-- The hash of the key that the entry was made for. -/
  hash : UInt64
  next : Option EntryId
deriving DecidableEq, Repr

/-- A position that holds the id of an entry, or ends a chain. -/
inductive Link where
  /-- The head of a bucket. -/
  | head (bucket : Nat)
  /-- What follows an entry. -/
  | after (id : EntryId)
deriving DecidableEq, Repr

/-- An arena of entries and the heads of the chains through it. -/
structure Chains (κ : Keeper) (KS VS : Type) where
  arena : Arena κ (Entry KS VS)
  heads : Array (Option EntryId)
deriving DecidableEq

namespace Chains

variable {κ : Keeper} {KS VS : Type}

/-- A number of empty buckets. -/
def empty (buckets : Nat) : Chains κ KS VS where
  arena := .empty
  heads := Array.replicate buckets none

/-- Number of entries. -/
def size (chains : Chains κ KS VS) : Nat := chains.arena.size

/-- The bucket for a hash. -/
def bucketOf (chains : Chains κ KS VS) (hash : UInt64) : Nat := hash.toNat % chains.heads.size

/-- What a link holds. -/
def linked (chains : Chains κ KS VS) : Link → Option EntryId
  | .head bucket => chains.heads[bucket]?.join
  | .after id => (chains.arena.get? id).bind (·.next)

/-- Writes to a link. -/
def relink (chains : Chains κ KS VS) (link : Link) (target : Option EntryId) : Chains κ KS VS :=
  match link with
  | .head bucket => { chains with heads := chains.heads.setIfInBounds bucket target }
  | .after id => { chains with arena := chains.arena.modify id ({ · with next := target }) }

/-! ## chains as lists -/

/-- The ids met from a cursor on, at most a given number of them. -/
def follow (arena : Arena κ (Entry KS VS)) : Nat → Option EntryId → List EntryId
  | 0, _ => []
  | _ + 1, none => []
  | bound + 1, some id =>
    match arena.get? id with
    | none => []
    | some entry => id :: follow arena bound entry.next

/-- The ids of a bucket, from its head. No chain is longer than the arena. -/
def chain (chains : Chains κ KS VS) (bucket : Nat) : List EntryId :=
  follow chains.arena chains.arena.slots.size (chains.linked (.head bucket))

/-- The ids of all entries: bucket by bucket, each chain from its head. -/
def traversal (chains : Chains κ KS VS) : List EntryId :=
  (List.range chains.heads.size).flatMap chains.chain

/-! ## edits -/

/-- Makes an entry and lets an empty link hold it. -/
def insertAt (chains : Chains κ KS VS) (link : Link) (hash : UInt64) (key : KS)
    (value : Option VS) : Chains κ KS VS :=
  let id := chains.arena.nextId
  let entry : Entry KS VS := { key, value, hash, next := none }
  relink { chains with arena := chains.arena.insert entry } link (some id)

/-- Takes the entry that a link holds out of its chain and out of the arena. -/
def unlink (chains : Chains κ KS VS) (link : Link) (id : EntryId) (entry : Entry KS VS) :
    Chains κ KS VS :=
  relink { chains with arena := chains.arena.erase id } link entry.next

/-- Changes the value of one entry. -/
def setValue (chains : Chains κ KS VS) (id : EntryId) (value : Option VS) : Chains κ KS VS :=
  { chains with arena := chains.arena.modify id ({ · with value }) }

/-- Empties all buckets and the arena. -/
def clear (chains : Chains κ KS VS) : Chains κ KS VS where
  arena := chains.arena.clear
  heads := Array.replicate chains.heads.size none

/-! ## another array of heads -/

/-- Puts the entries met from a cursor on at the heads of their new chains,
one after the other. The next entry is read before the link to it is
overwritten. -/
def scatter : Nat → Option EntryId → Chains κ KS VS → Chains κ KS VS
  | 0, _, chains => chains
  | _ + 1, none, chains => chains
  | bound + 1, some id, chains =>
    match chains.arena.get? id with
    | none => chains
    | some entry =>
      let bucket := chains.bucketOf entry.hash
      let chains := chains.relink (.after id) (chains.linked (.head bucket))
      scatter bound entry.next (chains.relink (.head bucket) (some id))

/-- Moves all entries to a new array of heads. -/
def rehash (chains : Chains κ KS VS) (buckets : Nat) : Chains κ KS VS :=
  chains.heads.foldl
    (fun moved head => scatter moved.arena.slots.size head moved)
    { arena := chains.arena, heads := Array.replicate buckets none }

end Chains

end ChainedTable
