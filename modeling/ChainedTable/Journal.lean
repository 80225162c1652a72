/-!
# ChainedTable.Journal

What a table does besides changing itself.

Every operation of a table gives back a journal: the list, in order, of

1. the calls it made to the hash policy;
2. what happened to the keys and values that the table holds or held, where
   the calls to the storage policies are among;
3. the notices it wrote to the log.

The wording of every notice is in this module only.
-/

namespace ChainedTable

/-- How much a notice matters. -/
inductive Severity where
  | trace
  | debug
  | warn
deriving DecidableEq, Repr

/-- The name of a severity. -/
def Severity.name : Severity → String
  | trace => "trace"
  | debug => "debug"
  | warn => "warn"

/-- A line for the log. -/
inductive Notice where
  /-- The entries were moved to a bucket array of another level. -/
  | rehashed (entries before after level : Nat)
  /-- The bucket array for a resize was refused. -/
  | abandoned (before wanted : Nat)
  /-- A walk changed the size, and the last resize after it was refused. -/
  | unsettled (entries buckets wanted : Nat)
  /-- All entries were released. -/
  | cleared (entries buckets : Nat)
  /-- The table was given up. -/
  | freed (level : Nat)
deriving DecidableEq, Repr

/-- How much each notice matters. -/
def Notice.severity : Notice → Severity
  | rehashed .. => .debug
  | abandoned .. | unsettled .. => .warn
  | cleared .. | freed .. => .trace

/-- The text of a notice. -/
def Notice.text : Notice → String
  | rehashed entries before after level =>
    s!"rehashed {entries} entries from {before} to {after} buckets (level {level})"
  | abandoned before wanted =>
    s!"resize from {before} to {wanted} buckets abandoned: " ++
      "memory allocation failed because the memory allocator returned an error"
  | unsettled entries buckets wanted =>
    s!"traversal left {entries} entries in {buckets} buckets; resize to {wanted} abandoned"
  | cleared entries buckets => s!"purged {entries} entries, {buckets} buckets kept"
  | freed level => s!"freed table at level {level}"

/-- What can happen to the stored items of one side of a table. The first three
are calls to its storage policy. In the others an item comes from the caller or
goes to the caller, and the policy has no part in it. -/
inductive Handling (View Stored : Type) where
  /-- The policy made an item. -/
  | acquired (stored : Stored)
  /-- The policy could not make an item. -/
  | denied (source : View)
  /-- An item was given back to the policy. -/
  | released (stored : Stored)
  /-- The caller put in an item of its own. -/
  | supplied (stored : Stored)
  /-- An item was handed over to the caller. -/
  | handedOver (stored : Stored)
  /-- The caller wrote over an item in place. -/
  | overwritten (stored : Stored)
deriving DecidableEq, Repr

/-- One thing that a table did besides changing itself. -/
inductive Event (K KS V VS : Type) where
  /-- The hash policy was asked for the hash of a key. -/
  | hashed (key : K) (hash : UInt64)
  /-- The hash policy was asked to compare a stored key with a probe. -/
  | compared (stored probe : K)
  /-- Something happened to a stored key. -/
  | key (what : Handling K KS)
  /-- Something happened to a stored value. -/
  | value (what : Handling V VS)
  /-- A notice was written. -/
  | noticed (notice : Notice)
deriving DecidableEq, Repr

end ChainedTable
