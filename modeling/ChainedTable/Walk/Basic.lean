import ChainedTable.Walk.Visit

/-!
# ChainedTable.Walk.Basic

Walking over all entries of a table.

The walk goes bucket by bucket, and through each chain from its head. It
stands at a link. At an empty link the chain is over, and the walk goes on to
the next bucket. Otherwise a visitor is called for the entry that the link
holds, and afterwards the link is read again:

1. if it holds the same entry, the walk moves to the link after that entry;
2. otherwise the entry was removed, the link already holds the one that
   followed, and the walk stays where it is.

So no entry is passed over when its neighbours are removed. No density step is
taken under a walk. Once the walk is over, in whatever way, and the number of
entries has changed, `Table.walk` brings the density back into its band.
-/

namespace ChainedTable

/-- What a visitor wants next; `ω` is its kind of error. -/
inductive Verdict (ω : Type) where
  /-- Visit the next entry. -/
  | goOn
  /-- End the walk. -/
  | stop
  /-- End the walk with an error. -/
  | fail (why : ω)
deriving DecidableEq, Repr

/-- How a walk ended. -/
inductive Ending (ω : Type) where
  /-- All entries were visited. -/
  | completed
  /-- The visitor ended the walk. -/
  | stopped
  /-- The visitor ended the walk with an error. -/
  | failed (why : ω)
deriving DecidableEq, Repr

/-- What is done at each entry. A visitor remembers a `σ` from one visit to the
next. -/
abbrev Visitor (F ε K V VS σ ω : Type) := σ → Visit F ε K V VS (σ × Verdict ω)

/-- A walk under way. -/
structure Walk (F : Type) {ε K KS V VS : Type} {κ : Keeper}
    (policies : Policies ε K KS V VS κ) (σ : Type) where
  table : Table F policies
  /-- The bucket whose chain is being walked. -/
  bucket : Nat
  /-- Where the walk stands. -/
  link : Link
  /-- What the visitor remembers. -/
  memory : σ
  /-- What has happened so far. -/
  journal : Array (Event K KS V VS)

namespace Walk

variable {F ε K KS V VS σ ω : Type} {κ : Keeper} {p : Policies ε K KS V VS κ}

/-- A walk that has not begun. -/
def start (t : Table F p) (memory : σ) : Walk F p σ where
  table := t
  bucket := 0
  link := .head 0
  memory
  journal := #[]

/-- Where a walk stands after a visit to an entry: behind it if its link still
holds it, and where it was if not. -/
def advance (w : Walk F p σ) (id : EntryId) : Walk F p σ :=
  if w.table.linked w.link = some id then { w with link := .after id } else w

/-- Goes on from an empty link: to the head of the next bucket, if there is
one. -/
def nextBucket (w : Walk F p σ) : Walk F p σ × Option (Ending ω) :=
  let next := w.bucket + 1
  if next < w.table.buckets then ({ w with bucket := next, link := .head next }, none)
  else (w, some .completed)

/-- Calls the visitor at an entry. -/
def visitAt [Scale F] (visitor : Visitor F ε K V VS σ ω) (w : Walk F p σ) (id : EntryId)
    (entry : Entry KS VS) : Walk F p σ × Option (Ending ω) :=
  let ⟨t, bucket, link, memory, journal⟩ := w
  let ⟨(memory, verdict), t, calls⟩ := (visitor memory).run link id t entry
  let w := ⟨t, bucket, link, memory, journal ++ calls⟩
  match verdict with
  | .goOn => (w.advance id, none)
  | .stop => (w, some .stopped)
  | .fail why => (w, some (.failed why))

/-- One step of a walk; it tells how the walk ended, if it did. -/
def step [Scale F] (visitor : Visitor F ε K V VS σ ω) (w : Walk F p σ) :
    Walk F p σ × Option (Ending ω) :=
  match w.table.linked w.link with
  | none => w.nextBucket
  | some id =>
    match w.table.arena.get? id with
    | none => w.nextBucket
    | some entry => w.visitAt visitor id entry

/-- A bounded number of steps. -/
def runWithin [Scale F] (visitor : Visitor F ε K V VS σ ω) :
    Nat → Walk F p σ → Walk F p σ × Ending ω
  | 0, w => (w, .completed)
  | bound + 1, w =>
    match w.step visitor with
    | (w, none) => runWithin visitor bound w
    | (w, some ending) => (w, ending)

/-- Steps until the walk is over. Each step visits an entry or leaves a bucket,
so there are no more of them than slots and buckets. -/
def run [Scale F] (visitor : Visitor F ε K V VS σ ω) (w : Walk F p σ) :
    Walk F p σ × Ending ω :=
  runWithin visitor (w.table.arena.slots.size + w.table.buckets) w

end Walk

/-- Result of a walk over all entries. -/
structure Tour (σ ω : Type) where
  ending : Ending ω
  /-- What the visitor remembers at the end. -/
  memory : σ
deriving DecidableEq, Repr

/-- Visits every entry, and brings the density back into its band if the number
of entries changed. -/
def Table.walk {F ε K KS V VS σ ω : Type} [Scale F] {κ : Keeper} {p : Policies ε K KS V VS κ}
    (t : Table F p) (supply : Supply ε) (memory : σ) (visitor : Visitor F ε K V VS σ ω) :
    Outcome F p (Tour σ ω) :=
  let before := t.size
  let (walk, ending) := (Walk.start t memory).run visitor
  let tour : Tour σ ω := ⟨ending, walk.memory⟩
  let journal := walk.journal.toList
  if walk.table.size = before then ⟨tour, walk.table, journal⟩
  else ((walk.table.restoreBand supply).map fun _ => tour).after journal

end ChainedTable
