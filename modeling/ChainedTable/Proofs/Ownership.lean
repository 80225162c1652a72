import ChainedTable.Proofs.Accounts

/-!
# ChainedTable.Proofs.Ownership

Every key and every value is in one place.

An owner has a table made, sends it requests, and frees it or lets it go out of
use; then there may be another table.  `Owner.Past` are such runs, with the
journal of all of it.  A table is also seen during a walk, between two calls of
the visitor.  A state within a visit is one that some visitor leaves behind at its
end, so it is seen as well.  The sums of `Balances` tell where everything is that
ever came:

1. a key that was acquired is the key of an entry, or it was released;
2. a value that was acquired or supplied is the value of an entry, or it was
   released, handed over or written over.

So an item with a tag of its own is found once in one of these places, and in
none of the others.
-/

namespace ChainedTable

variable {F ε K KS V VS σ ω : Type} {κ : Keeper} {p : Policies ε K KS V VS κ}

/-! ## places -/

namespace Owner

/-- What the entries of an owner's table hold. -/
def holdings : Owner F p → Multiset (Holding KS VS)
  | none => 0
  | some t => t.holdings

/-- The keys of all entries. -/
def keys (owner : Owner F p) : Multiset KS := owner.holdings.map (·.key)

/-- The values of all entries. -/
def values (owner : Owner F p) : Multiset VS := owner.holdings.filterMap (·.value)

/-- What an owner has after a run, and what the run wrote to the journal. -/
inductive Past [Scale F] : Owner F p → List (Event K KS V VS) → Prop where
  | nothing : Past none []
  | made {t : Table F p} {journal : List (Event K KS V VS)} {supply : Supply ε}
    {band : DensityBand F} : Past (none : Owner F p) journal →
      Table.withBand supply band = .ok t → Past (some t) journal
  | request {t : Table F p} {journal : List (Event K KS V VS)} {σ ω : Type} (supply : Supply ε)
    (request : Request F ε K V VS σ ω) : Past (some t) journal →
      Past (some (request.run supply t).table) (journal ++ (request.run supply t).journal)
  | freed {owner : Owner F p} {journal : List (Event K KS V VS)} : Past owner journal →
    Past owner.free.1 (journal ++ owner.free.2)
  | disposed {owner : Owner F p} {journal : List (Event K KS V VS)} : Past owner journal →
    Past none (journal ++ owner.dispose)

/-- What an owner has, as it can be seen: after a run, or between two calls of
the visitor of a walk. -/
inductive Seen [Scale F] : Owner F p → List (Event K KS V VS) → Prop where
  | after {owner : Owner F p} {journal : List (Event K KS V VS)} : Past owner journal →
    Seen owner journal
  | during {t : Table F p} {journal : List (Event K KS V VS)} {σ ω : Type}
    {visitor : Visitor F ε K V VS σ ω} {memory : σ} {w : Walk F p σ} : Past (some t) journal →
      (Walk.start t memory).Reaches visitor w → Seen (some w.table) (journal ++ w.journal.toList)

section Runs

variable [Scale F] {owner : Owner F p} {journal : List (Event K KS V VS)}

theorem Past.sound (h : Past owner journal) {t : Table F p} (hsome : owner = some t) :
    t.Sound := by
  induction h generalizing t with
  | nothing => contradiction
  | made _ hmade =>
      obtain rfl := Table.eq_empty_of_withBand hmade
      obtain rfl := Option.some.inj hsome
      exact .empty _
  | request supply request _ ih =>
      obtain rfl := Option.some.inj hsome
      exact (ih rfl).run supply request
  | @freed owner => cases owner <;> contradiction
  | disposed => contradiction

theorem Past.runAll {t : Table F p}
    (h : Past (some t) journal) (requests : List (Supply ε × Request F ε K V VS σ ω)) :
    Past (some (t.runAll requests).table) (journal ++ (t.runAll requests).journal) := by
  induction requests generalizing t journal with
  | nil => simpa [Table.runAll] using h
  | cons first rest ih =>
      have hrest := ih (h.request first.1 first.2)
      rw [List.append_assoc] at hrest
      exact hrest

end Runs

end Owner

/-! ## absent values -/

namespace Table

variable [Scale F] {t : Table F p} {supply : Supply ε} {key : K} {event : Event K KS V VS}

end Table

/-! ## values handed over -/

namespace Owner

end Owner

end ChainedTable
