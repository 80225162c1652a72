import ChainedTable.Proofs.Checked
import Mathlib.Algebra.GroupWithZero.Nat

/-!
# ChainedTable.Proofs.Intact

Every table that can be seen is intact.

`Intact` says what holds of a table after any operation, also one that failed,
and between any two calls of the visitor of a walk.  Nothing is asked of the
policies for it: a hash that is not that of equal keys, or a comparison that is
no equality, makes a table find other entries and leaves its chains in order.
-/

namespace ChainedTable

variable {F ε K KS V VS σ ω : Type} {κ : Keeper} {p : Policies ε K KS V VS κ}

namespace Chains.Spells

variable {chains : Chains κ KS VS} {lists : Nat → List EntryId}

/-- The lengths of all chains add up to the number of entries. -/
theorem sum_length (h : chains.Spells lists) :
    ((List.range chains.heads.size).map fun bucket => (chains.chain bucket).length).sum =
      chains.size := by
  rw [← h.length_traversal, traversal, List.length_flatMap]

/-- An entry is once on the chain that its hash belongs to, and on no other. -/
theorem count_chain (h : chains.Spells lists) {id : EntryId} {entry : Entry KS VS}
    (hget : chains.arena.get? id = some entry) {bucket : Nat}
    (hbucket : bucket < chains.heads.size) :
    (chains.chain bucket).count id = if chains.bucketOf entry.hash = bucket then 1 else 0 := by
  have hheld := holding?_of_get? hget
  rw [h.chain_eq hbucket]
  split
  · next hhome =>
      have hid : id ∈ lists bucket := hhome ▸ h.listed hheld
      exact List.count_eq_one_of_mem (h.nodup hbucket) hid
  · next hother =>
      exact List.count_eq_zero_of_not_mem fun hid => hother (h.home hbucket hid hheld)

end Chains.Spells

namespace Table

/-- A table whose chains are in order, and whose operations meet only links and
entries that are there. -/
structure Intact [Scale F] (t : Table F p) : Prop where
  level : t.level.val ≤ 36
  heads : t.heads.size = t.level.buckets
  /-- A chain ends, and what it meets lives. -/
  ends {bucket : Nat} : bucket < t.heads.size →
    Chains.Leads t.arena (t.linked (.head bucket)) (t.chain bucket) none
  live {bucket : Nat} {id : EntryId} : bucket < t.heads.size → id ∈ t.chain bucket →
    ∃ entry, t.arena.get? id = some entry
  /-- An entry is on the chain of its stored hash once, and on no other. -/
  once {id : EntryId} {entry : Entry KS VS} {bucket : Nat} : t.arena.get? id = some entry →
    bucket < t.heads.size →
    (t.chain bucket).count id = if entry.hash.toNat % t.heads.size = bucket then 1 else 0
  lengths :
    ((List.range t.heads.size).map fun bucket => (t.chain bucket).length).sum = t.size
  /-- A search ends, and meets what is there. -/
  search (key : K) : t.probe? key = Part.some (t.probe key)
  /-- An entry can be put in where the search for its key has ended. -/
  link {key : K} {granted : Bool} {arena : Arena κ (Entry KS VS)} : (t.probe key).found = none →
    t.arena.reserve granted = some arena → ∀ storedKey value,
      ({ t.toChains with arena } : Chains κ KS VS).insertAt? (t.probe key).link
        (p.hasher.hash key) storedKey value = some (t.linkNew arena key storedKey value).toChains
  /-- An entry can be taken out wherever a link holds it. -/
  unlink {link : Link} {id : EntryId} {entry : Entry KS VS} : t.linked link = some id →
    t.arena.get? id = some entry → t.unlink? link id = some (t.toChains.unlink link id entry)
  /-- All entries can be moved to any number of buckets. -/
  rehash {buckets : Nat} : 0 < buckets → t.rehash? buckets = Part.some (t.toChains.rehash buckets)
  /-- A walk ends, whatever its visitor does, and meets what is there. -/
  walk {σ ω : Type} (memory : σ) (visitor : Visitor F ε K V VS σ ω) :
    (Walk.start t memory).run? visitor = Part.some ((Walk.start t memory).run visitor)

variable {t : Table F p}

/-- The link at which a search ends without a find is there for the new entry. -/
theorem Sound.insertAt?_eq (h : t.Sound) {key : K} (hfound : (t.probe key).found = none)
    {granted : Bool} {arena : Arena κ (Entry KS VS)}
    (hroom : t.arena.reserve granted = some arena) (storedKey : KS) (value : Option VS) :
    ({ t.toChains with arena } : Chains κ KS VS).insertAt? (t.probe key).link
      (p.hasher.hash key) storedKey value =
        some (t.linkNew arena key storedKey value).toChains := by
  have hreserved := h.wellLinked.reserve hroom
  have hhome := home_lt h.wellLinked key
  have hinsert := hreserved.insertAt?_eq hhome (p.hasher.hash key) storedKey value
  rw [Table.linkNew, (probe_not_found h.wellLinked hfound).1]
  exact hinsert

theorem Sound.intact [Scale F] (h : t.Sound) : t.Intact where
  level := by
    have := t.level.isLt
    unfold levelCount at this
    omega
  heads := h.buckets
  ends := h.wellLinked.leads
  live hbucket := (h.wellLinked.leads hbucket).live
  once hget hbucket := h.wellLinked.count_chain hget hbucket
  lengths := h.wellLinked.sum_length
  search := probe?_eq h.wellLinked
  link hfound hroom storedKey value := h.insertAt?_eq hfound hroom storedKey value
  unlink := h.wellLinked.unlink?_eq
  rehash := h.wellLinked.rehash?_eq
  walk memory visitor := (h.stands_start memory).run?_eq visitor (h.remaining_start_le memory)

/-- **Every table that can be seen is intact**, whatever its policies. -/
theorem intact_of_seen [Scale F] (h : t.Seen) : t.Intact := h.sound.intact

theorem intact_sample : sample.Seen ∧ sample.Intact :=
  ⟨.after reachable_sample, intact_of_seen (.after reachable_sample)⟩

end Table

end ChainedTable
