import ChainedTable.Proofs.Reachable

/-!
# ChainedTable.Proofs.Regrouping

What a resize does to a table, exactly.

A resize that finds its bucket array regroups the entries.  It meets them in the
order of the old traversal and puts each at the head of its new chain, so that a
new chain is the reverse of the entries that belong there.  The entries stay in
their slots, with all that they hold.

A resize that does not find its bucket array leaves a record, and the table as it
was.  It asks before it touches any link.
-/

namespace ChainedTable

variable {F ε K KS V VS : Type} {κ : Keeper} {p : Policies ε K KS V VS κ}

/-! ## the arena -/

/-- There are as many slots, the keeper has kept the same of the vacant ones, and there is
the same room for more of them. -/
structure Arena.SameRoom {α : Type} (arena arena' : Arena κ α) : Prop where
  slots : arena'.slots.size = arena.slots.size
  vacant : arena'.vacant = arena.vacant
  capacity : arena'.capacity = arena.capacity

namespace Arena.SameRoom

variable {α : Type} {first second third : Arena κ α}

theorem refl (arena : Arena κ α) : arena.SameRoom arena := ⟨rfl, rfl, rfl⟩

theorem trans (h : first.SameRoom second) (h' : second.SameRoom third) :
    first.SameRoom third where
  slots := h'.slots.trans h.slots
  vacant := h'.vacant.trans h.vacant
  capacity := h'.capacity.trans h.capacity

theorem size_eq (h : first.SameRoom second) : second.size = first.size := by
  rw [Arena.size, Arena.size, h.slots, h.vacant]

end Arena.SameRoom

namespace Chains

variable {chains moved : Chains κ KS VS}

theorem sameRoom_relink (chains : Chains κ KS VS) (link : Link) (target : Option EntryId) :
    chains.arena.SameRoom (chains.relink link target).arena := by
  cases link with
  | head bucket => exact .refl _
  | after id => exact ⟨Array.size_modify, rfl, rfl⟩

theorem sameRoom_scatter (bound : Nat) (cursor : Option EntryId) (moved : Chains κ KS VS) :
    moved.arena.SameRoom (scatter bound cursor moved).arena := by
  induction bound generalizing cursor moved with
  | zero => exact .refl _
  | succ bound ih =>
      cases cursor with
      | none => exact .refl _
      | some id =>
          unfold scatter
          split
          · exact .refl _
          · exact ((sameRoom_relink ..).trans (sameRoom_relink ..)).trans (ih _ _)

/-- Another array of heads needs no other slots. -/
theorem sameRoom_rehash (chains : Chains κ KS VS) (buckets : Nat) :
    chains.arena.SameRoom (chains.rehash buckets).arena := by
  have hall (heads : List (Option EntryId)) (moved : Chains κ KS VS) :
      moved.arena.SameRoom (heads.foldl consume moved).arena := by
    induction heads generalizing moved with
    | nil => exact .refl _
    | cons head heads ih => exact (sameRoom_scatter ..).trans (ih _)
  rw [rehash_eq_foldl]
  exact hall chains.heads.toList ⟨chains.arena, Array.replicate buckets none⟩

/-- The entries that belong to a bucket, found by what the listing says of them. -/
theorem Spells.rehashed_eq {lists : Nat → List EntryId} (h : chains.Spells lists)
    (buckets bucket : Nat) : chains.rehashed buckets bucket =
      ((chains.listing.filter fun entry =>
        entry.2.hash.toNat % buckets == bucket).map (·.1)).reverse := by
  have hhash : ∀ entry ∈ chains.listing,
      ((chains.storedHash entry.1).toNat % buckets == bucket) =
        (entry.2.hash.toNat % buckets == bucket) := by
    rintro ⟨id, held⟩ hentry
    rw [storedHash, h.mem_listing_iff.mp hentry]
    rfl
  rw [rehashed, ← h.map_fst_listing, List.filter_map]
  exact congrArg (fun entries => (entries.map (·.1)).reverse) (List.filter_congr hhash)

end Chains

/-! ## tables -/

namespace Table

/-- A table after its entries were regrouped for a level. -/
structure Regrouped (before after : Table F p) (target : Level) : Prop where
  level : after.level = target
  heads : after.heads.size = target.buckets
  /-- The chain of a bucket is the reverse of the entries that belong there, in
  the order of the old chains: by bucket, and each from its head. -/
  chain {bucket : Nat} : bucket < target.buckets → after.chain bucket =
    ((before.listing.filter fun entry =>
      entry.2.hash.toNat % target.buckets == bucket).map (·.1)).reverse
  /-- Under every id there is the key, the value and the hash that there was. -/
  holding (id : EntryId) : after.holding? id = before.holding? id
  room : before.arena.SameRoom after.arena
  /-- The new chains end, and partition the entries. -/
  wellLinked : after.WellLinked
  band : after.band = before.band

variable {t : Table F p}

/-- A resize keeps the number of entries, whatever the chains are like. -/
theorem size_resize (t : Table F p) (supply : Supply ε) (target : Level) :
    (t.resize supply target).table.size = t.size := by
  unfold resize
  dsimp only
  split
  · exact (Chains.sameRoom_rehash t.toChains target.buckets).size_eq
  · rfl

theorem size_densityStep [Scale F] (t : Table F p) (supply : Supply ε) :
    (t.densityStep supply).table.size = t.size := by
  unfold densityStep
  split
  · exact t.size_resize supply _
  · rfl

/-- **A resize**, granted or refused. -/
theorem resize_regroups (h : t.WellLinked) (supply : Supply ε) (target : Level) :
    (supply.buckets target.buckets = true →
      t.Regrouped (t.resize supply target).table target) ∧
    (supply.buckets target.buckets = false →
      (t.resize supply target).table =
        { t with lastStep := .abandoned t.buckets target.buckets }) := by
  obtain ⟨hspells, hsize, hholding⟩ := h.rehash target.buckets_pos
  constructor
  · intro hgranted
    unfold resize
    dsimp only
    rw [if_pos hgranted]
    refine ⟨rfl, hsize, fun {bucket} hbucket => ?_, hholding, Chains.sameRoom_rehash _ _,
      hspells.wellLinked, rfl⟩
    rw [← h.rehashed_eq]
    exact hspells.chain_eq (hsize.symm ▸ hbucket)
  · intro hrefused
    unfold resize
    dsimp only
    rw [hrefused, if_neg Bool.false_ne_true]

/-- Two keys on one chain, at the level above: the chain is turned round. -/
theorem resize_regroups_sample :
    let target : Level := ⟨1, by decide⟩
    sample.WellLinked ∧ plenty.buckets target.buckets = true ∧
      sample.chain 0 = [⟨0⟩, ⟨1⟩] ∧
      (sample.resize plenty target).table.chain 0 = [⟨1⟩, ⟨0⟩] ∧
      sample.Regrouped (sample.resize plenty target).table target := by
  have hlinked : sample.WellLinked := reachable_sample.sound.wellLinked
  exact ⟨hlinked, rfl, by decide +kernel, by decide +kernel,
    (resize_regroups hlinked plenty _).1 rfl⟩

end Table

end ChainedTable
