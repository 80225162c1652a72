import ChainedTable.Proofs.WellLinked

/-!
# ChainedTable.Proofs.Listing

All entries, in the order of their chains.

A traversal goes through the chains by bucket, and each from its head.  On
chains that are well linked it meets every living entry, and meets it once; so
two tables with the same entries list them in some order.
-/

namespace ChainedTable.Chains

variable {κ : Keeper} {KS VS : Type} {chains chains' : Chains κ KS VS} {lists : Nat → List EntryId}

/-- Entries with what they hold. -/
def listed (chains : Chains κ KS VS) (ids : List EntryId) : List (EntryId × Holding KS VS) :=
  ids.filterMap fun id => (chains.holding? id).map (id, ·)

/-- All entries with what they hold: bucket by bucket, each chain from its head. -/
def listing (chains : Chains κ KS VS) : List (EntryId × Holding KS VS) :=
  chains.listed chains.traversal

theorem listed_append (xs ys : List EntryId) :
    chains.listed (xs ++ ys) = chains.listed xs ++ chains.listed ys :=
  List.filterMap_append

theorem listed_cons {id : EntryId} {held : Holding KS VS} (h : chains.holding? id = some held)
    (ids : List EntryId) : chains.listed (id :: ids) = (id, held) :: chains.listed ids := by
  rw [listed, List.filterMap_cons, h]
  rfl

theorem listed_congr {ids : List EntryId}
    (h : ∀ id ∈ ids, chains'.holding? id = chains.holding? id) :
    chains'.listed ids = chains.listed ids :=
  List.filterMap_congr fun id hid => by rw [h id hid]

namespace Spells

/-- A traversal goes through the lists that are spelled out, bucket by bucket. -/
theorem traversal_eq (h : Spells chains lists) :
    chains.traversal = (List.range chains.heads.size).flatMap lists :=
  List.flatMap_congr fun _ hbucket => h.chain_eq (List.mem_range.mp hbucket)

/-- No entry is met twice in a traversal. -/
theorem nodup_traversal (h : Spells chains lists) : chains.traversal.Nodup := by
  rw [h.traversal_eq, List.nodup_flatMap]
  refine ⟨fun bucket hbucket => h.nodup (List.mem_range.mp hbucket), ?_⟩
  refine List.nodup_range.pairwise_of_forall_ne
    fun bucket hbucket other hother hne id hid hid' => ?_
  exact hne (h.eq_of_mem (List.mem_range.mp hbucket) (List.mem_range.mp hother) hid hid')

/-- A traversal meets every living entry. -/
theorem mem_traversal_iff (h : Spells chains lists) {id : EntryId} :
    id ∈ chains.traversal ↔ ∃ held, chains.holding? id = some held := by
  rw [h.traversal_eq, List.mem_flatMap]
  constructor
  · rintro ⟨bucket, hbucket, hid⟩
    exact h.live (List.mem_range.mp hbucket) hid
  · rintro ⟨held, hheld⟩
    exact ⟨_, List.mem_range.mpr (h.bucketOf_lt held.hash), h.listed hheld⟩

/-- A traversal meets as many entries as there are. -/
theorem length_traversal (h : Spells chains lists) : chains.traversal.length = chains.size := by
  have hperm : chains.traversal.Perm (chains.arena.entries.map (·.1)) := by
    refine (List.perm_ext_iff_of_nodup h.nodup_traversal (Arena.nodup_entries _)).mpr fun id => ?_
    rw [h.mem_traversal_iff, List.mem_map]
    constructor
    · rintro ⟨held, hheld⟩
      obtain ⟨entry, hget, -⟩ := holding?_eq_some_iff.mp hheld
      exact ⟨(id, entry), Arena.mem_entries_iff.mpr hget, rfl⟩
    · rintro ⟨⟨_, entry⟩, hmem, rfl⟩
      exact ⟨_, holding?_of_get? (Arena.mem_entries_iff.mp hmem)⟩
  rw [hperm.length_eq, List.length_map, h.valid.length_entries]
  rfl

theorem map_fst_listing (h : Spells chains lists) :
    chains.listing.map (·.1) = chains.traversal := by
  rw [listing, Chains.listed, List.map_filterMap]
  refine (List.filterMap_congr fun id hid => ?_).trans List.filterMap_some
  obtain ⟨held, hheld⟩ := h.mem_traversal_iff.mp hid
  rw [hheld]
  rfl

/-- The listing has every entry once. -/
theorem nodup_listing (h : Spells chains lists) : (chains.listing.map (·.1)).Nodup := by
  rw [h.map_fst_listing]
  exact h.nodup_traversal

theorem mem_listing_iff (h : Spells chains lists) {id : EntryId} {held : Holding KS VS} :
    (id, held) ∈ chains.listing ↔ chains.holding? id = some held := by
  rw [listing, Chains.listed, List.mem_filterMap]
  constructor
  · rintro ⟨other, -, hother⟩
    obtain ⟨held', hheld, heq⟩ := Option.map_eq_some_iff.mp hother
    obtain ⟨rfl, rfl⟩ := Prod.mk.inj heq
    exact hheld
  · intro hheld
    exact ⟨id, h.mem_traversal_iff.mpr ⟨held, hheld⟩, by rw [hheld]; rfl⟩

theorem length_listing (h : Spells chains lists) : chains.listing.length = chains.size := by
  rw [← h.length_traversal, ← h.map_fst_listing, List.length_map]

/-- Tables with the same entries list them in some order. -/
theorem listing_perm {lists' : Nat → List EntryId} (h : Spells chains lists)
    (h' : Spells chains' lists') (hsame : ∀ id, chains'.holding? id = chains.holding? id) :
    chains'.listing.Perm chains.listing := by
  have hperm : chains'.traversal.Perm chains.traversal := by
    refine (List.perm_ext_iff_of_nodup h'.nodup_traversal h.nodup_traversal).mpr fun id => ?_
    simp only [h.mem_traversal_iff, h'.mem_traversal_iff, hsame]
  rw [listing, listed_congr fun id _ => hsame id]
  exact hperm.filterMap _

end Spells

end ChainedTable.Chains
