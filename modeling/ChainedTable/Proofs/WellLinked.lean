import ChainedTable.Proofs.Links
import Mathlib.Logic.Function.Basic

/-!
# ChainedTable.Proofs.WellLinked

Chains that partition the entries of an arena.

`Spells chains lists` says that the links of `chains` spell out one list of ids
per bucket: every chain ends, no id is on two chains or twice on one, and the
ids on the chain of a bucket are those of the living entries whose stored hash
belongs there.  What the edits do is said of these lists:

* an entry goes to the end of the list of its bucket (`Spells.insertAt`);
* an entry is cut out of its list, wherever it stands (`Spells.unlink`);
* a value changes and no list does (`Spells.setValue`).

`WellLinked chains` says it of the lists that `chain` reads off, which are the
only ones that can be spelled out (`Spells.chain_eq`).
-/

namespace ChainedTable.Chains

variable {κ : Keeper} {KS VS : Type}

/-- The links spell out one list of ids per bucket. -/
structure Spells (chains : Chains κ KS VS) (lists : Nat → List EntryId) : Prop where
  valid : chains.arena.Valid
  heads_pos : 0 < chains.heads.size
  /-- The chain of a bucket meets the ids of its list, and ends. -/
  leads {bucket : Nat} : bucket < chains.heads.size →
    Leads chains.arena (chains.linked (.head bucket)) (lists bucket) none
  nodup {bucket : Nat} : bucket < chains.heads.size → (lists bucket).Nodup
  /-- The ids on a chain are those of the entries whose stored hash belongs there. -/
  mem_iff {bucket : Nat} {id : EntryId} : bucket < chains.heads.size →
    (id ∈ lists bucket ↔
      ∃ held, chains.holding? id = some held ∧ chains.bucketOf held.hash = bucket)

/-- The lists that `chain` reads off are spelled out by the links. -/
def WellLinked (chains : Chains κ KS VS) : Prop := Spells chains chains.chain

variable {chains : Chains κ KS VS} {lists : Nat → List EntryId}

theorem holding?_eq_some_iff {id : EntryId} {held : Holding KS VS} :
    chains.holding? id = some held ↔
      ∃ entry, chains.arena.get? id = some entry ∧ entry.holding = held := by
  simp [holding?]

theorem holding?_of_get? {id : EntryId} {entry : Entry KS VS}
    (h : chains.arena.get? id = some entry) : chains.holding? id = some entry.holding := by
  simp [holding?, h]

/-- What an entry holds does not change when nothing is done to the arena. -/
theorem holding?_congr {chains' : Chains κ KS VS} {id : EntryId}
    (h : chains'.arena.get? id = chains.arena.get? id) :
    chains'.holding? id = chains.holding? id := by
  simp only [holding?, h]

/-! ## the lists that links spell out -/

namespace Spells

theorem bucketOf_lt (h : Spells chains lists) (hash : UInt64) :
    chains.bucketOf hash < chains.heads.size :=
  Nat.mod_lt _ h.heads_pos

theorem live (h : Spells chains lists) {bucket : Nat} (hbucket : bucket < chains.heads.size)
    {id : EntryId} (hid : id ∈ lists bucket) : ∃ held, chains.holding? id = some held := by
  obtain ⟨held, hheld, _⟩ := (h.mem_iff hbucket).mp hid
  exact ⟨held, hheld⟩

/-- An entry is only on the chain that its stored hash belongs to. -/
theorem home (h : Spells chains lists) {bucket : Nat} (hbucket : bucket < chains.heads.size)
    {id : EntryId} (hid : id ∈ lists bucket) {held : Holding KS VS}
    (hheld : chains.holding? id = some held) : chains.bucketOf held.hash = bucket := by
  obtain ⟨held', hheld', hbucket'⟩ := (h.mem_iff hbucket).mp hid
  rw [hheld, Option.some.injEq] at hheld'
  rw [hheld', hbucket']

/-- A living entry is on the chain that its stored hash belongs to. -/
theorem listed (h : Spells chains lists) {id : EntryId} {held : Holding KS VS}
    (hheld : chains.holding? id = some held) : id ∈ lists (chains.bucketOf held.hash) :=
  (h.mem_iff (h.bucketOf_lt _)).mpr ⟨held, hheld, rfl⟩

/-- No id is on two chains. -/
theorem eq_of_mem (h : Spells chains lists) {bucket other : Nat}
    (hbucket : bucket < chains.heads.size) (hother : other < chains.heads.size)
    {id : EntryId} (hid : id ∈ lists bucket) (hid' : id ∈ lists other) : bucket = other := by
  obtain ⟨held, hheld⟩ := h.live hbucket hid
  rw [← h.home hbucket hid hheld, h.home hother hid' hheld]

/-- An id of no entry is on no chain. -/
theorem not_mem (h : Spells chains lists) {bucket : Nat} (hbucket : bucket < chains.heads.size)
    {id : EntryId} (hfree : chains.arena.get? id = none) : id ∉ lists bucket := by
  intro hid
  obtain ⟨entry, hget⟩ := (h.leads hbucket).live hid
  rw [hfree] at hget
  contradiction

theorem length_le (h : Spells chains lists) {bucket : Nat}
    (hbucket : bucket < chains.heads.size) :
    (lists bucket).length ≤ chains.arena.slots.size :=
  length_le_slots (h.nodup hbucket) fun _ hid => (h.leads hbucket).live hid

/-- The lists are the chains as they are read off. -/
theorem chain_eq (h : Spells chains lists) {bucket : Nat}
    (hbucket : bucket < chains.heads.size) : chains.chain bucket = lists bucket :=
  (h.leads hbucket).follow_eq (h.length_le hbucket)

/-- The link behind a front part of a chain holds the entry that follows. -/
theorem linked_front (h : Spells chains lists) {bucket : Nat} {front rest : List EntryId}
    (hbucket : bucket < chains.heads.size) (hlist : lists bucket = front ++ rest) :
    chains.linked (.behind bucket front) = rest.head? := by
  have hleads := h.leads hbucket
  rw [hlist] at hleads
  obtain ⟨middle, hfront, hrest⟩ := leads_append.mp hleads
  rw [linked_behind hfront, hrest.source_eq]

/-- Only the lists of existing buckets matter. -/
theorem congr (h : Spells chains lists) {lists' : Nat → List EntryId}
    (heq : ∀ bucket < chains.heads.size, lists' bucket = lists bucket) :
    Spells chains lists' where
  valid := h.valid
  heads_pos := h.heads_pos
  leads hbucket := by
    rw [heq _ hbucket]
    exact h.leads hbucket
  nodup hbucket := by
    rw [heq _ hbucket]
    exact h.nodup hbucket
  mem_iff hbucket := by
    rw [heq _ hbucket]
    exact h.mem_iff hbucket

theorem wellLinked (h : Spells chains lists) : chains.WellLinked :=
  h.congr fun _ hbucket => h.chain_eq hbucket

end Spells

/-! ## edits -/

/-- Links with no entries: every chain is empty. -/
theorem spells_of_get?_eq_none (hvalid : chains.arena.Valid) (hpos : 0 < chains.heads.size)
    (hget : ∀ id, chains.arena.get? id = none)
    (hhead : ∀ bucket < chains.heads.size, chains.linked (.head bucket) = none) :
    Spells chains fun _ => [] where
  valid := hvalid
  heads_pos := hpos
  leads hbucket := hhead _ hbucket
  nodup _ := List.nodup_nil
  mem_iff _ := by simp [holding?, hget]

theorem spells_empty {buckets : Nat} (hpos : 0 < buckets) :
    Spells (empty buckets : Chains κ KS VS) fun _ => [] := by
  refine spells_of_get?_eq_none Arena.valid_empty (by simpa [empty] using hpos)
    (fun id => Arena.get?_empty id) fun bucket hbucket => ?_
  have hlt : bucket < buckets := by simpa [empty] using hbucket
  simp [linked, empty, hlt]

theorem Spells.clear (h : Spells chains lists) : Spells chains.clear fun _ => [] := by
  have hsize : chains.clear.heads.size = chains.heads.size := by simp [Chains.clear]
  refine spells_of_get?_eq_none h.valid.clear (by rw [hsize]; exact h.heads_pos)
    (fun id => Arena.get?_clear _ id) fun bucket hbucket => ?_
  rw [hsize] at hbucket
  simp [linked, Chains.clear, hbucket]

/-- Entries that hold the same and lead on the same spell the same lists. -/
theorem Spells.congr_arena (h : Spells chains lists) {arena : Arena κ (Entry KS VS)}
    (hvalid : arena.Valid)
    (hnext : ∀ id, (arena.get? id).map (·.next) = (chains.arena.get? id).map (·.next))
    (hhash : ∀ id, (arena.get? id).map (·.hash) = (chains.arena.get? id).map (·.hash)) :
    Spells { chains with arena } lists where
  valid := hvalid
  heads_pos := h.heads_pos
  leads hbucket := (h.leads hbucket).congr fun id _ => hnext id
  nodup := h.nodup
  mem_iff {bucket id} hbucket := by
    have hid := hhash id
    rw [h.mem_iff hbucket]
    simp only [holding?]
    cases hold : chains.arena.get? id <;> cases hnew : arena.get? id <;>
      simp_all [Entry.holding, bucketOf]

/-- Room made in the arena is seen by no link. -/
theorem Spells.reserve (h : Spells chains lists) {granted : Bool} {larger : Arena κ (Entry KS VS)}
    (hlarger : chains.arena.reserve granted = some larger) :
    Spells { chains with arena := larger } lists :=
  h.congr_arena (h.valid.reserve hlarger).1
    (fun id => by rw [Arena.get?_reserve hlarger]) (fun id => by rw [Arena.get?_reserve hlarger])

/-- Room made in the arena is not room taken. -/
theorem nextId_reserve {arena larger : Arena κ (Entry KS VS)} {granted : Bool}
    (hlarger : arena.reserve granted = some larger) : larger.nextId = arena.nextId := by
  unfold Arena.reserve at hlarger
  grind [Arena.nextId]

/-- The value of an entry is seen by no link. -/
theorem Spells.setValue (h : Spells chains lists) (id : EntryId) (value : Option VS) :
    Spells (chains.setValue id value) lists := by
  refine h.congr_arena (h.valid.modify id _) (fun other => ?_) (fun other => ?_)
  all_goals
    rw [Arena.get?_modify]
    split
    · cases chains.arena.get? other <;> rfl
    · rfl

theorem holding?_setValue_of_ne {id other : EntryId} (hne : other ≠ id) (value : Option VS) :
    (chains.setValue id value).holding? other = chains.holding? other := by
  refine holding?_congr ?_
  rw [setValue, Arena.get?_modify, if_neg (Ne.symm hne)]

/-- A chain gets another end: what the link behind its front part leads to. -/
theorem spells_relink_behind {bucket : Nat} {front rest : List EntryId}
    {old target : Option EntryId} (hvalid : chains.arena.Valid)
    (hbucket : bucket < chains.heads.size)
    (hothers : ∀ other < chains.heads.size, other ≠ bucket →
      Leads chains.arena (chains.linked (.head other)) (lists other) none ∧ (lists other).Nodup)
    (hfront : Leads chains.arena (chains.linked (.head bucket)) front old)
    (hrest : Leads chains.arena target rest none) (hnodup : (front ++ rest).Nodup)
    (hmem : ∀ other < chains.heads.size, ∀ id,
      id ∈ Function.update lists bucket (front ++ rest) other ↔
        ∃ held, chains.holding? id = some held ∧ chains.bucketOf held.hash = other) :
    Spells (chains.relink (.behind bucket front) target)
      (Function.update lists bucket (front ++ rest)) := by
  have hparts := List.nodup_append.mp hnodup
  have hself := hmem bucket hbucket
  rw [Function.update_self] at hself
  refine ⟨valid_relink hvalid _, by rw [size_heads_relink]; omega, ?_, ?_, ?_⟩
  · intro other hother
    rw [size_heads_relink] at hother
    by_cases heq : other = bucket
    · subst heq
      rw [Function.update_self]
      refine leads_append.mpr ⟨target, leads_relink_behind hfront hparts.1 hbucket, ?_⟩
      exact hrest.congr fun id hid => by
        rw [get?_relink_behind fun hid' => hparts.2.2 id hid' id hid rfl]
    · rw [Function.update_of_ne heq, linked_head_relink_behind heq]
      refine (hothers other hother heq).1.congr fun id hid => ?_
      have hhere := hmem other hother id
      rw [Function.update_of_ne heq] at hhere
      rw [get?_relink_behind fun hid' => ?_]
      obtain ⟨held, hheld, hb⟩ := hhere.mp hid
      obtain ⟨held', hheld', hb'⟩ := (hself id).mp (List.mem_append_left rest hid')
      rw [hheld, Option.some.injEq] at hheld'
      exact heq (by rw [← hb, hheld', hb'])
  · intro other hother
    rw [size_heads_relink] at hother
    by_cases heq : other = bucket
    · subst heq
      rwa [Function.update_self]
    · rw [Function.update_of_ne heq]
      exact (hothers other hother heq).2
  · intro other id hother
    rw [size_heads_relink] at hother
    simpa using hmem other hother id

/-! ## putting an entry in -/

section Inserting

variable (hash : UInt64) (key : KS) (value : Option VS)

theorem size_heads_insertAt (link : Link) :
    (chains.insertAt link hash key value).heads.size = chains.heads.size := by
  simp [insertAt]

theorem holding?_insertAt (hvalid : chains.arena.Valid) (link : Link) (id : EntryId) :
    (chains.insertAt link hash key value).holding? id =
      if id = chains.arena.nextId then some ⟨key, value, hash⟩ else chains.holding? id := by
  simp only [insertAt, holding?_relink]
  rw [holding?, hvalid.get?_insert]
  split <;> rfl

/-- **A new entry** goes to the end of the list of its bucket. -/
theorem Spells.insertAt (h : Spells chains lists) (hroom : chains.arena.HasRoom) {bucket : Nat}
    (hbucket : chains.bucketOf hash = bucket) :
    Spells (chains.insertAt (.behind bucket (lists bucket)) hash key value)
      (Function.update lists bucket (lists bucket ++ [chains.arena.nextId])) := by
  have hnew := h.valid.get?_nextId
  have hlt : bucket < chains.heads.size := hbucket ▸ h.bucketOf_lt hash
  -- the entry is in the arena, and no link holds it yet
  let placed : Chains κ KS VS :=
    { chains with arena := chains.arena.insert ⟨key, value, hash, none⟩ }
  have hvalid : placed.arena.Valid := h.valid.insert hroom _
  have hget := h.valid.get?_insert (x := ⟨key, value, hash, none⟩)
  have hleads : ∀ other < chains.heads.size,
      Leads placed.arena (placed.linked (.head other)) (lists other) none := by
    intro other hother
    refine (h.leads hother).congr fun id hid => ?_
    rw [hget, if_neg (ne_of_mem_of_not_mem hid (h.not_mem hother hnew))]
  refine spells_relink_behind hvalid hlt
    (fun other hother _ => ⟨hleads other hother, h.nodup hother⟩)
    (hleads bucket hlt) ⟨rfl, _, (hget _).trans (if_pos rfl), rfl⟩ ?_ ?_
  · refine List.nodup_append.mpr ⟨h.nodup hlt, by simp, fun id hid other hother => ?_⟩
    rw [List.mem_singleton] at hother
    exact hother ▸ ne_of_mem_of_not_mem hid (h.not_mem hlt hnew)
  · intro other hother id
    simp only [holding?, hget]
    by_cases heq : id = chains.arena.nextId
    · subst heq
      have hnot := h.not_mem hother hnew
      by_cases hb : other = bucket
      · subst hb
        simp [Entry.holding, bucketOf, ← hbucket]
      · rw [Function.update_of_ne hb]
        simp only [hnot, if_true, Option.map_some, Option.some.injEq, false_iff]
        rintro ⟨held, rfl, hb'⟩
        exact hb (hb'.symm.trans hbucket)
    · have hid : id ∈ Function.update lists bucket (lists bucket ++ [chains.arena.nextId]) other ↔
          id ∈ lists other := by
        by_cases hb : other = bucket
        · subst hb
          simp [heq]
        · rw [Function.update_of_ne hb]
      rw [hid, h.mem_iff hother, if_neg heq]
      rfl

end Inserting

/-! ## taking an entry out -/

section Removing

variable {id : EntryId} {entry : Entry KS VS}

theorem size_heads_unlink (link : Link) :
    (chains.unlink link id entry).heads.size = chains.heads.size := by
  simp [unlink]

theorem holding?_unlink (link : Link) (other : EntryId) :
    (chains.unlink link id entry).holding? other =
      if id = other then none else chains.holding? other := by
  simp only [unlink, holding?_relink]
  rw [holding?, Arena.get?_erase]
  split <;> rfl

/-- **An entry that is removed** is cut out of its list, wherever it stands. -/
theorem Spells.unlink (h : Spells chains lists) {bucket : Nat} {front rest : List EntryId}
    (hbucket : bucket < chains.heads.size) (hlist : lists bucket = front ++ id :: rest)
    (hget : chains.arena.get? id = some entry) :
    Spells (chains.unlink (.behind bucket front) id entry)
      (Function.update lists bucket (front ++ rest)) := by
  have hnodup := h.nodup hbucket
  rw [hlist] at hnodup
  have hparts := List.nodup_append.mp hnodup
  have hfront : id ∉ front := fun hid => hparts.2.2 id hid id List.mem_cons_self rfl
  have hrest : id ∉ rest := (List.nodup_cons.mp hparts.2.1).1
  have hmem : id ∈ lists bucket := by simp [hlist]
  obtain ⟨old, hold, _, entry', hget', hleads⟩ := leads_append.mp (hlist ▸ h.leads hbucket)
  obtain rfl : entry = entry' := Option.some.inj (hget.symm.trans hget')
  let cut : Chains κ KS VS := { chains with arena := chains.arena.erase id }
  have hvalid : cut.arena.Valid := h.valid.erase hget'
  have hget := fun other => Arena.get?_erase chains.arena id other
  -- no segment without the entry sees that its slot is vacated
  have hleave : ∀ {source target : Option EntryId} {ids : List EntryId},
      Leads chains.arena source ids target → id ∉ ids →
        Leads cut.arena source ids target := fun hids hid =>
    hids.congr fun other hother => by rw [hget, if_neg (ne_of_mem_of_not_mem hother hid).symm]
  refine spells_relink_behind hvalid hbucket (fun other hother hne => ⟨?_, h.nodup hother⟩)
    (hleave hold hfront) (hleave hleads hrest) ?_ ?_
  · exact hleave (h.leads hother) fun hid => hne (h.eq_of_mem hother hbucket hid hmem)
  · exact hnodup.sublist (List.Sublist.append_left (List.sublist_cons_self id rest) front)
  · intro other hother id'
    simp only [holding?, hget]
    have hiff : id' ∈ lists other ↔ _ := h.mem_iff hother
    by_cases heq : id = id'
    · subst heq
      have hnot : id ∉ Function.update lists bucket (front ++ rest) other := by
        by_cases hb : other = bucket
        · subst hb
          simp [hfront, hrest]
        · rw [Function.update_of_ne hb]
          exact fun hid => hb (h.eq_of_mem hother hbucket hid hmem)
      simp [hnot]
    · have hid : id' ∈ Function.update lists bucket (front ++ rest) other ↔
          id' ∈ lists other := by
        by_cases hb : other = bucket
        · subst hb
          simp [hlist, Ne.symm heq]
        · rw [Function.update_of_ne hb]
      rw [hid, hiff, if_neg heq]
      rfl

end Removing

end ChainedTable.Chains
