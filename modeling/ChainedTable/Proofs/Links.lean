import ChainedTable.Arena.Valid
import ChainedTable.Chains
import Mathlib.Data.List.Induction

/-!
# ChainedTable.Proofs.Links

Following links, and writing to one.

`Leads arena source ids target` says that the links of an arena lead from one
cursor, over some entries, to another cursor.  It is used like a list segment:

1. segments join where their cursors meet (`leads_append`);
2. a segment does not see what is written outside it (`Leads.congr`);
3. the link behind a segment holds its target (`linked_behind`), and writing
   there changes the target and nothing else (`leads_relink_behind`).

A chain is a segment whose target is `none`.
-/

namespace ChainedTable

variable {κ : Keeper} {KS VS : Type}

/-- What an entry holds, apart from its place in a chain. -/
structure Holding (KS VS : Type) where
  key : KS
  value : Option VS
  hash : UInt64
deriving DecidableEq, Repr

/-- What an entry holds. -/
def Entry.holding (entry : Entry KS VS) : Holding KS VS :=
  ⟨entry.key, entry.value, entry.hash⟩

/-- The link behind a front part of the chain of a bucket. -/
def Link.behind (bucket : Nat) (ids : List EntryId) : Link :=
  ids.getLast?.elim (.head bucket) .after

@[simp] theorem Link.behind_nil (bucket : Nat) : Link.behind bucket [] = .head bucket := rfl

@[simp] theorem Link.behind_concat (bucket : Nat) (ids : List EntryId) (id : EntryId) :
    Link.behind bucket (ids ++ [id]) = .after id := by
  simp [Link.behind]

namespace Chains

/-- The links of an arena lead from one cursor, over some entries, to another. -/
def Leads (arena : Arena κ (Entry KS VS)) : Option EntryId → List EntryId → Option EntryId → Prop
  | source, [], target => source = target
  | source, id :: ids, target =>
    source = some id ∧ ∃ entry, arena.get? id = some entry ∧ Leads arena entry.next ids target

/-- What the entry with a given id holds, if it lives. -/
def holding? (chains : Chains κ KS VS) (id : EntryId) : Option (Holding KS VS) :=
  (chains.arena.get? id).map Entry.holding

/-! ## segments -/

section Segments

variable {arena arena' : Arena κ (Entry KS VS)} {source target : Option EntryId}
  {ids xs ys : List EntryId}

@[simp] theorem leads_nil : Leads arena source [] target ↔ source = target := Iff.rfl

@[simp] theorem leads_cons {id : EntryId} :
    Leads arena source (id :: ids) target ↔
      source = some id ∧
        ∃ entry, arena.get? id = some entry ∧ Leads arena entry.next ids target := Iff.rfl

/-- Two segments join where their cursors meet. -/
theorem leads_append :
    Leads arena source (xs ++ ys) target ↔
      ∃ middle, Leads arena source xs middle ∧ Leads arena middle ys target := by
  induction xs generalizing source with
  | nil => simp
  | cons id xs ih =>
      simp only [List.cons_append, leads_cons, ih]
      constructor
      · rintro ⟨hsource, entry, hget, middle, hxs, hys⟩
        exact ⟨middle, ⟨hsource, entry, hget, hxs⟩, hys⟩
      · rintro ⟨middle, ⟨hsource, entry, hget, hxs⟩, hys⟩
        exact ⟨hsource, entry, hget, middle, hxs, hys⟩

/-- Writes outside a segment leave it as it is. -/
theorem Leads.congr (h : Leads arena source ids target)
    (hsame : ∀ id ∈ ids, (arena'.get? id).map (·.next) = (arena.get? id).map (·.next)) :
    Leads arena' source ids target := by
  induction ids generalizing source with
  | nil => exact h
  | cons id ids ih =>
      obtain ⟨hsource, entry, hget, hrest⟩ := h
      have hnext := hsame id List.mem_cons_self
      rw [hget, Option.map_some, Option.map_eq_some_iff] at hnext
      obtain ⟨entry', hget', hnext⟩ := hnext
      refine ⟨hsource, entry', hget', ?_⟩
      rw [hnext]
      exact ih hrest fun other hother => hsame other (List.mem_cons_of_mem id hother)

/-- Every entry of a segment lives. -/
theorem Leads.live (h : Leads arena source ids target) {id : EntryId} (hid : id ∈ ids) :
    ∃ entry, arena.get? id = some entry := by
  induction ids generalizing source with
  | nil => exact absurd hid List.not_mem_nil
  | cons first ids ih =>
      obtain ⟨_, entry, hget, hrest⟩ := h
      rcases List.mem_cons.mp hid with rfl | hid
      · exact ⟨entry, hget⟩
      · exact ih hrest hid

/-- A cursor starts with the first entry of its segment. -/
theorem Leads.source_eq (h : Leads arena source ids none) : source = ids.head? := by
  cases ids with
  | nil => exact h
  | cons id ids => exact h.1

/-- Following a cursor meets the entries of its chain, if the bound allows. -/
theorem Leads.follow_eq (h : Leads arena source ids none) {bound : Nat}
    (hbound : ids.length ≤ bound) : follow arena bound source = ids := by
  induction ids generalizing source bound with
  | nil =>
      rw [leads_nil] at h
      subst h
      cases bound <;> rfl
  | cons id ids ih =>
      obtain ⟨rfl, entry, hget, hrest⟩ := h
      cases bound with
      | zero => simp at hbound
      | succ bound =>
          simp only [follow, hget]
          rw [ih hrest (by simpa using hbound)]

/-- Distinct living entries are no more than there are slots. -/
theorem length_le_slots (hnodup : ids.Nodup)
    (hlive : ∀ id ∈ ids, ∃ entry, arena.get? id = some entry) :
    ids.length ≤ arena.slots.size := by
  have hinj : (ids.map EntryId.index).Nodup := by
    refine hnodup.map ?_
    rintro ⟨i⟩ ⟨j⟩ rfl
    rfl
  have hlt : ∀ i ∈ ids.map EntryId.index, i < arena.slots.size := by
    intro i hi
    obtain ⟨id, hid, rfl⟩ := List.mem_map.mp hi
    obtain ⟨entry, hget⟩ := hlive id hid
    exact Arena.index_lt_of_get? hget
  simpa using Arena.length_le_of_nodup_of_lt hinj hlt

end Segments

/-! ## writing to a link -/

section Writing

variable {chains : Chains κ KS VS} {bucket : Nat} {ids : List EntryId}
  {target target' : Option EntryId}

@[simp] theorem size_heads_relink (link : Link) :
    (chains.relink link target).heads.size = chains.heads.size := by
  cases link <;> simp [relink]

@[simp] theorem bucketOf_relink (link : Link) (hash : UInt64) :
    (chains.relink link target).bucketOf hash = chains.bucketOf hash := by
  simp [bucketOf]

/-- A write to a link changes no holding. -/
@[simp] theorem holding?_relink (link : Link) (id : EntryId) :
    (chains.relink link target).holding? id = chains.holding? id := by
  cases link with
  | head b => rfl
  | after other =>
      simp only [holding?, relink, Arena.get?_modify]
      split
      · cases chains.arena.get? id <;> rfl
      · rfl

/-- A write to a link keeps the slots as they are. -/
theorem valid_relink (h : chains.arena.Valid) (link : Link) :
    (chains.relink link target).arena.Valid := by
  cases link with
  | head b => exact h
  | after id => exact h.modify id _

/-- A write behind a segment reaches no entry outside it. -/
theorem get?_relink_behind {id : EntryId} (hid : id ∉ ids) :
    (chains.relink (.behind bucket ids) target).arena.get? id = chains.arena.get? id := by
  cases ids using List.reverseRecOn with
  | nil => rfl
  | append_singleton xs last =>
      have hne : last ≠ id := by
        rintro rfl
        simp at hid
      simp [relink, Arena.get?_modify, hne]

/-- A write behind a segment of one bucket reaches the head of no other. -/
theorem linked_head_relink_behind {other : Nat} (hne : other ≠ bucket) :
    (chains.relink (.behind bucket ids) target).linked (.head other) =
      chains.linked (.head other) := by
  cases ids using List.reverseRecOn with
  | nil => simp [relink, linked, Ne.symm hne]
  | append_singleton xs last => simp [relink, linked]

/-- The link behind a segment holds its target. -/
theorem linked_behind (h : Leads chains.arena (chains.linked (.head bucket)) ids target) :
    chains.linked (.behind bucket ids) = target := by
  cases ids using List.reverseRecOn with
  | nil => exact h
  | append_singleton xs last =>
      obtain ⟨_, _, _, entry, hget, hnext⟩ := leads_append.mp h
      rw [Link.behind_concat, linked, hget]
      exact hnext

/-- **Writing behind a segment** changes its target, and the segment stays. -/
theorem leads_relink_behind (h : Leads chains.arena (chains.linked (.head bucket)) ids target)
    (hnodup : ids.Nodup) (hbucket : bucket < chains.heads.size) :
    Leads (chains.relink (.behind bucket ids) target').arena
      ((chains.relink (.behind bucket ids) target').linked (.head bucket)) ids target' := by
  cases ids using List.reverseRecOn with
  | nil => simp [relink, linked, hbucket]
  | append_singleton xs last =>
      obtain ⟨middle, hxs, hmiddle, entry, hget, _⟩ := leads_append.mp h
      have hlast : last ∉ xs := by
        intro hmem
        exact (List.nodup_append.mp hnodup).2.2 last hmem last (by simp) rfl
      rw [Link.behind_concat]
      refine leads_append.mpr ⟨middle, ?_, hmiddle, { entry with next := target' }, ?_, rfl⟩
      · refine hxs.congr fun id hid => ?_
        have hne : last ≠ id := by
          rintro rfl
          exact hlast hid
        simp [relink, Arena.get?_modify, hne]
      · simp [relink, Arena.get?_modify, hget]

end Writing

end Chains

end ChainedTable
