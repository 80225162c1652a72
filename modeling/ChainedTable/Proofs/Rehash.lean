import ChainedTable.Proofs.Listing

/-!
# ChainedTable.Proofs.Rehash

What `rehash` makes of the chains.

`scatter` consumes one old chain.  While it runs, some entries are on new chains
already, and the others are still to be met from the cursor.  The two kinds
share no entry, so a write to an entry that has been met is seen neither by the
chain that is being built elsewhere nor by the rest of the old one.  Each entry
goes to the head of its new chain: in the end a new chain is the reverse of the
entries that belong there, in the order in which they were met
(`Spells.rehash`).
-/

namespace ChainedTable.Chains

variable {κ : Keeper} {KS VS : Type} {chains moved : Chains κ KS VS} {lists : Nat → List EntryId}

/-- The hash stored with an entry. -/
def storedHash (chains : Chains κ KS VS) (id : EntryId) : UInt64 :=
  (chains.holding? id).elim 0 (·.hash)

/-- The entries of a list that belong to a bucket, in the order of the list. -/
def belonging (chains : Chains κ KS VS) (ids : List EntryId) (bucket : Nat) : List EntryId :=
  ids.filter fun id => chains.bucketOf (chains.storedHash id) == bucket

/-- Lists of ids, after the entries of a list were put in front of them one by one. -/
def received (chains : Chains κ KS VS) (lists : Nat → List EntryId) (ids : List EntryId)
    (bucket : Nat) : List EntryId :=
  (chains.belonging ids bucket).reverse ++ lists bucket

/-- Puts an entry at the head of the chain of a bucket. -/
def pushFront (chains : Chains κ KS VS) (bucket : Nat) (id : EntryId) : Chains κ KS VS :=
  (chains.relink (.after id) (chains.linked (.head bucket))).relink (.head bucket) (some id)

theorem storedHash_of_get? {id : EntryId} {entry : Entry KS VS}
    (h : chains.arena.get? id = some entry) : chains.storedHash id = entry.hash := by
  simp [storedHash, holding?_of_get? h, Entry.holding]

theorem mem_belonging_iff {ids : List EntryId} {bucket : Nat} {id : EntryId} :
    id ∈ chains.belonging ids bucket ↔
      id ∈ ids ∧ chains.bucketOf (chains.storedHash id) = bucket := by
  simp [belonging]

theorem received_append (xs ys : List EntryId) :
    chains.received (chains.received lists xs) ys = chains.received lists (xs ++ ys) := by
  funext bucket
  simp [received, belonging, List.append_assoc]

theorem mem_of_mem_received {ids : List EntryId} {bucket : Nat} {id : EntryId}
    (h : id ∈ chains.received lists ids bucket) : id ∈ ids ∨ id ∈ lists bucket := by
  rcases List.mem_append.mp h with h | h
  · exact Or.inl (mem_belonging_iff.mp (List.mem_reverse.mp h)).1
  · exact Or.inr h

/-! ## what moving entries keeps -/

/-- Nothing changes but heads of chains and the links of some entries. -/
structure Moves (before after : Chains κ KS VS) (ids : List EntryId) : Prop where
  heads : after.heads.size = before.heads.size
  holding (id : EntryId) : after.holding? id = before.holding? id
  valid : before.arena.Valid → after.arena.Valid
  get? {id : EntryId} : id ∉ ids → after.arena.get? id = before.arena.get? id

namespace Moves

variable {first second third : Chains κ KS VS} {xs ys : List EntryId}

theorem refl (chains : Chains κ KS VS) : Moves chains chains [] :=
  ⟨rfl, fun _ => rfl, id, fun _ => rfl⟩

theorem trans (h : Moves first second xs) (h' : Moves second third ys) :
    Moves first third (xs ++ ys) where
  heads := h'.heads.trans h.heads
  holding id := (h'.holding id).trans (h.holding id)
  valid hvalid := h'.valid (h.valid hvalid)
  get? hid := by
    rw [List.mem_append, not_or] at hid
    rw [h'.get? hid.2, h.get? hid.1]

theorem received_eq (h : Moves first second xs) (lists : Nat → List EntryId)
    (ids : List EntryId) : second.received lists ids = first.received lists ids := by
  funext bucket
  simp [received, belonging, storedHash, bucketOf, h.holding, h.heads]

/-- A segment of entries that are not moved stays. -/
theorem leads (h : Moves first second xs) {source target : Option EntryId}
    {ids : List EntryId} (hids : ∀ id ∈ ids, id ∉ xs)
    (hleads : Leads first.arena source ids target) : Leads second.arena source ids target :=
  hleads.congr fun id hid => by rw [h.get? (hids id hid)]

end Moves

theorem moves_pushFront (chains : Chains κ KS VS) (bucket : Nat) (id : EntryId) :
    Moves chains (chains.pushFront bucket id) [id] where
  heads := by simp [pushFront]
  holding other := by simp [pushFront]
  valid hvalid := valid_relink (valid_relink hvalid _) _
  get? hne := by
    rw [List.mem_singleton] at hne
    simp [pushFront, relink, Arena.get?_modify, Ne.symm hne]

/-! ## new chains -/

/-- New chains, while the entries of a list still wait to be moved: every chain
ends, and none has met a waiting entry. -/
structure Receiving (moved : Chains κ KS VS) (lists : Nat → List EntryId)
    (waiting : List EntryId) : Prop where
  leads {bucket : Nat} : bucket < moved.heads.size →
    Leads moved.arena (moved.linked (.head bucket)) (lists bucket) none
  apart {bucket : Nat} : bucket < moved.heads.size → ∀ id ∈ waiting, id ∉ lists bucket

/-- One entry arrives. -/
theorem Receiving.pushFront {id : EntryId} {waiting : List EntryId}
    (h : Receiving moved lists (id :: waiting)) (hid : id ∉ waiting) {entry : Entry KS VS}
    (hget : moved.arena.get? id = some entry) (hpos : 0 < moved.heads.size) :
    Receiving (moved.pushFront (moved.bucketOf entry.hash) id) (moved.received lists [id])
      waiting := by
  have hmoves := moves_pushFront moved (moved.bucketOf entry.hash) id
  have hlt : moved.bucketOf entry.hash < moved.heads.size := Nat.mod_lt _ hpos
  constructor
  · intro bucket hbucket
    rw [hmoves.heads] at hbucket
    have hfresh := h.apart hbucket id List.mem_cons_self
    have hstay := hmoves.leads (fun other hother => by
      simpa using ne_of_mem_of_not_mem hother hfresh) (h.leads hbucket)
    by_cases heq : moved.bucketOf entry.hash = bucket
    · subst heq
      have hlist : moved.received lists [id] (moved.bucketOf entry.hash) =
          id :: lists (moved.bucketOf entry.hash) := by
        simp [received, belonging, storedHash_of_get? hget]
      rw [hlist]
      refine ⟨by simp [Chains.pushFront, relink, linked, hlt],
        { entry with next := moved.linked (.head (moved.bucketOf entry.hash)) }, ?_, hstay⟩
      simp [Chains.pushFront, relink, Arena.get?_modify, hget]
    · have hlist : moved.received lists [id] bucket = lists bucket := by
        simp [received, belonging, storedHash_of_get? hget, heq]
      have hhead : (moved.pushFront (moved.bucketOf entry.hash) id).linked (.head bucket) =
          moved.linked (.head bucket) := by
        simp [Chains.pushFront, relink, linked, heq]
      rw [hlist, hhead]
      exact hstay
  · intro bucket hbucket other hother hmem
    rw [hmoves.heads] at hbucket
    rcases mem_of_mem_received hmem with hmem | hmem
    · exact hid (List.mem_singleton.mp hmem ▸ hother)
    · exact h.apart hbucket other (List.mem_cons_of_mem id hother) hmem

/-- **One chain**: its entries go to the heads of their new chains, one by one. -/
theorem Receiving.scatter {ids waiting : List EntryId} {cursor : Option EntryId} {bound : Nat}
    (h : Receiving moved lists (ids ++ waiting)) (hcursor : Leads moved.arena cursor ids none)
    (hnodup : (ids ++ waiting).Nodup) (hbound : ids.length ≤ bound)
    (hpos : 0 < moved.heads.size) :
    Receiving (Chains.scatter bound cursor moved) (moved.received lists ids) waiting ∧
      Moves moved (Chains.scatter bound cursor moved) ids := by
  induction ids generalizing cursor bound moved lists with
  | nil =>
      have hstay : Chains.scatter bound cursor moved = moved := by
        rw [leads_nil] at hcursor
        subst hcursor
        cases bound <;> rfl
      rw [hstay]
      exact ⟨h, Moves.refl moved⟩
  | cons id ids ih =>
      obtain ⟨rfl, entry, hget, hrest⟩ := hcursor
      obtain ⟨hid, hnodup⟩ := List.nodup_cons.mp hnodup
      cases bound with
      | zero => simp at hbound
      | succ bound =>
          have hstep : Chains.scatter (bound + 1) (some id) moved =
              Chains.scatter bound entry.next
                (moved.pushFront (moved.bucketOf entry.hash) id) := by
            simp only [Chains.scatter, hget]
            rfl
          have hmoves := moves_pushFront moved (moved.bucketOf entry.hash) id
          have hnext := hmoves.leads (fun other hother => by
            simpa using ne_of_mem_of_not_mem (List.mem_append_left waiting hother) hid) hrest
          obtain ⟨hreceiving, hmoves'⟩ := ih (h.pushFront hid hget hpos) hnext hnodup
            (by simpa using hbound) (by rwa [hmoves.heads])
          rw [hmoves.received_eq, received_append] at hreceiving
          rw [hstep]
          exact ⟨hreceiving, hmoves.trans hmoves'⟩

/-! ## all chains -/

/-- Moves the entries of one old chain. -/
def consume (moved : Chains κ KS VS) (head : Option EntryId) : Chains κ KS VS :=
  Chains.scatter moved.arena.slots.size head moved

theorem rehash_eq_foldl (chains : Chains κ KS VS) (buckets : Nat) :
    chains.rehash buckets =
      chains.heads.toList.foldl consume ⟨chains.arena, Array.replicate buckets none⟩ := by
  rw [Array.foldl_toList]
  rfl

/-- **All chains** are consumed one after the other. -/
theorem Receiving.foldl_consume {idss : List (List EntryId)}
    (h : Receiving moved lists idss.flatten)
    (hchains : ∀ ids ∈ idss, Leads moved.arena ids.head? ids none)
    (hnodup : idss.flatten.Nodup) (hpos : 0 < moved.heads.size) :
    Receiving ((idss.map List.head?).foldl consume moved)
        (moved.received lists idss.flatten) [] ∧
      Moves moved ((idss.map List.head?).foldl consume moved) idss.flatten := by
  induction idss generalizing moved lists with
  | nil => exact ⟨h, Moves.refl moved⟩
  | cons ids idss ih =>
      rw [List.flatten_cons] at h hnodup
      have hparts := List.nodup_append.mp hnodup
      have hfirst := hchains ids List.mem_cons_self
      obtain ⟨hreceiving, hmoves⟩ := h.scatter hfirst hnodup
        (length_le_slots hparts.1 fun _ => hfirst.live) hpos
      have hrest : ∀ others ∈ idss,
          Leads (moved.consume ids.head?).arena others.head? others none := fun others hothers =>
        hmoves.leads (fun id hid hid' =>
          hparts.2.2 id hid' id (List.mem_flatten_of_mem hothers hid) rfl)
          (hchains others (List.mem_cons_of_mem ids hothers))
      obtain ⟨hreceiving', hmoves'⟩ := ih hreceiving hrest hparts.2.1 (by rwa [hmoves.heads])
      rw [hmoves.received_eq, received_append] at hreceiving'
      exact ⟨hreceiving', hmoves.trans hmoves'⟩

namespace Spells

theorem heads_eq (h : Spells chains lists) :
    chains.heads.toList =
      ((List.range chains.heads.size).map lists).map List.head? := by
  refine List.ext_getElem (by simp) fun bucket hbucket _ => ?_
  have hlt : bucket < chains.heads.size := by simpa using hbucket
  have hhead := (h.leads hlt).source_eq
  simpa [linked, hlt] using hhead

end Spells

/-- The new chain of a bucket: the entries that belong there, in the reverse
order of the old traversal. -/
def rehashed (chains : Chains κ KS VS) (buckets bucket : Nat) : List EntryId :=
  (chains.traversal.filter fun id => (chains.storedHash id).toNat % buckets == bucket).reverse

/-- The chains by bucket, one after the other, are a traversal. -/
theorem Spells.flatten_lists (h : Spells chains lists) :
    ((List.range chains.heads.size).map lists).flatten = chains.traversal := by
  rw [h.traversal_eq, List.flatMap_def]

/-- New heads, before any entry was moved: all entries still wait on their old
chains. -/
theorem Spells.receiving_bare (h : Spells chains lists) (buckets : Nat) :
    Receiving ⟨chains.arena, Array.replicate buckets none⟩ (fun _ => [])
        ((List.range chains.heads.size).map lists).flatten ∧
      (∀ ids ∈ (List.range chains.heads.size).map lists,
        Leads chains.arena ids.head? ids none) ∧
      ((List.range chains.heads.size).map lists).flatten.Nodup := by
  refine ⟨⟨fun {bucket} hbucket => ?_, fun _ _ _ => List.not_mem_nil⟩, fun ids hids => ?_, ?_⟩
  · rw [Array.size_replicate] at hbucket
    simp [linked, hbucket]
  · obtain ⟨bucket, hbucket, rfl⟩ := List.mem_map.mp hids
    have hleads := h.leads (List.mem_range.mp hbucket)
    exact hleads.source_eq ▸ hleads
  · rw [h.flatten_lists]
    exact h.nodup_traversal

/-- **Another array of heads** takes all entries, and they hold what they held. -/
theorem Spells.rehash (h : Spells chains lists) {buckets : Nat} (hpos : 0 < buckets) :
    Spells (chains.rehash buckets) (chains.rehashed buckets) ∧
      (chains.rehash buckets).heads.size = buckets ∧
      ∀ id, (chains.rehash buckets).holding? id = chains.holding? id := by
  let bare : Chains κ KS VS := ⟨chains.arena, Array.replicate buckets none⟩
  have hsize : bare.heads.size = buckets := Array.size_replicate
  obtain ⟨hbare, hchains, hnodup⟩ := h.receiving_bare buckets
  obtain ⟨hreceiving, hmoves⟩ := hbare.foldl_consume hchains hnodup (by rwa [hsize])
  rw [← h.heads_eq, ← rehash_eq_foldl, h.flatten_lists] at hreceiving hmoves
  have hlists : bare.received (fun _ => []) chains.traversal = chains.rehashed buckets := by
    funext bucket
    simp [received, belonging, rehashed, bucketOf, storedHash, holding?, bare]
  rw [hlists] at hreceiving
  refine ⟨⟨hmoves.valid h.valid, by rw [hmoves.heads, hsize]; exact hpos, hreceiving.leads,
    fun _ => List.nodup_reverse.mpr (h.nodup_traversal.filter _), fun {bucket id} _ => ?_⟩,
    hmoves.heads.trans hsize, hmoves.holding⟩
  have hholding : ∀ id, (chains.rehash buckets).holding? id = chains.holding? id := hmoves.holding
  have hbucketOf : ∀ hash, (chains.rehash buckets).bucketOf hash = hash.toNat % buckets := by
    intro hash
    rw [bucketOf, hmoves.heads, hsize]
  simp only [rehashed, List.mem_reverse, List.mem_filter, h.mem_traversal_iff, hholding,
    hbucketOf, beq_iff_eq]
  constructor
  · rintro ⟨⟨held, hheld⟩, hhash⟩
    rw [storedHash, hheld] at hhash
    exact ⟨held, hheld, hhash⟩
  · rintro ⟨held, hheld, hhash⟩
    refine ⟨⟨held, hheld⟩, ?_⟩
    rw [storedHash, hheld]
    exact hhash

end ChainedTable.Chains
