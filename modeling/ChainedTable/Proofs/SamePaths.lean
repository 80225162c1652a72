import ChainedTable.Proofs.Chronicle
import ChainedTable.Proofs.Moments
import ChainedTable.Proofs.Refusals

/-!
# ChainedTable.Proofs.SamePaths

Several ways to the same table.

What can be done in one call can often be done in another, or in two.

1. Mapping a key to no value is opening its slot.  A new key is linked by `insertNew`
   on the one way and by `openNew` on the other (`openNew_eq_insertNew`).
2. A value can be given with the key, or stored in the open slot.  For a new key
   there is a density step in between, but no edit of a chain looks at a value
   (`Chains.rehash_setValue`), so that it may come before the step or after it.
3. Taking a key is erasing it, but for what becomes of the value.
4. Under a walk, storing a value at the entry of a key is mapping the key to it.
-/

namespace ChainedTable

variable {F ε K KS V VS σ ω : Type} {κ : Keeper} {p : Policies ε K KS V VS κ}

/-! ## values and chains -/

/-- A new entry can be changed before it is put in, or after. -/
theorem Arena.modify_insert {α : Type} (arena : Arena κ α) (entry : α) (f : α → α) :
    (arena.insert entry).modify arena.nextId f = arena.insert (f entry) := by
  unfold insert nextId
  cases hnext : κ.next arena.vacant with
  | none =>
      have hslots : (arena.slots.push (some entry)).modify arena.slots.size (·.map f) =
          arena.slots.push (some (f entry)) := by
        refine Array.ext_getElem? fun i => ?_
        simp only [Array.getElem?_modify, Array.getElem?_push]
        split
        · next heq => simp [heq]
        · next hne => rw [if_neg (Ne.symm hne), if_neg (Ne.symm hne)]
      simp only [Option.getD_none, modify, hslots]
  | some i =>
      have hslots : (arena.slots.setIfInBounds i (some entry)).modify i (·.map f) =
          arena.slots.setIfInBounds i (some (f entry)) := by
        refine Array.ext_getElem? fun j => ?_
        simp only [Array.getElem?_modify, Array.getElem?_setIfInBounds]
        split
        · split <;> rfl
        · rfl
      simp only [Option.getD_some, modify, hslots]

namespace Chains

variable (chains : Chains κ KS VS) (id : EntryId) (value : Option VS)

theorem relink_setValue (link : Link) (target : Option EntryId) :
    (chains.setValue id value).relink link target =
      (chains.relink link target).setValue id value := by
  cases link with
  | head bucket => rfl
  | after other =>
      simp only [relink, setValue, mk.injEq, and_true]
      exact Arena.modify_comm chains.arena id other fun _ => rfl

theorem insertAt_setValue (link : Link) (hash : UInt64) (key : KS) (old : Option VS) :
    (chains.insertAt link hash key old).setValue chains.arena.nextId value =
      chains.insertAt link hash key value := by
  rw [insertAt, ← relink_setValue]
  simp only [setValue, Arena.modify_insert]
  rfl

/-- An entry has another value at most. -/
theorem exists_get?_setValue {other : EntryId} {entry : Entry KS VS}
    (hget : chains.arena.get? other = some entry) : ∃ value',
      (chains.setValue id value).arena.get? other = some { entry with value := value' } := by
  simp only [setValue, Arena.get?_modify, hget]
  split
  · exact ⟨value, rfl⟩
  · exact ⟨entry.value, rfl⟩

/-- Where an entry goes does not depend on a value. -/
theorem scatter_setValue (bound : Nat) (cursor : Option EntryId) :
    scatter bound cursor (chains.setValue id value) =
      (scatter bound cursor chains).setValue id value := by
  induction bound generalizing cursor chains with
  | zero => rfl
  | succ bound ih =>
      cases cursor with
      | none => rfl
      | some other =>
          cases hget : chains.arena.get? other with
          | none =>
              have hnone : (chains.setValue id value).arena.get? other = none := by
                simp [setValue, Arena.get?_modify, hget]
              simp only [scatter, hget, hnone]
          | some entry =>
              obtain ⟨value', hsome⟩ := chains.exists_get?_setValue id value hget
              have hbucket : (chains.setValue id value).bucketOf entry.hash =
                  chains.bucketOf entry.hash := rfl
              simp only [scatter, hget, hsome, hbucket, Table.linked_setValue, relink_setValue, ih]

/-- **Moving entries** and changing a value can change places. -/
theorem rehash_setValue (buckets : Nat) :
    (chains.setValue id value).rehash buckets = (chains.rehash buckets).setValue id value := by
  have hfold (heads : List (Option EntryId)) (moved : Chains κ KS VS) :
      heads.foldl (fun moved head => scatter moved.arena.slots.size head moved)
          (moved.setValue id value) =
        (heads.foldl (fun moved head => scatter moved.arena.slots.size head moved)
          moved).setValue id value := by
    induction heads generalizing moved with
    | nil => rfl
    | cons head heads ih =>
        have hslots : (moved.setValue id value).arena.slots.size = moved.arena.slots.size :=
          Array.size_modify
        rw [List.foldl_cons, List.foldl_cons, hslots, scatter_setValue, ih]
  rw [rehash, rehash, ← Array.foldl_toList, ← Array.foldl_toList]
  exact hfold chains.heads.toList ⟨chains.arena, Array.replicate buckets none⟩

end Chains

namespace Table

variable {t : Table F p} {supply : Supply ε} {key : K}

/-- A table with another value for one entry. -/
def putValue (t : Table F p) (id : EntryId) (value : Option VS) : Table F p :=
  { t with toChains := t.toChains.setValue id value }

theorem putValue_putValue (t : Table F p) (id : EntryId) (first second : Option VS) :
    (t.putValue id first).putValue id second = t.putValue id second := by
  simp only [putValue, setValue_setValue]

theorem table_resize_putValue (t : Table F p) (supply : Supply ε) (target : Level) (id : EntryId)
    (value : Option VS) : ((t.putValue id value).resize supply target).table =
      (t.resize supply target).table.putValue id value := by
  unfold resize
  dsimp only
  split
  · simp only [putValue, Chains.rehash_setValue]
    rfl
  · rfl

theorem table_densityStep_putValue [Scale F] (t : Table F p) (supply : Supply ε) (id : EntryId)
    (value : Option VS) : ((t.putValue id value).densityStep supply).table =
      (t.densityStep supply).table.putValue id value := by
  have htarget : (t.putValue id value).band.target? (t.putValue id value).level
      (t.putValue id value).size = t.band.target? t.level t.size := by
    rw [putValue, size_setValue]
  unfold densityStep
  rw [htarget]
  split
  · exact t.table_resize_putValue supply _ id value
  · rfl

theorem linkNew_putValue (t : Table F p) (arena : Arena κ (Entry KS VS)) (key : K) (storedKey : KS)
    (old value : Option VS) : (t.linkNew arena key storedKey old).putValue arena.nextId value =
      t.linkNew arena key storedKey value := by
  simp only [putValue, linkNew]
  rw [Chains.insertAt_setValue ({ t.toChains with arena } : Chains κ KS VS)]

/-- Storing a value that can be acquired. -/
theorem table_onSlot_store {copies : ε} {given : V} {stored : VS}
    (hstored : p.values.acquire copies given = .ok stored) (t : Table F p) (id : EntryId) :
    t.onSlot id copies (.store given) =
      ⟨.done, t.putValue id (some stored), .value (.acquired stored) ::
        Policies.releaseValue ((t.arena.get? id).bind (·.value))⟩ := by
  simp [onSlot, SlotAction.run, hstored, putValue]

/-- Storing a value twice is storing it once. -/
theorem onSlot_store_twice (t : Table F p) (id : EntryId) (copies : ε) (given : V) :
    ((t.onSlot id copies (.store given)).table.onSlot id copies (.store given)).table =
      (t.onSlot id copies (.store given)).table := by
  cases hacquire : p.values.acquire copies given with
  | error why => simp only [onSlot_of_refused id hacquire]
  | ok stored => simp only [table_onSlot_store hacquire, putValue_putValue]

/-! ## mapping a key -/

variable [Scale F]

/-- Mapping a key to no value is opening its slot. -/
theorem insert_none (t : Table F p) (supply : Supply ε) (key : K) :
    t.insert supply key none =
      (t.openSlot supply key).map (·.map fun _ => (t.probe key).found.isNone) := by
  unfold insert openSlot
  dsimp only
  cases (t.probe key).found with
  | none =>
      rw [openNew_eq_insertNew]
      rfl
  | some found => simp [Policies.acquireValue, Outcome.map, Except.map]

/-- A new entry with a value, and one that gets its value after the density step. -/
theorem insertNew_store {copies : ε} {given : V} {stored : VS}
    (hset : p.values.acquire supply.copies given = .ok stored)
    (hfill : p.values.acquire copies given = .ok stored) (t : Table F p) (key : K) :
    let opened := t.insertNew supply (t.probe key) key none
    let whole := t.insertNew supply (t.probe key) key (some given)
    whole.answer = opened.answer ∧
      match opened.answer with
      | .error _ => whole.table = opened.table
      | .ok id => whole.table = (opened.table.onSlot id copies (.store given)).table := by
  unfold insertNew
  cases t.arena.reserve supply.arena with
  | none => exact ⟨rfl, rfl⟩
  | some arena =>
      dsimp only
      cases p.keys.acquire supply.copies key with
      | error why => exact ⟨rfl, rfl⟩
      | ok storedKey =>
          simp only [Policies.acquireValue, hset, Outcome.answer_after, Outcome.answer_map,
            Outcome.table_after, Outcome.table_map, hash_probe, true_and]
          have hlinked := t.linkNew_putValue arena key storedKey none (some stored)
          rw [table_onSlot_store hfill]
          change ((t.linkNew arena key storedKey (some stored)).densityStep supply).table =
            ((t.linkNew arena key storedKey none).densityStep supply).table.putValue arena.nextId
              (some stored)
          rw [← hlinked, table_densityStep_putValue]

/-- **Opening a slot and storing a value** is mapping the key to the value. -/
theorem openSlotAnd_store {copies : ε} {given : V} {stored : VS}
    (hset : p.values.acquire supply.copies given = .ok stored)
    (hfill : p.values.acquire copies given = .ok stored) (t : Table F p) (key : K) :
    (t.openSlotAnd supply key [(copies, .store given)]).table =
        (t.insert supply key (some given)).table ∧
      (t.openSlotAnd supply key [(copies, .store given)]).answer.map
          (fun _ => (t.probe key).found.isNone) = (t.insert supply key (some given)).answer := by
  unfold openSlotAnd insert
  rw [openSlot_eq]
  dsimp only
  cases hfound : (t.probe key).found with
  | none =>
      obtain ⟨hanswer, htable⟩ := insertNew_store hset hfill t key
      dsimp only at hanswer htable ⊢
      simp only [Outcome.answer_after, Outcome.table_after, Outcome.answer_map,
        Outcome.table_map, hanswer]
      cases hopened : (t.insertNew supply (t.probe key) key none).answer with
      | error why =>
          rw [hopened] at htable
          exact ⟨htable.symm, rfl⟩
      | ok id =>
          rw [hopened] at htable
          exact ⟨htable.symm, rfl⟩
  | some found =>
      simp only [onSlots, table_onSlot_store hfill, Policies.acquireValue, hset]
      exact ⟨putValue_putValue t found.1 none (some stored), rfl⟩

/-! ## removing a key -/

/-- **Taking and erasing** leave the same journal, but for what becomes of the value. -/
theorem journal_take_erase (t : Table F p) (supply : Supply ε) (key : K) : ∃ before after,
    (t.take supply key).journal =
        before ++ Policies.eachValue .handedOver (t.take supply key).answer ++ after ∧
      (t.erase supply key).journal =
        before ++ Policies.releaseValue (t.take supply key).answer ++ after := by
  unfold take erase
  dsimp only
  cases (t.probe key).found with
  | none => exact ⟨(t.probe key).calls, [], by simp [Policies.eachValue, Policies.releaseValue]⟩
  | some found =>
      obtain ⟨id, entry⟩ := found
      let removed : Table F p := (t.takeAt (t.probe key).link id entry).table
      refine ⟨(t.probe key).calls ++ [.key (.released entry.key)],
        (removed.densityStep supply).journal, ?_, ?_⟩
      · simp only [takeAt, Outcome.journal_after, Outcome.answer_after, Outcome.answer_map,
          List.append_assoc]
        rfl
      · simp only [takeAt, eraseAt, Outcome.journal_after, Outcome.answer_after,
          Outcome.answer_map, List.append_assoc]
        rfl

/-! ## walking to a key -/

/-- A walk that stores a value at one entry, and changes nothing at any other. -/
structure StoresAt (t : Table F p) (memory : σ) (visitor : Visitor F ε K V VS σ ω) (id : EntryId)
    (copies : ε) (given : V) : Prop where
  comes : ∃ w entry, (Walk.start t memory).Reaches visitor w ∧ w.meets = some (id, entry)
  effect {w : Walk F p σ} {other : EntryId} {entry : Entry KS VS} :
    (Walk.start t memory).Reaches visitor w → w.meets = some (other, entry) →
      (w.outcomeAt visitor other entry).table =
        if other = id then (w.table.onSlot id copies (.store given)).table else w.table

/-- Mapping a key that is found is storing the value at its entry. -/
theorem table_insert_of_found {id : EntryId} {entry : Entry KS VS}
    (hfound : (t.probe key).found = some (id, entry)) (given : V) :
    (t.insert supply key (some given)).table =
      (t.onSlot id supply.copies (.store given)).table := by
  unfold insert
  simp only [hfound, Policies.acquireValue]
  cases hacquire : p.values.acquire supply.copies given with
  | error why => rw [onSlot_of_refused id hacquire]
  | ok stored => simp only [table_onSlot_store hacquire, putValue]

namespace StoresAt

variable {memory : σ} {visitor : Visitor F ε K V VS σ ω} {id : EntryId} {copies : ε} {given : V}

/-- Under the walk the value was stored already, or nothing has happened yet. -/
theorem table_of_reaches (h : t.StoresAt memory visitor id copies given) {w : Walk F p σ}
    (hreaches : (Walk.start t memory).Reaches visitor w) :
    w.table = t ∨ w.table = (t.onSlot id copies (.store given)).table := by
  refine hreaches.keep (P := fun t' => t' = t ∨ t' = (t.onSlot id copies (.store given)).table)
    (fun {w other entry} hreached hmeets hbefore => ?_) (.inl rfl)
  rw [h.effect hreached hmeets]
  split
  · rcases hbefore with heq | heq
    · exact .inr (by rw [heq])
    · exact .inr (by rw [heq, onSlot_store_twice])
  · exact hbefore

/-- The walk comes to the entry, and from there on the value is stored. -/
theorem table_run (h : t.StoresAt memory visitor id copies given) (hsound : t.Sound) :
    ((Walk.start t memory).run visitor).1.table = (t.onSlot id copies (.store given)).table := by
  have hkeep {w : Walk F p σ} {other : EntryId} {entry : Entry KS VS}
      (hreached : (Walk.start t memory).Reaches visitor w) (hmeets : w.meets = some (other, entry))
      (hstored : w.table = (t.onSlot id copies (.store given)).table) :
      (w.outcomeAt visitor other entry).table = (t.onSlot id copies (.store given)).table := by
    rw [h.effect hreached hmeets, hstored, onSlot_store_twice, ite_self]
  obtain ⟨w, entry, hreaches, hmeets⟩ := h.comes
  obtain ⟨calls, bound, hmidway⟩ := hreaches.midway hsound
  obtain ⟨less, rfl⟩ := hmidway.bound_eq
  have hstep : (w.step visitor).1.table = (t.onSlot id copies (.store given)).table := by
    rw [Walk.table_step, hmeets, Option.elim_some, h.effect hreaches hmeets, if_pos rfl]
    rcases h.table_of_reaches hreaches with heq | heq
    · rw [heq]
    · rw [heq, onSlot_store_twice]
  rw [hmidway.run_eq, Walk.runWithin]
  split
  · next w' hnext =>
      rw [hnext] at hstep
      exact Walk.Reaches.keep_runWithin
        (P := fun t' => t' = (t.onSlot id copies (.store given)).table) hkeep
        (.step hreaches hnext) hstep less
  · next w' ending hends =>
      rw [hends] at hstep
      exact hstep

/-- **A walk that stores a value** leaves the table with the value stored. -/
theorem table_walk (h : t.StoresAt memory visitor id copies given) (hsound : t.Sound)
    (supply : Supply ε) : (t.walk supply memory visitor).table =
      (t.onSlot id copies (.store given)).table := by
  obtain ⟨⟨last, ending⟩, hrun⟩ : ∃ run, (Walk.start t memory).run visitor = run := ⟨_, rfl⟩
  have htable := h.table_run hsound
  rw [hrun] at htable
  have hsize : last.table.size = t.size := by
    rw [htable]
    exact t.size_setValue id _
  rw [t.walk_eq supply memory visitor hrun, if_pos hsize]
  exact htable

end StoresAt

/-! ## the ways, all together -/

/-- Calls on a table that come to the same. -/
structure PathsAgree (t : Table F p) : Prop where
  /-- Mapping a key to no value gives what opening its slot gives: the same failure
  or none, the same table and the same journal. -/
  insert_none (supply : Supply ε) (key : K) : t.insert supply key none =
    (t.openSlot supply key).map (·.map fun _ => (t.probe key).found.isNone)
  /-- A value that can be acquired can be given with the key, or stored in the open
  slot. -/
  insert_some {supply : Supply ε} {copies : ε} {given : V} {stored : VS} (key : K) :
    p.values.acquire supply.copies given = .ok stored →
    p.values.acquire copies given = .ok stored →
    (t.openSlotAnd supply key [(copies, .store given)]).table =
        (t.insert supply key (some given)).table ∧
      (t.openSlotAnd supply key [(copies, .store given)]).answer.map
          (fun _ => (t.probe key).found.isNone) = (t.insert supply key (some given)).answer
  /-- Taking a key leaves what erasing it leaves, and the journals differ in what
  becomes of the value. -/
  table_take (supply : Supply ε) (key : K) :
    (t.take supply key).table = (t.erase supply key).table
  notices_take (supply : Supply ε) (key : K) :
    noticesIn (t.take supply key).journal = noticesIn (t.erase supply key).journal
  journal_take (supply : Supply ε) (key : K) : ∃ before after,
    (t.take supply key).journal =
        before ++ Policies.eachValue .handedOver (t.take supply key).answer ++ after ∧
      (t.erase supply key).journal =
        before ++ Policies.releaseValue (t.take supply key).answer ++ after
  /-- A walk can store the value at the entry that a search for the key finds. -/
  walk {σ ω : Type} {supply supply' : Supply ε} {key : K} {copies : ε} {given : V} {id : EntryId}
    {entry : Entry KS VS} {memory : σ} {visitor : Visitor F ε K V VS σ ω} :
    (t.probe key).found = some (id, entry) → t.StoresAt memory visitor id copies given →
    p.values.acquire copies given = p.values.acquire supply.copies given →
    (t.walk supply' memory visitor).table = (t.insert supply key (some given)).table

/-- **Several ways** lead to the same table, whatever is refused on them. -/
theorem pathsAgree_of_reachable (h : t.Reachable) : t.PathsAgree where
  insert_none := t.insert_none
  insert_some key hset hfill := openSlotAnd_store hset hfill t key
  table_take := t.table_take
  notices_take supply key := by
    obtain ⟨before, after, htake, herase⟩ := t.journal_take_erase supply key
    simp [htake, herase]
  journal_take := t.journal_take_erase
  walk {_ _ supply supply' _ copies given id _ _ _} hfound hstores hacquire := by
    rw [hstores.table_walk h.sound supply', table_insert_of_found hfound]
    simp only [onSlot, SlotAction.run, hacquire]

/-- A visitor that stores a value at the key 2, and ends the walk there. -/
def storing : Visitor Rat Unit Nat Nat Nat Unit Unit := fun _ => .key fun key =>
  if key = 2 then .slot () (.store 9) fun _ => .leave ((), .stop) else .leave ((), .goOn)

theorem storesAt_storing : sample.StoresAt () storing ⟨1⟩ () 9 := by
  have hfirst : (Walk.start sample ()).meets = some (⟨0⟩, ⟨1, some 10, 0, some ⟨1⟩⟩) := by
    decide +kernel
  have hgoOn : ((Walk.start sample ()).step storing).2 = none := by decide +kernel
  have hsecond : ((Walk.start sample ()).step storing).1.meets =
      some (⟨1⟩, ⟨2, none, 0, none⟩) := by decide +kernel
  have hstop : (((Walk.start sample ()).step storing).1.step storing).2 = some .stopped := by
    decide +kernel
  refine ⟨⟨_, _, .step .start (Prod.ext rfl hgoOn), hsecond⟩, fun hreaches hmeets => ?_⟩
  rcases hreaches.cases_head with rfl | ⟨next, hnext, hreaches⟩
  · obtain ⟨rfl, rfl⟩ := Prod.mk.inj (Option.some.inj (hfirst.symm.trans hmeets))
    decide +kernel
  · obtain rfl : ((Walk.start sample ()).step storing).1 = next := congrArg Prod.fst hnext
    rcases hreaches.cases_head with rfl | ⟨last, hlast, -⟩
    · obtain ⟨rfl, rfl⟩ := Prod.mk.inj (Option.some.inj (hsecond.symm.trans hmeets))
      decide +kernel
    · rw [hlast] at hstop
      contradiction

/-- The key 2 is the second on its chain: a walk up to it stores a value there as well. -/
theorem pathsAgree_sample :
    sample.Reachable ∧ sample.PathsAgree ∧
      (sample.probe 2).found = some (⟨1⟩, ⟨2, none, 0, none⟩) ∧
      sample.StoresAt () storing ⟨1⟩ () 9 ∧
      (sample.walk plenty () storing).table = (sample.insert plenty 2 (some 9)).table := by
  have hagree := pathsAgree_of_reachable reachable_sample
  have hfound : (sample.probe 2).found = some (⟨1⟩, ⟨2, none, 0, none⟩) := by decide +kernel
  exact ⟨reachable_sample, hagree, hfound, storesAt_storing,
    hagree.walk hfound storesAt_storing rfl⟩

end Table

end ChainedTable
