import ChainedTable.Proofs.Effects
import ChainedTable.Proofs.FiniteMap
import ChainedTable.Proofs.Visit

/-!
# ChainedTable.Proofs.Locality

Every edit is made at one place.

Before its density step, an operation on a key changes one chain and one entry at most
(`Table.Touches`).  There are three ways to do so:

1. a new entry goes to the end of the chain of its key (`Table.Appends`);
2. an entry is cut out of its chain, wherever it stands (`Table.Cuts`);
3. an entry gets another value, and its chain stays (`Table.Revalues`).

Which place it is, the search tells: the link of the first entry on the chain that matches
the key, or the empty link at which the chain ends (`Table.StopsAt`).  A visit of a walk
works in the second way or in the third, at the entry that it was made for.
-/

namespace ChainedTable

variable {F ε K KS V VS ρ : Type} {κ : Keeper} {p : Policies ε K KS V VS κ}

/-- A bucket that does not exist has no chain. -/
theorem Chains.chain_of_ge {chains : Chains κ KS VS} {bucket : Nat}
    (h : chains.heads.size ≤ bucket) : chains.chain bucket = [] := by
  have hhead : chains.linked (.head bucket) = none := by
    simp [linked, Array.getElem?_eq_none h]
  rw [chain, hhead]
  cases chains.arena.slots.size <;> rfl

namespace Table

/-- Two tables that differ in one chain and in one entry, if at all. -/
structure Touches (t : Table F p) (bucket : Nat) (list : List EntryId) (id : EntryId)
    (held : Option (Holding KS VS)) (t' : Table F p) : Prop where
  /-- The chain of the bucket is this list now. -/
  chain : t'.chain bucket = list
  /-- The entry holds this now, or is gone. -/
  here : t'.holding? id = held
  /-- The other chains meet the same entries in the same order. -/
  chains {other : Nat} : other ≠ bucket → t'.chain other = t.chain other
  /-- The other entries hold the same key, value and hash. -/
  elsewhere {other : EntryId} : other ≠ id → t'.holding? other = t.holding? other
  buckets : t'.buckets = t.buckets
  level : t'.level = t.level
  band : t'.band = t.band
  lastStep : t'.lastStep = t.lastStep

/-- A new entry is at the end of a chain. -/
structure Appends (t : Table F p) (bucket : Nat) (id : EntryId) (held : Holding KS VS)
    (t' : Table F p) : Prop where
  fresh : t.holding? id = none
  touches : t.Touches bucket (t.chain bucket ++ [id]) id (some held) t'

/-- An entry is cut out of a chain, wherever it stood. -/
def Cuts (t : Table F p) (bucket : Nat) (id : EntryId) (t' : Table F p) : Prop :=
  ∃ front rest, t.chain bucket = front ++ id :: rest ∧
    t.Touches bucket (front ++ rest) id none t'

/-- An entry on a chain has another value, and that is all. -/
structure Revalues (t : Table F p) (bucket : Nat) (id : EntryId) (value : Option VS)
    (t' : Table F p) : Prop where
  table_eq : t' = { t with toChains := t.toChains.setValue id value }
  mem_chain : id ∈ t.chain bucket
  touches : ∃ held, t.holding? id = some held ∧
    t.Touches bucket (t.chain bucket) id (some { held with value }) t'

/-- The link at which a search for a key should stop, and the entry that it should find. -/
inductive StopsAt (t : Table F p) (key : K) : Link → Option (EntryId × Entry KS VS) → Prop where
  /-- The link of the first entry on the chain that matches. -/
  | found {front rest : List EntryId} {id : EntryId} {entry : Entry KS VS} :
    t.chain (t.home key) = front ++ id :: rest → t.arena.get? id = some entry →
      t.Matches key id → (∀ other ∈ front, ¬t.Matches key other) →
      t.linked (.behind (t.home key) front) = some id →
      StopsAt t key (.behind (t.home key) front) (some (id, entry))
  /-- The empty link behind a chain on which none matches. -/
  | missed : (∀ id ∈ t.chain (t.home key), ¬t.Matches key id) →
    t.linked (.behind (t.home key) (t.chain (t.home key))) = none →
      StopsAt t key (.behind (t.home key) (t.chain (t.home key))) none

/-! ## the three edits -/

variable {t t' : Table F p} {bucket : Nat} {id : EntryId} {entry : Entry KS VS}

/-- Links that spell the old lists but for one are those of a table that differs in one
chain. -/
theorem touches_of_spells {list : List EntryId} {held : Option (Holding KS VS)}
    (hbucket : bucket < t.heads.size)
    (hspells : t'.Spells (Function.update t.chain bucket list))
    (hheads : t'.heads.size = t.heads.size) (hhere : t'.holding? id = held)
    (helsewhere : ∀ other, other ≠ id → t'.holding? other = t.holding? other)
    (hlevel : t'.level = t.level) (hband : t'.band = t.band)
    (hlastStep : t'.lastStep = t.lastStep) : t.Touches bucket list id held t' where
  chain := by rw [hspells.chain_eq (hheads ▸ hbucket), Function.update_self]
  here := hhere
  chains {other} hne := by
    by_cases hother : other < t.heads.size
    · rw [hspells.chain_eq (hheads ▸ hother), Function.update_of_ne hne]
    · rw [Chains.chain_of_ge (by omega), Chains.chain_of_ge (by omega)]
  elsewhere := helsewhere _
  buckets := hheads
  level := hlevel
  band := hband
  lastStep := hlastStep

/-- A visit that leaves nothing of its entry cuts it out of its chain. -/
theorem Visits.cuts {front rest : List EntryId} {held : Holding KS VS}
    (h : t.Visits t.chain bucket front id rest held none t') (hbucket : bucket < t.heads.size)
    (hlist : t.chain bucket = front ++ id :: rest) : t.Cuts bucket id t' := by
  have hspells := h.spells
  rw [survivors_none, List.append_nil] at hspells
  exact ⟨front, rest, hlist, touches_of_spells hbucket hspells h.heads h.here
    (fun _ => h.elsewhere) h.level h.band h.lastStep⟩

namespace Sound

/-- **A new entry** goes to the end of the chain of its key. -/
theorem appends_linkNew (h : t.Sound) {granted : Bool} {arena : Arena κ (Entry KS VS)}
    (hroom : t.arena.reserve granted = some arena) {key : K}
    (hfound : (t.probe key).found = none) (storedKey : KS) (value : Option VS) :
    t.Appends (t.home key) t.arena.nextId ⟨storedKey, value, p.hasher.hash key⟩
      (t.linkNew arena key storedKey value) where
  fresh := h.holding?_nextId
  touches := by
    have hheld := h.holding?_linkNew hroom key storedKey value
    refine touches_of_spells (home_lt h.wellLinked key)
      (h.spells_linkNew hroom hfound storedKey value) (Chains.size_heads_insertAt ..) ?_
      (fun other hne => ?_) rfl rfl rfl
    · rw [hheld, if_pos rfl]
    · rw [hheld, if_neg hne]

/-- **An entry that leaves** is cut out of its chain. -/
theorem cuts_unlink (h : t.Sound) {front rest : List EntryId} (hbucket : bucket < t.heads.size)
    (hlist : t.chain bucket = front ++ id :: rest) (hget : t.arena.get? id = some entry) :
    t.Cuts bucket id { t with toChains := t.toChains.unlink (.behind bucket front) id entry } :=
  (visits_unlink h.wellLinked hbucket hlist hget).cuts hbucket hlist

/-- **An entry that gets another value** stays where it is. -/
theorem revalues_setValue (h : t.Sound) (hget : t.arena.get? id = some entry)
    (value : Option VS) :
    t.Revalues (t.bucketOf entry.hash) id value
      { t with toChains := t.toChains.setValue id value } where
  table_eq := rfl
  mem_chain := by
    -- This speaks of the hash of what the entry holds, which is that of the entry.
    have hmem := h.wellLinked.listed (Chains.holding?_of_get? hget)
    exact hmem
  touches := by
    have hspells := h.wellLinked.setValue id value
    have hheld := Chains.holding?_setValue t.toChains id
    refine ⟨entry.holding, Chains.holding?_of_get? hget,
      touches_of_spells (h.wellLinked.bucketOf_lt _) ?_ rfl ?_ (fun other hne => ?_) rfl rfl rfl⟩
    · rwa [Function.update_eq_self]
    · rw [hheld, if_pos rfl, Chains.holding?_of_get? hget]
      rfl
    · rw [hheld, if_neg (Ne.symm hne)]

end Sound

/-! ## the search -/

section Searching

variable {key : K}

/-- **The search** stops where it should. -/
theorem Sound.stopsAt_probe (h : t.Sound) (key : K) :
    t.StopsAt key (t.probe key).link (t.probe key).found := by
  cases hfound : (t.probe key).found with
  | none =>
      obtain ⟨hlink, hnone⟩ := probe_not_found h.wellLinked hfound
      rw [hlink]
      exact .missed hnone
        (h.wellLinked.linked_front (home_lt h.wellLinked key) (List.append_nil _).symm)
  | some found =>
      obtain ⟨front, rest, hlist, hget, hmatches, hnone, hlink⟩ :=
        probe_found h.wellLinked hfound
      rw [hlink]
      exact .found hlist hget hmatches hnone
        (h.wellLinked.linked_front (home_lt h.wellLinked key) hlist)

/-- The entry that a search finds is on the chain of the key. -/
theorem Sound.bucketOf_found (h : t.Sound) (hfound : (t.probe key).found = some (id, entry)) :
    t.bucketOf entry.hash = t.home key := by
  obtain ⟨front, rest, hlist, hget, -, -, -⟩ := probe_found h.wellLinked hfound
  exact h.wellLinked.home (home_lt h.wellLinked key) (by rw [hlist]; simp)
    (Chains.holding?_of_get? hget)

end Searching

/-! ## slot actions and visits -/

/-- Slot actions leave their entry with the value that they lead to. -/
theorem table_onSlots (hget : t.arena.get? id = some entry)
    (actions : List (ε × SlotAction V VS)) :
    (t.onSlots id actions).table = { t with
      toChains := t.toChains.setValue id (SlotAction.replies p actions entry.value).2 } := by
  induction actions generalizing t entry with
  | nil => rw [onSlots, SlotAction.replies, setValue_of_get? hget]
  | cons first rest ih =>
      obtain ⟨copies, action⟩ := first
      let value := (action.run p copies entry.value).value
      let changed : Table F p := { t with toChains := t.toChains.setValue id value }
      have hrest := ih (t := changed) (get?_setValue hget value)
      rw [setValue_setValue] at hrest
      simp only [onSlots, onSlot_eq hget, SlotAction.replies, ← SlotAction.run_eq_reply]
      exact hrest

/-- A visit that leaves its entry leaves it with a value, and changes nothing else. -/
theorem table_visit_of_left [Scale F] {visit : Visit F ε K V VS ρ} {link : Link}
    {value : Option VS} (hget : t.arena.get? id = some entry)
    (hleft : visit.left id t entry = some value) :
    (visit.run link id t entry).table =
      { t with toChains := t.toChains.setValue id value } := by
  induction visit generalizing t entry with
  | key next ih => exact ih _ hget hleft
  | value next ih => exact ih _ hget hleft
  | slot copies action next ih =>
      let stored := (action.run p copies entry.value).value
      let changed : Table F p := { t with toChains := t.toChains.setValue id stored }
      have hrest := ih _ (t := changed) (get?_setValue hget stored) hleft
      rw [setValue_setValue] at hrest
      exact hrest
  | contains other next ih => exact ih _ hget hleft
  | lookUp other next ih => exact ih _ hget hleft
  | readings next ih => exact ih _ hget hleft
  | leave result =>
      obtain rfl := Option.some.inj hleft
      rw [setValue_of_get? hget]
      rfl
  | erase result => contradiction
  | take result => contradiction

/-- **A visit** cuts its entry out of its chain, or gives it a value. -/
theorem Sound.cutsOrRevalues_visit [Scale F] (h : t.Sound) {link : Link}
    (visit : Visit F ε K V VS ρ) (hlink : t.linked link = some id)
    (hget : t.arena.get? id = some entry) :
    match visit.left id t entry with
    | none => t.Cuts (t.bucketOf entry.hash) id (visit.run link id t entry).table
    | some value =>
      t.Revalues (t.bucketOf entry.hash) id value (visit.run link id t entry).table := by
  split
  · next hleft =>
      obtain ⟨bucket, front, rest, hlt, rfl, hlist⟩ := h.wellLinked.linked_eq_some hlink
      have hvisits := visit.visits_run h.wellLinked hlt hlist hget
      have hbucket : t.bucketOf entry.hash = bucket :=
        h.wellLinked.home hlt (by rw [hlist]; simp) (Chains.holding?_of_get? hget)
      rw [hleft] at hvisits
      rw [hbucket]
      exact hvisits.cuts hlt hlist
  · next value hleft =>
      rw [table_visit_of_left hget hleft]
      exact h.revalues_setValue hget value

/-! ## operations on a key -/

section Operations

variable [Scale F] {supply : Supply ε} {key : K} {value : Option V}

/-- A key was given an entry at the end of its chain, and then a density step was taken. -/
def Gains (t : Table F p) (supply : Supply ε) (key : K) (value : Option V) (id : EntryId)
    (t' : Table F p) : Prop :=
  ∃ storedKey storedValue linked, p.keys.acquire supply.copies key = .ok storedKey ∧
    p.Acquires supply.copies value storedValue ∧
    t.Appends (t.home key) id ⟨storedKey, storedValue, p.hasher.hash key⟩ linked ∧
    t' = (linked.densityStep supply).table

/-- An entry was cut out of the chain of a key, and then a density step was taken. -/
def Loses (t : Table F p) (supply : Supply ε) (key : K) (id : EntryId) (t' : Table F p) : Prop :=
  ∃ cut, t.Cuts (t.home key) id cut ∧ t' = (cut.densityStep supply).table

namespace Sound

theorem gains_insertNew (h : t.Sound) (hfound : (t.probe key).found = none)
    (hanswer : (t.insertNew supply (t.probe key) key value).answer = .ok id) :
    t.Gains supply key value id (t.insertNew supply (t.probe key) key value).table := by
  have hadmission := admission_insertNew t supply key value
  generalize t.insertNew supply (t.probe key) key value = outcome at hadmission hanswer ⊢
  cases hadmission with
  | noRoom | keyRefused | valueRefused => contradiction
  | @admitted arena storedKey storedValue hroom hkey hvalue =>
      obtain rfl := Except.ok.inj hanswer
      rw [Chains.nextId_reserve hroom]
      exact ⟨storedKey, storedValue, _, hkey, hvalue,
        h.appends_linkNew hroom hfound storedKey storedValue, rfl⟩

theorem gains_insert (h : t.Sound) (hanswer : (t.insert supply key value).answer = .ok true) :
    ∃ id, t.Gains supply key value id (t.insert supply key value).table := by
  unfold insert at hanswer ⊢
  dsimp only at hanswer ⊢
  split at hanswer
  · split at hanswer <;> simp at hanswer
  · next hfound =>
      cases hnew : (t.insertNew supply (t.probe key) key value).answer with
      | error why => simp [hnew, Except.map] at hanswer
      | ok id => exact ⟨id, h.gains_insertNew hfound hnew⟩

theorem revalues_insert (h : t.Sound) (hfound : (t.probe key).found = some (id, entry))
    (hanswer : (t.insert supply key value).answer = .ok false) :
    ∃ stored, p.Acquires supply.copies value stored ∧
      t.Revalues (t.home key) id stored (t.insert supply key value).table := by
  obtain ⟨-, hget⟩ := linked_of_probe_found hfound
  unfold insert at hanswer ⊢
  simp only [hfound] at hanswer ⊢
  split at hanswer
  · contradiction
  · next stored calls hacquire =>
      rw [← h.bucketOf_found hfound]
      exact ⟨stored, (acquireValue_eq_ok hacquire).1, h.revalues_setValue hget stored⟩

theorem gains_openSlot (h : t.Sound) (hfound : (t.probe key).found = none)
    (hanswer : (t.openSlot supply key).answer = .ok id) :
    t.Gains supply key none id (t.openSlot supply key).table := by
  rw [openSlot_eq] at hanswer ⊢
  simp only [hfound] at hanswer ⊢
  exact h.gains_insertNew hfound hanswer

/-- Opening the slot of a key that has an entry, and working on its value. -/
theorem revalues_openSlotAnd (h : t.Sound) (hfound : (t.probe key).found = some (id, entry))
    (actions : List (ε × SlotAction V VS)) :
    t.Revalues (t.home key) id (SlotAction.replies p actions none).2
      (t.openSlotAnd supply key actions).table := by
  obtain ⟨-, hget⟩ := linked_of_probe_found hfound
  let opened : Table F p := { t with toChains := t.toChains.setValue id none }
  have hslots := table_onSlots (t := opened) (get?_setValue hget none) actions
  rw [setValue_setValue] at hslots
  have htable : (t.openSlotAnd supply key actions).table = { t with
      toChains := t.toChains.setValue id (SlotAction.replies p actions none).2 } := by
    unfold openSlotAnd
    rw [openSlot_eq]
    simp only [hfound]
    exact hslots
  rw [htable, ← h.bucketOf_found hfound]
  exact h.revalues_setValue hget _

theorem loses_take (h : t.Sound) (hfound : (t.probe key).found = some (id, entry)) :
    t.Loses supply key id (t.take supply key).table := by
  obtain ⟨front, rest, hlist, hget, -, -, hlink⟩ := probe_found h.wellLinked hfound
  have hcuts := h.cuts_unlink (home_lt h.wellLinked key) hlist hget
  rw [← hlink] at hcuts
  unfold take
  simp only [hfound]
  exact ⟨_, hcuts, rfl⟩

theorem loses_erase (h : t.Sound) (hfound : (t.probe key).found = some (id, entry)) :
    t.Loses supply key id (t.erase supply key).table := by
  rw [← table_take]
  exact h.loses_take hfound

end Sound

end Operations

/-! ## all edits -/

/-- What a search answers, and what operations and visits make of it before the density
step. -/
structure EditsLocally [Scale F] (t : Table F p) : Prop where
  probe (key : K) : t.StopsAt key (t.probe key).link (t.probe key).found
  /-- A key that is new has its entry at the end of its chain. -/
  insert_new {supply : Supply ε} {key : K} {value : Option V} :
    (t.insert supply key value).answer = .ok true →
      ∃ id, t.Gains supply key value id (t.insert supply key value).table
  openSlot_new {supply : Supply ε} {key : K} {id : EntryId} : (t.probe key).found = none →
    (t.openSlot supply key).answer = .ok id →
      t.Gains supply key none id (t.openSlot supply key).table
  /-- An update changes the value of the entry found. -/
  insert_found {supply : Supply ε} {key : K} {value : Option V} {id : EntryId}
    {entry : Entry KS VS} : (t.probe key).found = some (id, entry) →
      (t.insert supply key value).answer = .ok false →
      ∃ stored, p.Acquires supply.copies value stored ∧
        t.Revalues (t.home key) id stored (t.insert supply key value).table
  openSlot_found {supply : Supply ε} {key : K} {id : EntryId} {entry : Entry KS VS}
    (actions : List (ε × SlotAction V VS)) : (t.probe key).found = some (id, entry) →
      t.Revalues (t.home key) id (SlotAction.replies p actions none).2
        (t.openSlotAnd supply key actions).table
  /-- A removal cuts the entry found out of its chain. -/
  take {supply : Supply ε} {key : K} {id : EntryId} {entry : Entry KS VS} :
    (t.probe key).found = some (id, entry) → t.Loses supply key id (t.take supply key).table
  erase {supply : Supply ε} {key : K} {id : EntryId} {entry : Entry KS VS} :
    (t.probe key).found = some (id, entry) → t.Loses supply key id (t.erase supply key).table
  /-- A visit, at the entry that a link holds, cuts it out or changes its value. -/
  visit {link : Link} {id : EntryId} {entry : Entry KS VS} {ρ : Type}
    (visit : Visit F ε K V VS ρ) : t.linked link = some id → t.arena.get? id = some entry →
      match visit.left id t entry with
      | none => t.Cuts (t.bucketOf entry.hash) id (visit.run link id t entry).table
      | some value =>
        t.Revalues (t.bucketOf entry.hash) id value (visit.run link id t entry).table

/-- **Every edit is made at one place**, between operations and under a walk. -/
theorem editsLocally_of_seen [Scale F] (h : t.Seen) : t.EditsLocally where
  probe := h.sound.stopsAt_probe
  insert_new := h.sound.gains_insert
  openSlot_new := h.sound.gains_openSlot
  insert_found := h.sound.revalues_insert
  openSlot_found actions hfound := h.sound.revalues_openSlotAnd hfound actions
  take := h.sound.loses_take
  erase := h.sound.loses_erase
  visit visit := h.sound.cutsOrRevalues_visit visit

/-- The first of two entries on a chain goes, and a third one comes. -/
example : sample.chain 0 = [⟨0⟩, ⟨1⟩] ∧ (sample.erase plenty 1).table.chain 0 = [⟨1⟩] ∧
    (sample.insert plenty 3 none).table.chain 0 = [⟨0⟩, ⟨1⟩, ⟨2⟩] := by decide +kernel

theorem editsLocally_sample : sample.Seen ∧ sample.EditsLocally :=
  ⟨.after reachable_sample, editsLocally_of_seen (.after reachable_sample)⟩

end Table

end ChainedTable
