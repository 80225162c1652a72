import ChainedTable.Proofs.Standing
import Mathlib.Data.PFun

/-!
# ChainedTable.Proofs.Checked

No access misses, and no loop runs on.

The operations on chains read a link that is not there as empty, and their loops
stop at a bound.  The definitions here do neither.  They fail where a bucket or
an entry is not there, and a loop that does not end has no result:

1. `read?` and `write?` need the link to be there;
2. `seek?` and `probe?`, `unlink?`, `insertAt?`, `scatter?` and `rehash?`, and
   `Walk.run?` use them where the operations of the same names read and write;
3. a loop is rounds without a bound, and its result is that of its last round.

On chains that are well linked each of them has a result, and it is that of the
operation.  So a missing link is never read, and no bound is what ends a loop.
-/

namespace ChainedTable

variable {F ε K KS V VS ρ σ ω : Type} {κ : Keeper} {p : Policies ε K KS V VS κ}

/-! ## loops -/

/-- What is missing gives no result. -/
instance liftMissing : MonadLift Option Part := ⟨Part.ofOption⟩

theorem lift_some {α : Type} (a : α) : (liftM (some a) : Part α) = Part.some a := rfl

section Rounds

variable {α β : Type} {round : α → Part (β ⊕ α)} {a a' : α} {b : β}

/-- Rounds of a loop until one gives a result.  There is none if a round has
none, or if there is always another round. -/
def rounds (round : α → Part (β ⊕ α)) : α → Part β := PFun.fix round

theorem rounds_of_done (h : round a = Part.some (.inl b)) : rounds round a = Part.some b :=
  Part.eq_some_iff.mpr (PFun.fix_stop (Part.eq_some_iff.mp h))

theorem rounds_of_next (h : round a = Part.some (.inr a')) : rounds round a = rounds round a' :=
  PFun.fix_fwd_eq (Part.eq_some_iff.mp h)

end Rounds

namespace Chains

variable {chains moved : Chains κ KS VS} {lists : Nat → List EntryId}

/-! ## links -/

/-- What a link holds, if it is there. -/
def read? (chains : Chains κ KS VS) : Link → Option (Option EntryId)
  | .head bucket => chains.heads[bucket]?
  | .after id => (chains.arena.get? id).map (·.next)

/-- Writes to a link, if it is there. -/
def write? (chains : Chains κ KS VS) (link : Link) (target : Option EntryId) :
    Option (Chains κ KS VS) :=
  if (chains.read? link).isSome then some (chains.relink link target) else none

theorem read?_head {bucket : Nat} (h : bucket < chains.heads.size) :
    chains.read? (.head bucket) = some (chains.linked (.head bucket)) := by
  simp [read?, linked, h]

theorem read?_after {id : EntryId} {entry : Entry KS VS} (h : chains.arena.get? id = some entry) :
    chains.read? (.after id) = some (chains.linked (.after id)) := by
  simp [read?, linked, h]

/-- A link is there if its bucket is, or the entry before it. -/
theorem read?_behind {bucket : Nat} {front : List EntryId} (hbucket : bucket < chains.heads.size)
    (hfront : ∀ id ∈ front, ∃ entry, chains.arena.get? id = some entry) :
    chains.read? (.behind bucket front) = some (chains.linked (.behind bucket front)) := by
  cases front using List.reverseRecOn with
  | nil => exact read?_head hbucket
  | append_singleton xs last =>
      obtain ⟨entry, hget⟩ := hfront last (by simp)
      rw [Link.behind_concat]
      exact read?_after hget

theorem write?_eq {link : Link} {held : Option EntryId} (h : chains.read? link = some held)
    (target : Option EntryId) : chains.write? link target = some (chains.relink link target) := by
  rw [write?, h, Option.isSome_some, if_pos rfl]

/-- The link behind a front part of a chain is there, and holds what follows. -/
theorem Spells.read?_front (h : chains.Spells lists) {bucket : Nat} {front rest : List EntryId}
    (hbucket : bucket < chains.heads.size) (hlist : lists bucket = front ++ rest) :
    chains.read? (.behind bucket front) = some rest.head? := by
  have hfront : ∀ id ∈ front, ∃ entry, chains.arena.get? id = some entry := fun id hid =>
    (h.leads hbucket).live (by simp [hlist, hid])
  rw [read?_behind hbucket hfront, h.linked_front hbucket hlist]

/-! ## edits -/

/-- Makes an entry and lets a link hold it, if the link is there. -/
def insertAt? (chains : Chains κ KS VS) (link : Link) (hash : UInt64) (key : KS)
    (value : Option VS) : Option (Chains κ KS VS) :=
  let placed := { chains with arena := chains.arena.insert ⟨key, value, hash, none⟩ }
  placed.write? link (some chains.arena.nextId)

/-- Takes an entry out of its chain and out of the arena, if it is there and so
is the link. -/
def unlink? (chains : Chains κ KS VS) (link : Link) (id : EntryId) : Option (Chains κ KS VS) := do
  let entry ← chains.arena.get? id
  let cut := { chains with arena := chains.arena.erase id }
  cut.write? link entry.next

theorem Spells.insertAt?_eq (h : chains.Spells lists) {bucket : Nat}
    (hbucket : bucket < chains.heads.size) (hash : UInt64) (key : KS) (value : Option VS) :
    chains.insertAt? (.behind bucket (lists bucket)) hash key value =
      some (chains.insertAt (.behind bucket (lists bucket)) hash key value) := by
  let placed : Chains κ KS VS :=
    { chains with arena := chains.arena.insert ⟨key, value, hash, none⟩ }
  have hread : placed.read? (.behind bucket (lists bucket)) =
      some (placed.linked (.behind bucket (lists bucket))) := by
    refine read?_behind hbucket fun id hid => ?_
    obtain ⟨entry, hget⟩ := (h.leads hbucket).live hid
    have hne : id ≠ chains.arena.nextId := by
      rintro rfl
      exact h.not_mem hbucket h.valid.get?_nextId hid
    exact ⟨entry, by rw [h.valid.get?_insert, if_neg hne, hget]⟩
  exact write?_eq hread _

theorem Spells.unlink?_eq (h : chains.Spells lists) {link : Link} {id : EntryId}
    {entry : Entry KS VS} (hlink : chains.linked link = some id)
    (hget : chains.arena.get? id = some entry) :
    chains.unlink? link id = some (chains.unlink link id entry) := by
  obtain ⟨bucket, front, rest, hbucket, rfl, hlist⟩ := h.linked_eq_some hlink
  have hnodup := h.nodup hbucket
  rw [hlist] at hnodup
  let cut : Chains κ KS VS := { chains with arena := chains.arena.erase id }
  have hread : cut.read? (.behind bucket front) = some (cut.linked (.behind bucket front)) := by
    refine read?_behind hbucket fun other hother => ?_
    obtain ⟨entry', hget'⟩ := (h.leads hbucket).live (by rw [hlist]; simp [hother] : other ∈ _)
    have hne : id ≠ other := by
      rintro rfl
      exact (List.nodup_append.mp hnodup).2.2 id hother id List.mem_cons_self rfl
    exact ⟨entry', by rw [Arena.get?_erase, if_neg hne, hget']⟩
  rw [unlink?, hget]
  exact write?_eq hread _

/-! ## another array of heads -/

/-- A round of `scatter?`, with a cursor and the chains so far. -/
def scatterRound? : Option EntryId × Chains κ KS VS →
    Part (Chains κ KS VS ⊕ (Option EntryId × Chains κ KS VS))
  | (none, moved) => Part.some (.inl moved)
  | (some id, moved) => do
    let entry ← moved.arena.get? id
    let bucket := moved.bucketOf entry.hash
    let first ← moved.read? (.head bucket)
    let moved ← moved.write? (.after id) first
    let moved ← moved.write? (.head bucket) (some id)
    Part.some (.inr (entry.next, moved))

/-- Puts the entries met from a cursor on at the heads of their new chains. -/
def scatter? (cursor : Option EntryId) (moved : Chains κ KS VS) : Part (Chains κ KS VS) :=
  rounds scatterRound? (cursor, moved)

/-- Moves all entries to a new array of heads. -/
def rehash? (chains : Chains κ KS VS) (buckets : Nat) : Part (Chains κ KS VS) :=
  chains.heads.toList.foldlM (fun moved head => scatter? head moved)
    { arena := chains.arena, heads := Array.replicate buckets none }

theorem scatterRound?_eq {id : EntryId} {entry : Entry KS VS}
    (hget : moved.arena.get? id = some entry) (hpos : 0 < moved.heads.size) :
    scatterRound? (some id, moved) =
      Part.some (.inr (entry.next, moved.pushFront (moved.bucketOf entry.hash) id)) := by
  have hbucket : moved.bucketOf entry.hash < moved.heads.size := Nat.mod_lt _ hpos
  have hwrite := write?_eq (read?_after hget) (moved.linked (.head (moved.bucketOf entry.hash)))
  have hread : (moved.relink (.after id)
      (moved.linked (.head (moved.bucketOf entry.hash)))).read?
        (.head (moved.bucketOf entry.hash)) = some _ :=
    read?_head (by rwa [size_heads_relink])
  rw [scatterRound?]
  simp only [hget, lift_some, Part.bind_eq_bind, Part.bind_some, read?_head hbucket, hwrite,
    write?_eq hread]
  rfl

theorem scatter?_eq {ids : List EntryId} {cursor : Option EntryId} {bound : Nat}
    (hcursor : Leads moved.arena cursor ids none) (hnodup : ids.Nodup)
    (hbound : ids.length ≤ bound) (hpos : 0 < moved.heads.size) :
    scatter? cursor moved = Part.some (scatter bound cursor moved) := by
  -- the ids still to come are not those moved, so what they lead to is as it was
  induction ids generalizing cursor bound moved with
  | nil =>
      rw [leads_nil] at hcursor
      subst hcursor
      rw [scatter?, rounds_of_done rfl]
      cases bound <;> rfl
  | cons id ids ih =>
      obtain ⟨rfl, entry, hget, hrest⟩ := hcursor
      obtain ⟨hid, hnodup⟩ := List.nodup_cons.mp hnodup
      cases bound with
      | zero => simp at hbound
      | succ bound =>
          have hmoves := moves_pushFront moved (moved.bucketOf entry.hash) id
          have hnext := hmoves.leads (fun other hother => by
            simpa using ne_of_mem_of_not_mem hother hid) hrest
          have hrec := ih hnext hnodup (by simpa using hbound) (by rwa [hmoves.heads])
          rw [scatter?, rounds_of_next (scatterRound?_eq hget hpos), scatter, hget]
          exact hrec

theorem Receiving.foldlM_scatter? {idss : List (List EntryId)}
    (h : Receiving moved lists idss.flatten)
    (hchains : ∀ ids ∈ idss, Leads moved.arena ids.head? ids none)
    (hnodup : idss.flatten.Nodup) (hpos : 0 < moved.heads.size) :
    (idss.map List.head?).foldlM (fun moved head => scatter? head moved) moved =
      Part.some ((idss.map List.head?).foldl consume moved) := by
  induction idss generalizing moved lists with
  | nil => rfl
  | cons ids idss ih =>
      rw [List.flatten_cons] at h hnodup
      have hparts := List.nodup_append.mp hnodup
      have hfirst := hchains ids List.mem_cons_self
      have hbound := length_le_slots hparts.1 fun _ => hfirst.live
      obtain ⟨hreceiving, hmoves⟩ := h.scatter hfirst hnodup hbound hpos
      have hrest : ∀ others ∈ idss,
          Leads (moved.consume ids.head?).arena others.head? others none := fun others hothers =>
        hmoves.leads (fun id hid hid' =>
          hparts.2.2 id hid' id (List.mem_flatten_of_mem hothers hid) rfl)
          (hchains others (List.mem_cons_of_mem ids hothers))
      rw [List.map_cons, List.foldlM_cons, scatter?_eq hfirst hparts.1 hbound hpos,
        Part.bind_eq_bind, Part.bind_some]
      exact ih hreceiving hrest hparts.2.1 (by rwa [hmoves.heads])

theorem Spells.rehash?_eq (h : chains.Spells lists) {buckets : Nat} (hpos : 0 < buckets) :
    chains.rehash? buckets = Part.some (chains.rehash buckets) := by
  obtain ⟨hreceiving, hchains, hnodup⟩ := h.receiving_bare buckets
  rw [rehash?, rehash_eq_foldl, h.heads_eq]
  exact hreceiving.foldlM_scatter? hchains hnodup (by simpa using hpos)

end Chains

/-! ## searching -/

namespace Table

variable {t : Table F p} {lists : Nat → List EntryId}

/-- A round of `seek?`, with a link and the calls so far. -/
def seekRound? (t : Table F p) (key : K) (hash : UInt64) :
    Link × List (Event K KS V VS) →
      Part (Probe K KS V VS ⊕ (Link × List (Event K KS V VS)))
  | (link, calls) => do
    match ← t.read? link with
    | none => Part.some (.inl ⟨hash, link, none, calls⟩)
    | some id =>
      let entry ← t.arena.get? id
      let stored := p.keys.view entry.key
      let calls := calls ++ [.compared stored key]
      if p.hasher.compare stored key = .eq then
        Part.some (.inl ⟨hash, link, some (id, entry), calls⟩)
      else
        Part.some (.inr (.after id, calls))

/-- Searches a chain from a link on, after some calls. -/
def seek? (t : Table F p) (key : K) (hash : UInt64) (link : Link)
    (calls : List (Event K KS V VS)) : Part (Probe K KS V VS) :=
  rounds (t.seekRound? key hash) (link, calls)

/-- Looks a key up in the chain of its bucket. -/
def probe? (t : Table F p) (key : K) : Part (Probe K KS V VS) :=
  let hash := p.hasher.hash key
  t.seek? key hash (.head (t.bucketOf hash)) [.hashed key hash]

theorem seekRound?_none {key : K} {hash : UInt64} {link : Link}
    (hread : t.read? link = some none) (calls : List (Event K KS V VS)) :
    t.seekRound? key hash (link, calls) = Part.some (.inl ⟨hash, link, none, calls⟩) := by
  simp only [seekRound?, hread, lift_some, Part.bind_eq_bind, Part.bind_some]

theorem seekRound?_some (key : K) (hash : UInt64) {link : Link} {id : EntryId}
    {entry : Entry KS VS} (hread : t.read? link = some (some id))
    (hget : t.arena.get? id = some entry) (calls : List (Event K KS V VS)) :
    t.seekRound? key hash (link, calls) =
      let calls := calls ++ [.compared (p.keys.view entry.key) key]
      Part.some (if p.hasher.compare (p.keys.view entry.key) key = .eq then
        .inl ⟨hash, link, some (id, entry), calls⟩ else .inr (.after id, calls)) := by
  simp only [seekRound?, hread, hget, lift_some, Part.bind_eq_bind, Part.bind_some]
  split <;> rfl

theorem seek?_eq (h : t.Spells lists) (key : K) (hash : UInt64) {bucket bound : Nat}
    (hbucket : bucket < t.heads.size) (front : List EntryId) {rest : List EntryId}
    (hlist : lists bucket = front ++ rest) (hbound : rest.length ≤ bound)
    (calls : List (Event K KS V VS)) :
    t.seek? key hash (.behind bucket front) calls =
      let searched := t.seek key hash bound (.behind bucket front)
      Part.some { searched with calls := calls ++ searched.calls } := by
  induction rest generalizing front bound calls with
  | nil =>
      have hread := h.read?_front hbucket hlist
      have hlinked := h.linked_front hbucket hlist
      rw [seek?, rounds_of_done (seekRound?_none hread calls)]
      cases bound <;> simp [seek, hlinked]
  | cons id rest ih =>
      obtain ⟨entry, hget⟩ := (h.leads hbucket).live (by simp [hlist] : id ∈ lists bucket)
      have hread := h.read?_front hbucket hlist
      have hlinked := h.linked_front hbucket hlist
      have hround := seekRound?_some key hash hread hget calls
      cases bound with
      | zero => simp at hbound
      | succ bound =>
          by_cases heq : p.hasher.compare (p.keys.view entry.key) key = .eq
          · simp only [if_pos heq] at hround
            rw [seek?, rounds_of_done hround]
            simp [seek, hlinked, hget, heq]
          · simp only [if_neg heq] at hround
            rw [List.append_cons] at hlist
            have hrest := ih (front ++ [id]) hlist (by simpa using hbound)
              (calls ++ [.compared (p.keys.view entry.key) key])
            rw [Link.behind_concat, seek?] at hrest
            rw [seek?, rounds_of_next hround, hrest]
            simp [seek, hlinked, hget, heq]

theorem probe?_eq (h : t.Spells lists) (key : K) : t.probe? key = Part.some (t.probe key) := by
  have hhome := home_lt h key
  have hsearch := seek?_eq h key (p.hasher.hash key) hhome [] rfl (h.length_le hhome)
    [.hashed key (p.hasher.hash key)]
  rw [Link.behind_nil] at hsearch
  exact hsearch

end Table

/-! ## visiting -/

section Visiting

variable [Scale F]

/-- Carries out a visit, reading the entry from the arena each time. -/
def Visit.run? (link : Link) (id : EntryId) :
    Visit F ε K V VS ρ → (t : Table F p) → Part (Outcome F p ρ)
  | key next, t => do
    let entry ← t.arena.get? id
    run? link id (next (p.keys.view entry.key)) t
  | value next, t => do
    let entry ← t.arena.get? id
    run? link id (next (entry.value.map p.values.view)) t
  | slot copies action next, t => do
    let entry ← t.arena.get? id
    let did := action.run p copies entry.value
    let rest ← run? link id (next did.reply)
      { t with toChains := t.toChains.setValue id did.value }
    Part.some (rest.after did.journal)
  | contains other next, t => do
    let probe ← t.probe? other
    let rest ← run? link id (next probe.found.isSome) t
    Part.some (rest.after probe.calls)
  | lookUp other next, t => do
    let probe ← t.probe? other
    let value := probe.found.bind fun (_, entry) => entry.value.map p.values.view
    let rest ← run? link id (next value) t
    Part.some (rest.after probe.calls)
  | readings next, t => run? link id (next t.readings) t
  | leave result, t => Part.some ⟨result, t, []⟩
  | erase result, t => do
    let entry ← t.arena.get? id
    let toChains ← t.unlink? link id
    Part.some ⟨result, { t with toChains }, (t.eraseAt link id entry).journal⟩
  | take result, t => do
    let entry ← t.arena.get? id
    let toChains ← t.unlink? link id
    Part.some ⟨result entry.value, { t with toChains }, (t.takeAt link id entry).journal⟩

theorem Visit.run?_eq (visit : Visit F ε K V VS ρ) {t : Table F p} {lists : Nat → List EntryId}
    {link : Link} {id : EntryId} {entry : Entry KS VS} (h : t.Spells lists)
    (hlink : t.linked link = some id) (hget : t.arena.get? id = some entry) :
    visit.run? link id t = Part.some (visit.run link id t entry) := by
  induction visit generalizing t entry with
  | key next ih | value next ih =>
      rw [run?, hget, lift_some, Part.bind_eq_bind, Part.bind_some]
      exact ih _ h hlink hget
  | slot copies action next ih =>
      let value := (action.run p copies entry.value).value
      let changed : Table F p := { t with toChains := t.toChains.setValue id value }
      have hchanged : changed.Spells lists := h.setValue id value
      have hrest := ih (action.run p copies entry.value).reply hchanged
        ((Table.linked_setValue ..).trans hlink) (Table.get?_setValue hget value)
      rw [run?, hget]
      simp only [lift_some, Part.bind_eq_bind, Part.bind_some]
      rw [hrest, Part.bind_some]
      rfl
  | contains other next ih =>
      have hrest := ih (t.contains other).answer h hlink hget
      rw [run?, Table.probe?_eq h]
      simp only [Part.bind_eq_bind, Part.bind_some]
      rw [Table.contains] at hrest
      rw [hrest, Part.bind_some]
      rfl
  | lookUp other next ih =>
      have hrest := ih (t.get? other).answer h hlink hget
      rw [run?, Table.probe?_eq h]
      simp only [Part.bind_eq_bind, Part.bind_some]
      rw [Table.get?] at hrest
      rw [hrest, Part.bind_some]
      rfl
  | readings next ih => exact ih _ h hlink hget
  | leave result => rfl
  | erase result =>
      rw [run?, hget, h.unlink?_eq hlink hget]
      simp only [lift_some, Part.bind_eq_bind, Part.bind_some]
      rfl
  | take result =>
      rw [run?, hget, h.unlink?_eq hlink hget]
      simp only [lift_some, Part.bind_eq_bind, Part.bind_some]
      rfl

/-- A round of a walk. -/
def Walk.round? (visitor : Visitor F ε K V VS σ ω) (w : Walk F p σ) :
    Part ((Walk F p σ × Ending ω) ⊕ Walk F p σ) := do
  match ← w.table.read? w.link with
  | none =>
    let next := w.bucket + 1
    if next < w.table.buckets then Part.some (.inr { w with bucket := next, link := .head next })
    else Part.some (.inl (w, .completed))
  | some id =>
    let outcome ← (visitor w.memory).run? w.link id w.table
    let visited := w.visited outcome
    match outcome.answer.2 with
    | .goOn =>
      let held ← visited.table.read? w.link
      Part.some (.inr (if held = some id then { visited with link := .after id } else visited))
    | .stop => Part.some (.inl (visited, .stopped))
    | .fail why => Part.some (.inl (visited, .failed why))

/-- Goes on with a walk until it is over. -/
def Walk.run? (visitor : Visitor F ε K V VS σ ω) (w : Walk F p σ) : Part (Walk F p σ × Ending ω) :=
  rounds (Walk.round? visitor) w

/-- A round of a walk that stands somewhere is a step of it. -/
theorem Walk.Stands.round?_eq (visitor : Visitor F ε K V VS σ ω) {w : Walk F p σ}
    {lists : Nat → List EntryId} {front rest : List EntryId} (h : w.Stands lists front rest) :
    w.round? visitor = Part.some (match w.step visitor with
      | (w', none) => .inr w'
      | (w', some ending) => .inl (w', ending)) := by
  have hread := h.spells.read?_front h.bucket_lt h.list_eq
  rw [← h.link_eq] at hread
  cases rest with
  | nil =>
      rw [Walk.round?, hread, h.step_nil visitor, nextBucket]
      simp only [List.head?_nil, lift_some, Part.bind_eq_bind, Part.bind_some]
      split <;> rfl
  | cons id rest =>
      obtain ⟨entry, hget⟩ := h.live
      have hvisit : (visitor w.memory).run? w.link id w.table =
          Part.some (w.outcomeAt visitor id entry) :=
        (visitor w.memory).run?_eq h.spells h.linked_eq hget
      have hvisited : (w.visited (w.outcomeAt visitor id entry)).Stands _ front _ :=
        h.visited (h.visits hget (visitor w.memory))
      have hheld : (w.visited (w.outcomeAt visitor id entry)).table.read? w.link =
          some ((w.visited (w.outcomeAt visitor id entry)).table.linked w.link) := by
        have hread' := hvisited.spells.read?_front hvisited.bucket_lt hvisited.list_eq
        rw [← hvisited.link_eq, ← hvisited.linked_eq] at hread'
        exact hread'
      rw [Walk.round?, hread, h.step_cons hget, visitAt_eq_movedOn, callAt]
      simp only [List.head?_cons, lift_some, Part.bind_eq_bind, Part.bind_some, hvisit]
      cases (w.outcomeAt visitor id entry).answer.2 with
      | goOn =>
          simp only [hheld, lift_some, Part.bind_some]
          rfl
      | stop => rfl
      | fail why => rfl

theorem Walk.Stands.run?_eq (visitor : Visitor F ε K V VS σ ω) {w : Walk F p σ}
    {lists : Nat → List EntryId} {front rest : List EntryId} (h : w.Stands lists front rest)
    {bound : Nat} (hbound : w.remaining lists rest ≤ bound) :
    w.run? visitor = Part.some (w.runWithin visitor bound) := by
  -- rounds have no bound, and the bound of the steps is enough for what remains
  induction bound generalizing w lists front rest with
  | zero =>
      have hlt := h.bucket_lt
      unfold remaining at hbound
      omega
  | succ bound ih =>
      have hround := h.round?_eq visitor
      unfold runWithin
      cases rest with
      | nil =>
          rw [h.step_nil visitor, nextBucket] at hround ⊢
          by_cases hnext : w.bucket + 1 < w.table.buckets
          · have hremaining := remaining_next lists hnext
            simp only [if_pos hnext] at hround ⊢
            rw [Walk.run?, rounds_of_next hround]
            exact ih (h.next hnext) (by omega)
          · simp only [if_neg hnext] at hround ⊢
            rw [Walk.run?, rounds_of_done hround]
      | cons id rest =>
          obtain ⟨entry, hget⟩ := h.live
          rw [h.step_cons hget, visitAt_eq_movedOn] at hround ⊢
          cases hverdict : (w.callAt visitor id entry).verdict with
          | goOn =>
              obtain ⟨lists', front', hstands, -, -, hremaining⟩ := h.stands_movedOn visitor hget
              simp only [hverdict] at hround ⊢
              rw [Walk.run?, rounds_of_next hround]
              exact ih hstands (by omega)
          | stop | fail =>
              simp only [hverdict] at hround ⊢
              rw [Walk.run?, rounds_of_done hround]

end Visiting

end ChainedTable
