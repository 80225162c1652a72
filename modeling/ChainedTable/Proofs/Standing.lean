import ChainedTable.Proofs.Visit

/-!
# ChainedTable.Proofs.Standing

Where a walk stands, and what it has still to do.

At any time the entries of a table fall into those that a walk has passed and
those it has still to meet (`Walk.Stands`).  A step of the walk either leaves a
bucket with nothing more to meet in it, or calls the visitor for the first entry
that is still to meet.  That entry is met no more, whatever the visitor did:

1. if it stays, the walk goes behind it;
2. if it is removed, the link at which the walk stands holds its successor.

`Served` tells what calls of a visitor make of a table, one after the other.
-/

namespace ChainedTable

variable {F ε K KS V VS σ ω : Type} {κ : Keeper} {p : Policies ε K KS V VS κ}

/-! ## calls of a visitor -/

/-- One call of a visitor, in retrospect. -/
structure Call (KS VS ω : Type) where
  id : EntryId
  /-- What the entry held when the visitor was called. -/
  found : Holding KS VS
  /-- The value that the entry was left with, unless it was removed. -/
  left : Option (Option VS)
  verdict : Verdict ω

/-- What is left of the entry after a call. -/
def Call.remains (call : Call KS VS ω) : Option (EntryId × Holding KS VS) :=
  call.left.map fun value => (call.id, { call.found with value })

/-- How a walk ends with a verdict, if nothing is left to visit. -/
def Verdict.ending : Verdict ω → Ending ω
  | goOn => .completed
  | stop => .stopped
  | fail why => .failed why

/-- How a walk ends with its last call. -/
def endingOf (calls : List (Call KS VS ω)) : Ending ω :=
  calls.getLast?.elim .completed (·.verdict.ending)

/-- Calls of a visitor one after the other, each for an entry that a link of the
table holds: the table, the memory and the journal that they end with. -/
inductive Table.Served [Scale F] (visitor : Visitor F ε K V VS σ ω) :
    Table F p → σ → List (Call KS VS ω) → Table F p → σ → List (Event K KS V VS) → Prop where
  | nil {t : Table F p} {memory : σ} : Served visitor t memory [] t memory []
  | cons {t last : Table F p} {memory memory' : σ} {link : Link} {id : EntryId}
    {entry : Entry KS VS} {calls : List (Call KS VS ω)} {events : List (Event K KS V VS)}
    {outcome : Outcome F p (σ × Verdict ω)} :
    t.linked link = some id → t.arena.get? id = some entry →
      (visitor memory).run link id t entry = outcome →
      Served visitor outcome.table outcome.answer.1 calls last memory' events →
      Served visitor t memory
        (⟨id, entry.holding, (visitor memory).left id t entry, outcome.answer.2⟩ :: calls)
        last memory' (outcome.journal ++ events)

/-! ## where a walk stands -/

namespace Walk

/-- A walk stands behind the entries of `front`, with those of `rest` still to
meet in its bucket. -/
structure Stands (w : Walk F p σ) (lists : Nat → List EntryId) (front rest : List EntryId) :
    Prop where
  spells : w.table.Spells lists
  bucket_lt : w.bucket < w.table.heads.size
  list_eq : lists w.bucket = front ++ rest
  link_eq : w.link = .behind w.bucket front

/-- The entries before those of the bucket of a walk. -/
def earlier (w : Walk F p σ) (lists : Nat → List EntryId) : List EntryId :=
  (List.range w.bucket).flatMap lists

/-- The entries behind those of the bucket of a walk. -/
def later (w : Walk F p σ) (lists : Nat → List EntryId) : List EntryId :=
  (List.range' (w.bucket + 1) (w.table.heads.size - (w.bucket + 1))).flatMap lists

/-- What a walk still has to do: entries to meet and buckets to leave. -/
def remaining (w : Walk F p σ) (lists : Nat → List EntryId) (rest : List EntryId) : Nat :=
  (rest ++ w.later lists).length + (w.table.heads.size - w.bucket)

/-- From the end of a chain a walk goes to the next bucket, if there is one. -/
theorem nextBucket_eq (w : Walk F p σ) (ω : Type) (lists : Nat → List EntryId) :
    (w.bucket + 1 < w.table.heads.size ∧
      (w.nextBucket : Walk F p σ × Option (Ending ω)) =
        ({ w with bucket := w.bucket + 1, link := .head (w.bucket + 1) }, none)) ∨
    (w.later lists = [] ∧
      (w.nextBucket : Walk F p σ × Option (Ending ω)) = (w, some .completed)) := by
  by_cases hnext : w.bucket + 1 < w.table.heads.size
  · exact .inl ⟨hnext, if_pos hnext⟩
  · have hzero : w.table.heads.size - (w.bucket + 1) = 0 := by omega
    exact .inr ⟨by rw [later, hzero]; rfl, if_neg hnext⟩

namespace Stands

variable {w : Walk F p σ} {lists : Nat → List EntryId} {front rest : List EntryId}

/-- The entries passed and those still to meet are all there are. -/
theorem traversal_eq (h : w.Stands lists front rest) :
    w.table.traversal = w.earlier lists ++ front ++ (rest ++ w.later lists) := by
  have hlt := h.bucket_lt
  have hsplit : List.range w.table.heads.size = List.range w.bucket ++ w.bucket ::
      List.range' (w.bucket + 1) (w.table.heads.size - (w.bucket + 1)) := by
    have happend := List.range'_append_1 (s := 0) (m := w.bucket)
      (n := w.table.heads.size - (w.bucket + 1) + 1)
    rw [List.range'_succ, Nat.zero_add] at happend
    rw [List.range_eq_range', List.range_eq_range', happend]
    congr 1
    omega
  rw [h.spells.traversal_eq, hsplit, List.flatMap_append, List.flatMap_cons, h.list_eq]
  simp [earlier, later]

theorem linked_eq (h : w.Stands lists front rest) : w.table.linked w.link = rest.head? := by
  rw [h.link_eq]
  exact h.spells.linked_front h.bucket_lt h.list_eq

theorem next (h : w.Stands lists front []) (hnext : w.bucket + 1 < w.table.heads.size) :
    ({ w with bucket := w.bucket + 1, link := .head (w.bucket + 1) } : Walk F p σ).Stands lists
      [] (lists (w.bucket + 1)) :=
  ⟨h.spells, hnext, rfl, rfl⟩

/-- Going to the next bucket leaves passed what was passed. -/
theorem earlier_next (h : w.Stands lists front []) :
    ({ w with bucket := w.bucket + 1, link := .head (w.bucket + 1) } : Walk F p σ).earlier lists =
      w.earlier lists ++ front := by
  have hlist := h.list_eq
  rw [List.append_nil] at hlist
  simp [earlier, List.range_succ, hlist]

variable (lists) in
theorem later_next (hnext : w.bucket + 1 < w.table.heads.size) :
    w.later lists = lists (w.bucket + 1) ++ Walk.later
      ({ w with bucket := w.bucket + 1, link := .head (w.bucket + 1) } : Walk F p σ) lists := by
  have hsplit : w.table.heads.size - (w.bucket + 1) =
      (w.table.heads.size - (w.bucket + 1 + 1)) + 1 := by omega
  rw [later, hsplit, List.range'_succ, List.flatMap_cons]
  rfl

variable (lists) in
/-- Leaving a bucket is one thing less to do. -/
theorem remaining_next (hnext : w.bucket + 1 < w.table.heads.size) :
    ({ w with bucket := w.bucket + 1, link := .head (w.bucket + 1) } : Walk F p σ).remaining lists
      (lists (w.bucket + 1)) + 1 = w.remaining lists [] := by
  have hsplit := later_next lists hnext
  unfold remaining
  rw [List.nil_append, hsplit]
  dsimp only
  omega

/-! ## calling the visitor -/

section Visiting

variable {id : EntryId} {held : Holding KS VS} {left : Option (Option VS)}
  {outcome : Outcome F p (σ × Verdict ω)}

theorem visits [Scale F] (h : w.Stands lists front (id :: rest)) {entry : Entry KS VS}
    (hget : w.table.arena.get? id = some entry) (visit : Visit F ε K V VS (σ × Verdict ω)) :
    w.table.Visits lists w.bucket front id rest entry.holding (visit.left id w.table entry)
      (visit.run w.link id w.table entry).table := by
  rw [h.link_eq]
  exact visit.visits_run h.spells h.bucket_lt h.list_eq hget

/-- The link at which a visit was made holds what is left of the entry, or else
the one that followed. -/
theorem visited (h : w.Stands lists front (id :: rest))
    (hvisits : w.table.Visits lists w.bucket front id rest held left outcome.table) :
    (w.visited outcome).Stands
      (Function.update lists w.bucket (front ++ survivors id left ++ rest)) front
      (survivors id left ++ rest) where
  spells := hvisits.spells
  bucket_lt := hvisits.heads ▸ h.bucket_lt
  list_eq := by simp [Walk.visited]
  link_eq := h.link_eq

/-- After a visit a walk stands before the entries that it has not visited. -/
theorem advance (h : w.Stands lists front (id :: rest))
    (hvisits : w.table.Visits lists w.bucket front id rest held left outcome.table) :
    ((w.visited outcome).advance id).Stands
      (Function.update lists w.bucket (front ++ survivors id left ++ rest))
      (front ++ survivors id left) rest := by
  have hnodup := h.spells.nodup h.bucket_lt
  rw [h.list_eq] at hnodup
  have hrest : id ∉ rest := (List.nodup_cons.mp (List.nodup_append.mp hnodup).2.1).1
  have hstands := h.visited hvisits
  have hlinked := hstands.linked_eq
  unfold Walk.advance
  cases left with
  | none =>
      have hne : rest.head? ≠ some id := fun heq => hrest (List.mem_of_mem_head? heq)
      rw [hlinked, survivors_none, List.nil_append, if_neg hne]
      simpa using hstands
  | some value =>
      rw [hlinked, survivors_some, List.singleton_append, List.head?_cons, if_pos rfl]
      exact ⟨hstands.spells, hstands.bucket_lt, by simp [Walk.visited], by simp [Walk.visited]⟩

/-- Entries other than the one visited are listed as they were. -/
theorem listed_visited
    (hvisits : w.table.Visits lists w.bucket front id rest held left outcome.table)
    {ids : List EntryId} (hids : id ∉ ids) : outcome.table.listed ids = w.table.listed ids :=
  Chains.listed_congr fun _ hother => hvisits.elsewhere (ne_of_mem_of_not_mem hother hids)

theorem listed_survivors
    (hvisits : w.table.Visits lists w.bucket front id rest held left outcome.table)
    (verdict : Verdict ω) :
    outcome.table.listed (survivors id left) =
      [(⟨id, held, left, verdict⟩ : Call KS VS ω)].filterMap Call.remains := by
  have hhere := hvisits.here
  cases left with
  | none => rfl
  | some value =>
      rw [survivors_some, Chains.listed_cons hhere]
      rfl

end Visiting

end Stands

/-! ## all calls of a walk -/

/-- What becomes of a walk that has passed some entries and has others to meet:
calls for the first of those, in order, each with what the entry has held since
the walk began. -/
structure Tours [Scale F] (visitor : Visitor F ε K V VS σ ω) (w : Walk F p σ)
    (passed todo : List (EntryId × Holding KS VS)) (calls : List (Call KS VS ω))
    (events : List (Event K KS V VS)) (last : Walk F p σ) (ending : Ending ω) : Prop where
  served : w.table.Served visitor w.memory calls last.table last.memory events
  journal : last.journal.toList = w.journal.toList ++ events
  goOn : ∀ call ∈ calls.dropLast, call.verdict = .goOn
  ending_eq : ending = endingOf calls
  found : calls.map (fun call => (call.id, call.found)) <+: todo
  complete : ending = .completed → calls.length = todo.length
  listing : last.table.listing =
    passed ++ calls.filterMap Call.remains ++ todo.drop calls.length

section Calling

variable [Scale F] (visitor : Visitor F ε K V VS σ ω) (w : Walk F p σ) (id : EntryId)
  (entry : Entry KS VS)

/-- What comes of calling the visitor at an entry. -/
def outcomeAt : Outcome F p (σ × Verdict ω) := (visitor w.memory).run w.link id w.table entry

/-- The call of the visitor at an entry. -/
def callAt : Call KS VS ω where
  id
  found := entry.holding
  left := (visitor w.memory).left id w.table entry
  verdict := (w.outcomeAt visitor id entry).answer.2

/-- The walk after a call for an entry, if it goes on. -/
def movedOn : Walk F p σ := (w.visited (w.outcomeAt visitor id entry)).advance id

theorem visitAt_eq_movedOn : w.visitAt visitor id entry =
    match (w.callAt visitor id entry).verdict with
    | .goOn => (w.movedOn visitor id entry, none)
    | .stop => (w.visited (w.outcomeAt visitor id entry), some .stopped)
    | .fail why => (w.visited (w.outcomeAt visitor id entry), some (.failed why)) := rfl

theorem movedOn_eq : ∃ link, w.movedOn visitor id entry =
    { w.visited (w.outcomeAt visitor id entry) with link } := by
  unfold movedOn advance
  split
  · exact ⟨_, rfl⟩
  · exact ⟨w.link, rfl⟩

@[simp] theorem table_movedOn :
    (w.movedOn visitor id entry).table = (w.outcomeAt visitor id entry).table := by
  obtain ⟨link, heq⟩ := w.movedOn_eq visitor id entry
  rw [heq]
  rfl

end Calling

/-- The entry that a walk has come to, unless it stands at the end of a chain. -/
def meets (w : Walk F p σ) : Option (EntryId × Entry KS VS) :=
  (w.table.linked w.link).bind fun id => (w.table.arena.get? id).map (id, ·)

/-- The calls of the visitor in a bounded number of steps. -/
def callsWithin [Scale F] (visitor : Visitor F ε K V VS σ ω) :
    Nat → Walk F p σ → List (Call KS VS ω)
  | 0, _ => []
  | bound + 1, w =>
    let here := w.meets.toList.map fun (id, entry) => w.callAt visitor id entry
    match w.step visitor with
    | (next, none) => here ++ callsWithin visitor bound next
    | (_, some _) => here

namespace Stands

variable [Scale F] {visitor : Visitor F ε K V VS σ ω} {w : Walk F p σ}
  {lists : Nat → List EntryId} {front rest : List EntryId} {id : EntryId} {entry : Entry KS VS}

omit [Scale F] in
theorem live (h : w.Stands lists front (id :: rest)) :
    ∃ entry, w.table.arena.get? id = some entry :=
  (h.spells.leads h.bucket_lt).live (by simp [h.list_eq])

omit [Scale F] in
theorem meets_nil (h : w.Stands lists front []) : w.meets = none := by
  rw [meets, h.linked_eq]
  rfl

omit [Scale F] in
theorem meets_cons (h : w.Stands lists front (id :: rest))
    (hget : w.table.arena.get? id = some entry) : w.meets = some (id, entry) := by
  simp only [meets, h.linked_eq, List.head?_cons, Option.bind_some, hget, Option.map_some]

variable (visitor) in
theorem step_nil (h : w.Stands lists front []) : w.step visitor = w.nextBucket := by
  unfold step
  rw [h.linked_eq]
  rfl

theorem step_cons (h : w.Stands lists front (id :: rest))
    (hget : w.table.arena.get? id = some entry) : w.step visitor = w.visitAt visitor id entry := by
  unfold step
  rw [h.linked_eq]
  simp only [List.head?_cons, hget]

omit [Scale F] in
/-- The entry to meet next is met nowhere else. -/
theorem not_mem (h : w.Stands lists front (id :: rest)) :
    id ∉ w.earlier lists ++ front ∧ id ∉ rest ++ w.later lists := by
  have hnodup := h.spells.nodup_traversal
  rw [h.traversal_eq] at hnodup
  obtain ⟨-, hnext, hapart⟩ := List.nodup_append.mp hnodup
  exact ⟨fun hid => hapart id hid id (by simp) rfl, (List.nodup_cons.mp hnext).1⟩

/-- A walk at its end lists what it has passed. -/
theorem tours_nil (h : w.Stands lists front []) (hlater : w.later lists = []) :
    w.Tours visitor (w.table.listed (w.earlier lists ++ front)) [] [] [] w .completed where
  served := .nil
  journal := by simp
  goOn call hcall := by simp at hcall
  ending_eq := rfl
  found := List.prefix_rfl
  complete _ := rfl
  listing := by
    rw [Chains.listing, h.traversal_eq, hlater]
    simp

variable (visitor) in
/-- What is listed after a visit, part by part. -/
theorem listed_outcomeAt (h : w.Stands lists front (id :: rest))
    (hget : w.table.arena.get? id = some entry) :
    (w.outcomeAt visitor id entry).table.listed (w.earlier lists ++ front ++
        survivors id ((visitor w.memory).left id w.table entry)) =
      w.table.listed (w.earlier lists ++ front) ++
        [w.callAt visitor id entry].filterMap Call.remains ∧
    (w.outcomeAt visitor id entry).table.listed (rest ++ w.later lists) =
      w.table.listed (rest ++ w.later lists) := by
  have hvisits : w.table.Visits lists w.bucket front id rest entry.holding
      ((visitor w.memory).left id w.table entry) (w.outcomeAt visitor id entry).table :=
    h.visits hget (visitor w.memory)
  obtain ⟨hpassed, htodo⟩ := h.not_mem
  refine ⟨?_, listed_visited hvisits htodo⟩
  rw [Chains.listed_append, listed_visited hvisits hpassed,
    listed_survivors hvisits (w.outcomeAt visitor id entry).answer.2]
  rfl

variable (visitor) in
/-- The walk after a visit, and what it has passed and not met yet. -/
theorem stands_movedOn (h : w.Stands lists front (id :: rest))
    (hget : w.table.arena.get? id = some entry) :
    ∃ lists' front', (w.movedOn visitor id entry).Stands lists' front' rest ∧
      (w.movedOn visitor id entry).earlier lists' ++ front' =
        w.earlier lists ++ front ++ survivors id ((visitor w.memory).left id w.table entry) ∧
      (w.movedOn visitor id entry).later lists' = w.later lists ∧
      (w.movedOn visitor id entry).remaining lists' rest + 1 = w.remaining lists (id :: rest) := by
  have hvisits : w.table.Visits lists w.bucket front id rest entry.holding
      ((visitor w.memory).left id w.table entry) (w.outcomeAt visitor id entry).table :=
    h.visits hget (visitor w.memory)
  obtain ⟨link, heq⟩ := w.movedOn_eq visitor id entry
  have hbucket : (w.movedOn visitor id entry).bucket = w.bucket := by rw [heq]; rfl
  have hheads : (w.movedOn visitor id entry).table.heads.size = w.table.heads.size := by
    rw [table_movedOn]
    exact hvisits.heads
  have hlater : (w.movedOn visitor id entry).later (Function.update lists w.bucket
      (front ++ survivors id ((visitor w.memory).left id w.table entry) ++ rest)) =
      w.later lists := by
    rw [later, hbucket, hheads]
    refine List.flatMap_congr fun bucket hmem => ?_
    rw [Function.update_of_ne (by rw [List.mem_range'_1] at hmem; omega)]
  refine ⟨_, _, h.advance hvisits, ?_, hlater, ?_⟩
  · rw [earlier, hbucket, ← List.append_assoc]
    congr 2
    refine List.flatMap_congr fun bucket hmem => ?_
    rw [Function.update_of_ne (Nat.ne_of_lt (List.mem_range.mp hmem))]
  · unfold remaining
    rw [hlater, hbucket, hheads]
    simp only [List.length_append, List.length_cons]
    omega

end Stands

namespace Tours

variable [Scale F] {visitor : Visitor F ε K V VS σ ω} {w last : Walk F p σ}
  {lists : Nat → List EntryId} {front rest : List EntryId} {id : EntryId} {entry : Entry KS VS}
  {calls : List (Call KS VS ω)} {events : List (Event K KS V VS)} {ending : Ending ω}

/-- The first call of a walk that goes on after it. -/
theorem cons (h : w.Stands lists front (id :: rest)) (hget : w.table.arena.get? id = some entry)
    (hgo : (w.callAt visitor id entry).verdict = .goOn)
    (htours : (w.movedOn visitor id entry).Tours visitor
      (w.table.listed (w.earlier lists ++ front) ++
        [w.callAt visitor id entry].filterMap Call.remains)
      (w.table.listed (rest ++ w.later lists)) calls events last ending) :
    w.Tours visitor (w.table.listed (w.earlier lists ++ front))
      (w.table.listed (id :: rest ++ w.later lists)) (w.callAt visitor id entry :: calls)
      ((w.outcomeAt visitor id entry).journal ++ events) last ending := by
  have hlisted := Chains.listed_cons (Chains.holding?_of_get? hget) (rest ++ w.later lists)
  have hserved := htours.served
  have hjournal := htours.journal
  obtain ⟨link, heq⟩ := w.movedOn_eq visitor id entry
  rw [heq] at hserved hjournal
  rw [List.cons_append, hlisted]
  refine ⟨.cons ?_ hget rfl hserved, ?_, ?_, ?_, ?_, ?_, ?_⟩
  · rw [h.linked_eq, List.head?_cons]
  · rw [hjournal]
    simp [visited]
  · intro call hcall
    cases calls with
    | nil => simp at hcall
    | cons next calls =>
        rw [List.dropLast_cons_cons] at hcall
        rcases List.mem_cons.mp hcall with rfl | hcall
        · exact hgo
        · exact htours.goOn call hcall
  · rw [htours.ending_eq]
    cases calls with
    | nil => simp [endingOf, hgo, Verdict.ending]
    | cons next calls => simp [endingOf]
  · exact List.prefix_cons_inj _ |>.mpr htours.found
  · intro hending
    rw [List.length_cons, List.length_cons, htours.complete hending]
  · have hcalls : (w.callAt visitor id entry :: calls).filterMap Call.remains =
        [w.callAt visitor id entry].filterMap Call.remains ++ calls.filterMap Call.remains := by
      rw [← List.filterMap_append, List.singleton_append]
    rw [htours.listing, hcalls, List.length_cons, List.drop_succ_cons]
    simp only [List.append_assoc]

variable (visitor) in
/-- The last call of a walk. -/
theorem single (h : w.Stands lists front (id :: rest)) (hget : w.table.arena.get? id = some entry)
    (hends : (w.callAt visitor id entry).verdict ≠ .goOn) :
    w.Tours visitor (w.table.listed (w.earlier lists ++ front))
      (w.table.listed (id :: rest ++ w.later lists)) [w.callAt visitor id entry]
      (w.outcomeAt visitor id entry).journal (w.visited (w.outcomeAt visitor id entry))
      (w.callAt visitor id entry).verdict.ending := by
  have hlisted := Chains.listed_cons (Chains.holding?_of_get? hget) (rest ++ w.later lists)
  obtain ⟨lists', front', hstands, hpassed, hlater, -⟩ := h.stands_movedOn visitor hget
  obtain ⟨hpassed', htodo'⟩ := h.listed_outcomeAt visitor hget
  have htraversal := hstands.traversal_eq
  rw [hpassed, hlater, table_movedOn] at htraversal
  rw [List.cons_append, hlisted]
  refine ⟨?_, by simp [Walk.visited], by simp, rfl, ?_, ?_, ?_⟩
  · rw [← List.append_nil (w.outcomeAt visitor id entry).journal]
    exact .cons h.linked_eq hget rfl .nil
  · simp [callAt]
  · intro hending
    cases hverdict : (w.callAt visitor id entry).verdict with
    | goOn => exact absurd hverdict hends
    | stop => simp [hverdict, Verdict.ending] at hending
    | fail why => simp [hverdict, Verdict.ending] at hending
  · change (w.outcomeAt visitor id entry).table.listing = _
    rw [Chains.listing, htraversal, Chains.listed_append, hpassed', htodo']
    rfl

end Tours

/-- A walk goes on with the first entry of the next bucket. -/
theorem Tours.next [Scale F] {visitor : Visitor F ε K V VS σ ω} {w last : Walk F p σ}
    {passed todo : List (EntryId × Holding KS VS)} {calls : List (Call KS VS ω)}
    {events : List (Event K KS V VS)} {ending : Ending ω} {bucket : Nat} {link : Link}
    (h : ({ w with bucket, link } : Walk F p σ).Tours visitor passed todo calls events last
      ending) :
    w.Tours visitor passed todo calls events last ending :=
  ⟨h.served, h.journal, h.goOn, h.ending_eq, h.found, h.complete, h.listing⟩

/-- **A walk with steps enough** calls the visitor for what it has to meet. -/
theorem Stands.tours [Scale F] (visitor : Visitor F ε K V VS σ ω) {w : Walk F p σ}
    {lists : Nat → List EntryId} {front rest : List EntryId} (h : w.Stands lists front rest)
    {bound : Nat} (hbound : w.remaining lists rest ≤ bound) :
    ∃ events, w.Tours visitor (w.table.listed (w.earlier lists ++ front))
      (w.table.listed (rest ++ w.later lists)) (w.callsWithin visitor bound) events
      (w.runWithin visitor bound).1 (w.runWithin visitor bound).2 := by
  -- a step visits an id or leaves a bucket, so that `remaining` falls with the bound
  induction bound generalizing w lists front rest with
  | zero =>
      have hlt := h.bucket_lt
      unfold remaining at hbound
      omega
  | succ bound ih =>
      unfold runWithin callsWithin
      cases rest with
      | nil =>
          rw [h.meets_nil, h.step_nil visitor]
          rcases w.nextBucket_eq ω lists with ⟨hnext, heq⟩ | ⟨hlater, heq⟩
          · rw [heq]
            have hremaining := Stands.remaining_next lists hnext
            obtain ⟨events, htours⟩ := ih (h.next hnext) (by omega)
            have hrest := Stands.later_next lists hnext
            rw [h.earlier_next, List.append_nil, ← hrest] at htours
            exact ⟨events, htours.next⟩
          · rw [heq, hlater]
            exact ⟨[], h.tours_nil hlater⟩
      | cons id rest =>
          obtain ⟨entry, hget⟩ := h.live
          obtain ⟨lists', front', hstands, hpassed, hlater, hremaining⟩ :=
            h.stands_movedOn visitor hget
          obtain ⟨hpassed', htodo'⟩ := h.listed_outcomeAt visitor hget
          obtain ⟨events, htours⟩ := ih hstands (by omega)
          rw [hpassed, hlater, table_movedOn, hpassed', htodo'] at htours
          rw [h.meets_cons hget, h.step_cons hget, visitAt_eq_movedOn]
          cases hverdict : (w.callAt visitor id entry).verdict with
          | goOn => exact ⟨_, htours.cons h hget hverdict⟩
          | stop =>
              have hsingle := Tours.single visitor h hget (by simp [hverdict])
              rw [hverdict] at hsingle
              exact ⟨_, hsingle⟩
          | fail why =>
              have hsingle := Tours.single visitor h hget (by simp [hverdict])
              rw [hverdict] at hsingle
              exact ⟨_, hsingle⟩

end Walk

/-! ## the start -/

namespace Table.Sound

variable {t : Table F p}

theorem stands_start (h : t.Sound) (memory : σ) :
    (Walk.start t memory).Stands t.chain [] (t.chain 0) :=
  ⟨h.wellLinked, h.wellLinked.heads_pos, rfl, rfl⟩

/-- A walk that has not begun has all entries to meet. -/
theorem traversal_start (h : t.Sound) (memory : σ) :
    t.traversal = t.chain 0 ++ (Walk.start t memory).later t.chain := by
  have htraversal := (h.stands_start memory).traversal_eq
  simp only [Walk.earlier, Walk.start, List.range_zero, List.flatMap_nil, List.nil_append]
    at htraversal
  exact htraversal

theorem length_traversal_le (h : t.Sound) : t.traversal.length ≤ t.arena.slots.size := by
  refine Chains.length_le_slots h.wellLinked.nodup_traversal fun id hid => ?_
  obtain ⟨held, hheld⟩ := h.wellLinked.mem_traversal_iff.mp hid
  obtain ⟨entry, hget, -⟩ := Chains.holding?_eq_some_iff.mp hheld
  exact ⟨entry, hget⟩

/-- The bound of a walk is enough. -/
theorem remaining_start_le (h : t.Sound) (memory : σ) :
    (Walk.start t memory).remaining t.chain (t.chain 0) ≤ t.arena.slots.size + t.buckets := by
  unfold Walk.remaining
  rw [← h.traversal_start memory]
  exact Nat.add_le_add h.length_traversal_le (Nat.sub_le _ _)

end Table.Sound

end ChainedTable
