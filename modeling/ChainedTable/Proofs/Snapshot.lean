import ChainedTable.Proofs.Standing

/-!
# ChainedTable.Proofs.Snapshot

A walk goes over the entries that were there when it began.

Removing the entry that is visited, and changing its value, is all that a visitor
can do to a table.  So its calls are for the first entries of the listing at the
start, and each finds its entry as it was then.  What the table holds in the end
is what the calls have left of their entries, and the rest of the listing.

The density step that may follow a walk moves entries to other chains, and
neither changes nor removes one.
-/

namespace ChainedTable

variable {F ε K KS V VS σ ω : Type} {κ : Keeper} {p : Policies ε K KS V VS κ}

namespace Table

variable {t : Table F p}

/-! ## the density afterwards -/

theorem Sound.holding?_restoreBandWithin [Scale F] (h : t.Sound) (supply : Supply ε) (bound : Nat)
    (id : EntryId) : (restoreBandWithin supply bound t).table.holding? id = t.holding? id := by
  induction bound generalizing t with
  | zero => rfl
  | succ bound ih =>
      unfold restoreBandWithin
      dsimp only
      split
      · exact (ih (h.densityStep supply)).trans (h.holding?_densityStep supply id)
      · exact h.holding?_densityStep supply id

/-- Bringing the density back into its band changes no entry. -/
theorem Sound.holding?_restoreBand [Scale F] (h : t.Sound) (supply : Supply ε) (id : EntryId) :
    (t.restoreBand supply).table.holding? id = t.holding? id := by
  unfold restoreBand
  dsimp only
  split <;> exact h.holding?_restoreBandWithin supply levelCount id

theorem journal_restoreBandWithin [Scale F] (supply : Supply ε) (bound : Nat) (t : Table F p) :
    ∃ notices : List Notice,
      (restoreBandWithin supply bound t).journal = notices.map Event.noticed := by
  induction bound generalizing t with
  | zero => exact ⟨[], rfl⟩
  | succ bound ih =>
      obtain ⟨first, hfirst⟩ := journal_densityStep t supply
      obtain ⟨rest, hrest⟩ := ih (t.densityStep supply).table
      unfold restoreBandWithin
      dsimp only
      split
      · exact ⟨first ++ rest, by rw [Outcome.journal_after, hfirst, hrest, List.map_append]⟩
      · exact ⟨first, hfirst⟩

/-- Bringing the density back into its band only writes notices. -/
theorem journal_restoreBand [Scale F] (t : Table F p) (supply : Supply ε) :
    ∃ notices : List Notice, (t.restoreBand supply).journal = notices.map Event.noticed := by
  obtain ⟨notices, hnotices⟩ := journal_restoreBandWithin supply levelCount t
  unfold restoreBand
  dsimp only
  split
  · exact ⟨notices ++ [_], by rw [hnotices, List.map_append]; rfl⟩
  · exact ⟨notices, hnotices⟩

/-! ## the walk -/

/-- The calls of the visitor in a walk over a table. -/
def calls [Scale F] (t : Table F p) (memory : σ) (visitor : Visitor F ε K V VS σ ω) :
    List (Call KS VS ω) :=
  (Walk.start t memory).callsWithin visitor (t.arena.slots.size + t.buckets)

/-- A walk from the start has all entries to meet, and steps enough for them. -/
theorem Sound.tours [Scale F] (h : t.Sound) (memory : σ) (visitor : Visitor F ε K V VS σ ω) :
    ∃ events, (Walk.start t memory).Tours visitor [] t.listing (t.calls memory visitor) events
      ((Walk.start t memory).run visitor).1 ((Walk.start t memory).run visitor).2 := by
  have htours := (h.stands_start memory).tours visitor (h.remaining_start_le memory)
  rw [← h.traversal_start memory] at htours
  exact htours

/-- The course of a walk with a given outcome: the calls of the visitor, what
they make of the table and the journal, and the notices written afterwards. -/
structure Course [Scale F] (t : Table F p) (memory : σ) (visitor : Visitor F ε K V VS σ ω)
    (outcome : Outcome F p (Tour σ ω)) (calls : List (Call KS VS ω)) (served : Table F p)
    (events : List (Event K KS V VS)) (notices : List Notice) : Prop where
  /-- Every entry is listed at the start, and once. -/
  all {id : EntryId} {held : Holding KS VS} :
    (id, held) ∈ t.listing ↔ t.holding? id = some held
  once : (t.listing.map (·.1)).Nodup
  /-- The calls follow one another, from the table and the memory at the start. -/
  made : Served visitor t memory calls served outcome.answer.memory events
  /-- They are for the first entries of the listing, each as it was at the start. -/
  found : calls.map (fun call => (call.id, call.found)) <+: t.listing
  /-- No call but the last asks for the end of the walk. -/
  goOn : ∀ call ∈ calls.dropLast, call.verdict = .goOn
  ending : outcome.answer.ending = endingOf calls
  complete : outcome.answer.ending = .completed →
    calls.map (fun call => (call.id, call.found)) = t.listing
  /-- The calls leave what they leave of their entries, and all others. -/
  remains : served.listing = calls.filterMap Call.remains ++ t.listing.drop calls.length
  /-- The table has these entries in the end, maybe on other chains. -/
  final : outcome.table.listing.Perm served.listing
  unmoved : served.size = t.size → outcome.table = served
  journal : outcome.journal = events ++ notices.map .noticed

/-- A walk over, and a density step if it changed the number of entries. -/
theorem walk_eq [Scale F] (t : Table F p) (supply : Supply ε) (memory : σ)
    (visitor : Visitor F ε K V VS σ ω) {last : Walk F p σ} {ending : Ending ω}
    (hrun : (Walk.start t memory).run visitor = (last, ending)) :
    t.walk supply memory visitor =
      if last.table.size = t.size then ⟨⟨ending, last.memory⟩, last.table, last.journal.toList⟩
      else ((last.table.restoreBand supply).map fun _ => ⟨ending, last.memory⟩).after
        last.journal.toList := by
  unfold walk
  rw [hrun]

/-- What a walk does, from its start to the density steps at its end. -/
theorem Sound.exists_course [Scale F] (hsound : t.Sound) (supply : Supply ε) (memory : σ)
    (visitor : Visitor F ε K V VS σ ω) :
    ∃ served events notices, t.Course memory visitor (t.walk supply memory visitor)
      (t.calls memory visitor) served events notices := by
  have hlinked := hsound.wellLinked
  obtain ⟨events, htours⟩ := hsound.tours memory visitor
  obtain ⟨_, hedits, -⟩ := Walk.goes_runWithin visitor
    (t.arena.slots.size + t.buckets) (Walk.start t memory)
  have hlast : ((Walk.start t memory).run visitor).1.table.Sound := hsound.edits hedits
  obtain ⟨⟨last, ending⟩, hrun⟩ : ∃ run, (Walk.start t memory).run visitor = run := ⟨_, rfl⟩
  rw [hrun] at htours hlast
  have hcomplete : ending = .completed →
      (t.calls memory visitor).map (fun call => (call.id, call.found)) = t.listing := fun hending =>
    htours.found.eq_of_length (by rw [List.length_map, htours.complete hending])
  have hjournal : last.journal.toList = events := by
    rw [htours.journal]
    rfl
  rw [t.walk_eq supply memory visitor hrun]
  split
  · refine ⟨last.table, events, [], hlinked.mem_listing_iff, hlinked.nodup_listing,
      htours.served, htours.found, htours.goOn, htours.ending_eq, hcomplete, htours.listing,
      .refl _, fun _ => rfl, ?_⟩
    rw [hjournal, List.map_nil, List.append_nil]
  · next hsize =>
      obtain ⟨notices, hnotices⟩ := journal_restoreBand last.table supply
      have hrestored : (last.table.restoreBand supply).table.Sound :=
        hlast.edits (edits_restoreBand _ supply)
      refine ⟨last.table, events, notices, hlinked.mem_listing_iff,
        hlinked.nodup_listing, htours.served, htours.found, htours.goOn, htours.ending_eq,
        hcomplete, htours.listing, ?_, fun heq => absurd heq hsize, ?_⟩
      · exact hlast.wellLinked.listing_perm hrestored.wellLinked
          (hlast.holding?_restoreBand supply)
      · rw [Outcome.journal_after, Outcome.journal_map, hjournal, hnotices]

/-- **A walk goes over a snapshot**: it visits the entries that were there at the
start, in order and once each, up to the first call that ends it. -/
theorem course_walk [Scale F] (h : t.Reachable) (supply : Supply ε) (memory : σ)
    (visitor : Visitor F ε K V VS σ ω) :
    ∃ calls served events notices,
      t.Course memory visitor (t.walk supply memory visitor) calls served events notices :=
  ⟨t.calls memory visitor, h.sound.exists_course supply memory visitor⟩

/-- A walk that takes every entry of the sample and remembers the values. -/
theorem course_walk_sample :
    sample.Reachable ∧
      ∃ calls served events notices,
        sample.Course ([] : List Nat)
          (fun values => .take fun value => (values ++ value.toList, (.goOn : Verdict Unit)))
          (sample.walk plenty []
            fun values => .take fun value => (values ++ value.toList, (.goOn : Verdict Unit)))
          calls served events notices :=
  ⟨reachable_sample, course_walk reachable_sample plenty [] _⟩

end Table

end ChainedTable
