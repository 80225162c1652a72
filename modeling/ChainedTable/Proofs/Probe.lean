import ChainedTable.Proofs.WellLinked
import ChainedTable.Table.Lookup

/-!
# ChainedTable.Proofs.Probe

What a search of a chain finds.

A probe stops at the first entry of its chain that matches the key, and answers
the link that holds it: the one behind the entries before it (`probe_found`).
If none matches, it answers the link behind the whole chain (`probe_not_found`).
The bound of the search is never what stops it, for no chain is longer than the
arena.
-/

namespace ChainedTable.Table

variable {F ε K KS V VS : Type} {κ : Keeper} {p : Policies ε K KS V VS κ} {t : Table F p}
  {lists : Nat → List EntryId} {key : K}

/-- An entry lives whose stored key compares as equal to a key. -/
def Matches (t : Table F p) (key : K) (id : EntryId) : Prop :=
  ∃ held, t.holding? id = some held ∧ p.hasher.compare (p.keys.view held.key) key = .eq

theorem matches_iff_of_get? {id : EntryId} {entry : Entry KS VS}
    (h : t.arena.get? id = some entry) :
    t.Matches key id ↔ p.hasher.compare (p.keys.view entry.key) key = .eq := by
  simp [Matches, Chains.holding?_of_get? h, Entry.holding]

/-! ## the search -/

section Seek

variable {bucket bound : Nat} {rest : List EntryId} {hash : UInt64}

/-- A search that comes to the end of its chain. -/
theorem seek_not_found (front : List EntryId)
    (h : Chains.Leads t.arena (t.linked (.head bucket)) (front ++ rest) none)
    (hbound : rest.length ≤ bound)
    (hfound : (t.seek key hash bound (.behind bucket front)).found = none) :
    (t.seek key hash bound (.behind bucket front)).link = .behind bucket (front ++ rest) ∧
      ∀ id ∈ rest, ¬ t.Matches key id := by
  induction rest generalizing front bound with
  | nil =>
      have hend : t.linked (.behind bucket front) = none := by
        rw [List.append_nil] at h
        exact Chains.linked_behind h
      cases bound <;> simp [seek, hend]
  | cons id rest ih =>
      obtain ⟨_, hfront, rfl, entry, hget, hrest⟩ := Chains.leads_append.mp h
      cases bound with
      | zero => simp at hbound
      | succ bound =>
          simp only [seek, Chains.linked_behind hfront, hget] at hfound ⊢
          split at hfound
          · simp at hfound
          · next hne =>
              rw [if_neg hne]
              rw [← Link.behind_concat bucket front id] at hfound ⊢
              rw [List.append_cons front id rest] at h
              obtain ⟨hlink, hnone⟩ := ih (front ++ [id]) h (by simpa using hbound) hfound
              refine ⟨hlink.trans (by simp), ?_⟩
              rw [List.forall_mem_cons, matches_iff_of_get? hget]
              exact ⟨hne, hnone⟩

/-- A search that finds an entry. -/
theorem seek_found (front : List EntryId)
    (h : Chains.Leads t.arena (t.linked (.head bucket)) (front ++ rest) none)
    (hbound : rest.length ≤ bound) {id : EntryId} {entry : Entry KS VS}
    (hfound : (t.seek key hash bound (.behind bucket front)).found = some (id, entry)) :
    ∃ before after, rest = before ++ id :: after ∧ t.arena.get? id = some entry ∧
      t.Matches key id ∧ (∀ other ∈ before, ¬ t.Matches key other) ∧
      (t.seek key hash bound (.behind bucket front)).link = .behind bucket (front ++ before) := by
  induction rest generalizing front bound with
  | nil =>
      have hend : t.linked (.behind bucket front) = none := by
        rw [List.append_nil] at h
        exact Chains.linked_behind h
      cases bound <;> simp [seek, hend] at hfound
  | cons first rest ih =>
      obtain ⟨_, hfront, rfl, entry', hget, hrest⟩ := Chains.leads_append.mp h
      cases bound with
      | zero => simp at hbound
      | succ bound =>
          simp only [seek, Chains.linked_behind hfront, hget] at hfound ⊢
          split at hfound
          · next heq =>
              obtain ⟨rfl, rfl⟩ : first = id ∧ entry' = entry := by simpa using hfound
              rw [if_pos heq]
              exact ⟨[], rest, rfl, hget, (matches_iff_of_get? hget).mpr heq, by simp, by simp⟩
          · next hne =>
              rw [if_neg hne]
              rw [← Link.behind_concat bucket front first] at hfound ⊢
              rw [List.append_cons front first rest] at h
              obtain ⟨before, after, rfl, hgot, hmatches, hnone, hlink⟩ :=
                ih (front ++ [first]) h (by simpa using hbound) hfound
              refine ⟨first :: before, after, rfl, hgot, hmatches, ?_, hlink.trans (by simp)⟩
              rw [List.forall_mem_cons, matches_iff_of_get? hget]
              exact ⟨hne, hnone⟩

end Seek

/-! ## the probe -/

/-- The bucket that a key is looked up in. -/
def home (t : Table F p) (key : K) : Nat := t.bucketOf (p.hasher.hash key)

theorem home_lt (h : t.toChains.Spells lists) (key : K) : t.home key < t.heads.size :=
  h.bucketOf_lt _

/-- **A key that is not found** matches no entry of its chain, and the probe
answers the link behind the chain. -/
theorem probe_not_found (h : t.toChains.Spells lists) (hfound : (t.probe key).found = none) :
    (t.probe key).link = .behind (t.home key) (lists (t.home key)) ∧
      ∀ id ∈ lists (t.home key), ¬ t.Matches key id :=
  seek_not_found [] (h.leads (home_lt h key)) (h.length_le (home_lt h key)) hfound

/-- **A key that is found** matches the entry, and no entry before it. -/
theorem probe_found (h : t.toChains.Spells lists) {id : EntryId} {entry : Entry KS VS}
    (hfound : (t.probe key).found = some (id, entry)) :
    ∃ front rest, lists (t.home key) = front ++ id :: rest ∧ t.arena.get? id = some entry ∧
      t.Matches key id ∧ (∀ other ∈ front, ¬ t.Matches key other) ∧
      (t.probe key).link = .behind (t.home key) front :=
  seek_found [] (h.leads (home_lt h key)) (h.length_le (home_lt h key)) hfound

end ChainedTable.Table
