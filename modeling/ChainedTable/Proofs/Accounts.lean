import ChainedTable.Proofs.Reachable
import Mathlib.Algebra.GroupWithZero.Nat
import Mathlib.Algebra.Order.Group.Multiset

/-!
# ChainedTable.Proofs.Accounts

Where stored keys and values come from, and where they go.

An item enters a table when a policy acquires it or the caller supplies it.  It
leaves when it is released, handed over or overwritten.  The journal tells of
both, and between them an item is the key or the value of one entry.  So two sums
are equal at any time, item by item:

1. what was there and what has entered;
2. what is there and what has left.

`Balances` says so of any part of a run.  It is proved of edits, and the sums of
edits one after the other add up.
-/

namespace ChainedTable

variable {F ε K KS V VS σ ω View Stored : Type} {κ : Keeper} {p : Policies ε K KS V VS κ}

/-! ## what entries hold, counted -/

namespace Chains

variable {chains chains' : Chains κ KS VS}

/-- What the entries hold, in no order. -/
def holdings (chains : Chains κ KS VS) : Multiset (Holding KS VS) :=
  (chains.arena.entries.map fun (_, entry) => entry.holding : List (Holding KS VS))

/-- The entries with their ids and what they hold, in the order of the slots. -/
def held (chains : Chains κ KS VS) : List (EntryId × Holding KS VS) :=
  chains.arena.entries.map fun (id, entry) => (id, entry.holding)

theorem holdings_eq (chains : Chains κ KS VS) :
    chains.holdings = (chains.held.map (·.2) : List (Holding KS VS)) := by
  rw [holdings, held, List.map_map]
  rfl

theorem nodup_held (chains : Chains κ KS VS) : chains.held.Nodup := by
  have hids := Arena.nodup_entries chains.arena
  refine List.Nodup.of_map (·.1) ?_
  rw [held, List.map_map]
  exact hids

theorem mem_held_iff {id : EntryId} {held : Holding KS VS} :
    (id, held) ∈ chains.held ↔ chains.holding? id = some held := by
  rw [Chains.held, List.mem_map, holding?_eq_some_iff]
  constructor
  · rintro ⟨⟨other, entry⟩, hmem, heq⟩
    obtain ⟨rfl, rfl⟩ := Prod.mk.inj heq
    exact ⟨entry, Arena.mem_entries_iff.mp hmem, rfl⟩
  · rintro ⟨entry, hget, rfl⟩
    exact ⟨(id, entry), Arena.mem_entries_iff.mpr hget, rfl⟩

theorem holdings_congr (hsame : ∀ id, chains'.holding? id = chains.holding? id) :
    chains'.holdings = chains.holdings := by
  have hperm : chains'.held.Perm chains.held := by
    refine (List.perm_ext_iff_of_nodup chains'.nodup_held chains.nodup_held).mpr fun listed => ?_
    obtain ⟨id, held⟩ := listed
    rw [mem_held_iff, mem_held_iff, hsame]
  rw [holdings_eq, holdings_eq]
  exact Multiset.coe_eq_coe.mpr (hperm.map _)

/-- One entry more or less, and the others as they are. -/
theorem holdings_cons {id : EntryId} {held : Holding KS VS}
    (hheld : chains.holding? id = some held)
    (hrest : ∀ other, chains'.holding? other = if id = other then none else chains.holding? other) :
    chains.holdings = held ::ₘ chains'.holdings := by
  have hnone : (id, held) ∉ chains'.held := by
    rw [mem_held_iff, hrest, if_pos rfl]
    nofun
  have hperm : chains.held.Perm ((id, held) :: chains'.held) := by
    refine (List.perm_ext_iff_of_nodup chains.nodup_held
      (List.nodup_cons.mpr ⟨hnone, chains'.nodup_held⟩)).mpr fun listed => ?_
    obtain ⟨other, held'⟩ := listed
    rw [List.mem_cons, mem_held_iff, mem_held_iff, hrest]
    split
    · next heq =>
        subst heq
        simp [hheld, eq_comm]
    · next hne => simp [Ne.symm hne]
  rw [holdings_eq, holdings_eq]
  exact Multiset.coe_eq_coe.mpr (hperm.map _)

theorem holdings_eq_zero (hnone : ∀ id, chains.holding? id = none) : chains.holdings = 0 := by
  have hnil : chains.held = [] := by
    refine List.eq_nil_iff_forall_not_mem.mpr fun (id, held) hmem => ?_
    rw [mem_held_iff, hnone] at hmem
    contradiction
  rw [holdings_eq, hnil]
  rfl

end Chains

/-! ## what the journal tells, counted -/

namespace Handling

/-- The item, if it was acquired. -/
def acquired? : Handling View Stored → Option Stored
  | acquired stored => some stored
  | _ => none

/-- The item, if it was released. -/
def released? : Handling View Stored → Option Stored
  | released stored => some stored
  | _ => none

/-- The item, if it entered the table. -/
def entering? : Handling View Stored → Option Stored
  | acquired stored | supplied stored => some stored
  | _ => none

/-- The item, if it left the table. -/
def leaving? : Handling View Stored → Option Stored
  | released stored | handedOver stored | overwritten stored => some stored
  | _ => none

end Handling

/-- What happened to a key, if the event tells that. -/
def Event.key? : Event K KS V VS → Option (Handling K KS)
  | key what => some what
  | _ => none

/-- What happened to a value, if the event tells that. -/
def Event.value? : Event K KS V VS → Option (Handling V VS)
  | value what => some what
  | _ => none

/-- The keys to which something of a kind happened. -/
def keysWith (pick : Handling K KS → Option KS) (events : List (Event K KS V VS)) :
    Multiset KS :=
  (events.filterMap fun event => event.key?.bind pick : List KS)

/-- The values to which something of a kind happened. -/
def valuesWith (pick : Handling V VS → Option VS) (events : List (Event K KS V VS)) :
    Multiset VS :=
  (events.filterMap fun event => event.value?.bind pick : List VS)

section Counting

variable (onKey : Handling K KS → Option KS) (onValue : Handling V VS → Option VS)
  (events rest : List (Event K KS V VS)) (event : Event K KS V VS)

@[simp] theorem keysWith_append :
    keysWith onKey (events ++ rest) = keysWith onKey events + keysWith onKey rest := by
  simp [keysWith]

@[simp] theorem valuesWith_append :
    valuesWith onValue (events ++ rest) = valuesWith onValue events + valuesWith onValue rest := by
  simp [valuesWith]

theorem keysWith_cons :
    keysWith onKey (event :: events) = keysWith onKey [event] + keysWith onKey events :=
  keysWith_append onKey [event] events

theorem valuesWith_cons :
    valuesWith onValue (event :: events) = valuesWith onValue [event] + valuesWith onValue events :=
  valuesWith_append onValue [event] events

end Counting

/-- The one value there is, or none. -/
def countOf (value : Option VS) : Multiset VS := (value.toList : Multiset VS)

section EachValue

variable {happens : VS → Handling V VS}

/-- What is told of a value concerns no key. -/
theorem keysWith_eachValue (pick : Handling K KS → Option KS) (value : Option VS) :
    keysWith pick (Policies.eachValue happens value : List (Event K KS V VS)) = 0 := by
  cases value <;> rfl

theorem valuesWith_eachValue (pick : Handling V VS → Option VS) (value : Option VS) :
    valuesWith pick (Policies.eachValue happens value : List (Event K KS V VS)) =
      countOf (value.bind fun stored => pick (happens stored)) := by
  cases value with
  | none => rfl
  | some stored =>
      unfold Policies.eachValue valuesWith
      cases hpick : pick (happens stored) <;> simp [Event.value?, countOf, hpick]

end EachValue

@[simp] theorem countOf_none : countOf (none : Option VS) = 0 := rfl

theorem filterMap_value_cons (held : Holding KS VS) (rest : Multiset (Holding KS VS)) :
    (held ::ₘ rest).filterMap (·.value) = countOf held.value + rest.filterMap (·.value) := by
  cases hvalue : held.value with
  | none =>
      rw [Multiset.filterMap_cons_none held rest hvalue]
      exact (Multiset.zero_add _).symm
  | some value =>
      rw [Multiset.filterMap_cons_some _ held rest hvalue]
      exact (Multiset.singleton_add value _).symm

/-! ## balance -/

/-- What was there and has entered is what is there and has left. -/
structure Balances (before : Multiset (Holding KS VS)) (events : List (Event K KS V VS))
    (after : Multiset (Holding KS VS)) : Prop where
  keys : before.map (·.key) + keysWith Handling.acquired? events =
    after.map (·.key) + keysWith Handling.released? events
  values : before.filterMap (·.value) + valuesWith Handling.entering? events =
    after.filterMap (·.value) + valuesWith Handling.leaving? events

/-- Sums that are equal for two parts are equal for the whole. -/
theorem add_add_of_add_eq {M : Type} [AddCommMonoid M] {a b c x y x' y' : M}
    (h : a + x = b + y) (h' : b + x' = c + y') : a + (x + x') = c + (y + y') :=
  calc a + (x + x') = (a + x) + x' := (add_assoc a x x').symm
    _ = (b + x') + y := by rw [h, add_right_comm]
    _ = c + (y + y') := by rw [h', add_assoc, add_comm y' y]

namespace Balances

variable {first second third : Multiset (Holding KS VS)} {events rest : List (Event K KS V VS)}

theorem nil (first : Multiset (Holding KS VS)) :
    Balances first ([] : List (Event K KS V VS)) first := ⟨rfl, rfl⟩

theorem append (h : Balances first events second) (h' : Balances second rest third) :
    Balances first (events ++ rest) third where
  keys := by
    rw [keysWith_append, keysWith_append]
    exact add_add_of_add_eq h.keys h'.keys
  values := by
    rw [valuesWith_append, valuesWith_append]
    exact add_add_of_add_eq h.values h'.values

/-- An event in which no item comes or goes. -/
theorem remark {event : Event K KS V VS} (h : event.IsRemark) :
    Balances first [event] first := by
  cases event with
  | hashed | compared | noticed => exact ⟨rfl, rfl⟩
  | key what =>
      cases what with
      | denied => exact ⟨rfl, rfl⟩
      | _ => exact h.elim
  | value what =>
      cases what with
      | denied => exact ⟨rfl, rfl⟩
      | _ => exact h.elim

/-- An entry that leaves, with what is told of its value. -/
theorem leave (held : Holding KS VS) (others : Multiset (Holding KS VS))
    {happens : VS → Handling V VS} (hentering : ∀ stored, (happens stored).entering? = none)
    (hleaving : ∀ stored, (happens stored).leaving? = some stored) :
    Balances (held ::ₘ others) (.key (.released held.key) ::
      Policies.eachValue happens held.value : List (Event K KS V VS)) others where
  keys := by
    rw [keysWith_cons, keysWith_cons Handling.released?, keysWith_eachValue, keysWith_eachValue,
      Multiset.map_cons]
    change held.key ::ₘ others.map (·.key) + 0 = others.map (·.key) + ({held.key} + 0)
    rw [add_zero, add_zero, add_comm, Multiset.singleton_add]
  values := by
    rw [valuesWith_cons, valuesWith_cons Handling.leaving?, filterMap_value_cons]
    simp only [valuesWith_eachValue, hentering, hleaving, Option.bind_fun_some,
      Option.bind_fun_none, countOf_none]
    change _ + (0 + 0) = _ + (0 + countOf held.value)
    rw [zero_add, zero_add, add_zero, add_comm]

/-- An entry that comes. -/
theorem link (held : Holding KS VS) (others : Multiset (Holding KS VS)) :
    Balances others (.key (.acquired held.key) :: Policies.eachValue .acquired held.value :
      List (Event K KS V VS)) (held ::ₘ others) where
  keys := by
    rw [keysWith_cons, keysWith_cons Handling.released?, keysWith_eachValue, keysWith_eachValue,
      Multiset.map_cons]
    change others.map (·.key) + ({held.key} + 0) = held.key ::ₘ others.map (·.key) + 0
    rw [add_zero, add_zero, add_comm, Multiset.singleton_add]
  values := by
    rw [valuesWith_cons, valuesWith_cons Handling.leaving?, filterMap_value_cons]
    simp only [valuesWith_eachValue, Handling.entering?, Handling.leaving?, Option.bind_fun_some,
      Option.bind_fun_none, countOf_none]
    change _ + (0 + countOf held.value) = _ + (0 + 0)
    rw [zero_add, zero_add, add_zero, add_comm]

/-- Notices concern no item. -/
theorem notices (first : Multiset (Holding KS VS)) (notices : List Notice) :
    Balances first (notices.map .noticed : List (Event K KS V VS)) first := by
  induction notices with
  | nil => exact nil first
  | cons notice notices ih =>
      have hfirst : Balances first ([.noticed notice] : List (Event K KS V VS)) first :=
        remark trivial
      exact hfirst.append ih

end Balances

namespace Table

variable {t t' : Table F p}

theorem holdings_clear (t : Table F p) : t.clear.table.holdings = 0 := by
  refine Chains.holdings_eq_zero fun id => ?_
  rw [Chains.holding?, clear, Chains.clear, Arena.get?_clear]
  rfl

namespace Sound

theorem holdings_linkNew (h : t.Sound) {granted : Bool} {arena : Arena κ (Entry KS VS)}
    (hroom : t.arena.reserve granted = some arena) (key : K) (storedKey : KS)
    (value : Option VS) :
    (t.linkNew arena key storedKey value).holdings =
      ⟨storedKey, value, p.hasher.hash key⟩ ::ₘ t.holdings := by
  have hnew := h.holding?_linkNew hroom key storedKey value
  refine Chains.holdings_cons (by rw [hnew, if_pos rfl]) fun other => ?_
  rw [hnew]
  by_cases heq : t.arena.nextId = other
  · rw [if_pos heq, ← heq, h.holding?_nextId]
  · rw [if_neg heq, if_neg (Ne.symm heq)]

theorem holdings_unlink {id : EntryId} {entry : Entry KS VS}
    (h : t.arena.get? id = some entry) (link : Link) :
    t.holdings = entry.holding ::ₘ
      ({ t with toChains := t.toChains.unlink link id entry } : Table F p).holdings :=
  Chains.holdings_cons (Chains.holding?_of_get? h) (Chains.holding?_unlink link)

end Sound

end Table

end ChainedTable
