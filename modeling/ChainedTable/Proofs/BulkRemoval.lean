import ChainedTable.Proofs.Descent
import ChainedTable.Proofs.Distinct

/-!
# ChainedTable.Proofs.BulkRemoval

Removing many keys: one by one, or in a walk.

Keys that are taken or erased one by one are followed by a density step each.  In
a walk the steps are put off to the end.  The two ways lead to the same table, as
far as can be told from the outside:

1. the map of the table is without the classes of the keys, in whatever order
   their entries were unlinked (`Represents.without`);
2. the level is the one that its entries come down to, in whatever order density
   steps were taken (`Gauge.Descended.level_eq`).
-/

namespace ChainedTable

variable {F ε K KS V VS σ ω : Type} {κ : Keeper} {p : Policies ε K KS V VS κ}

/-- A request to take or to erase a key. -/
def Request.IsRemovalOf (request : Request F ε K V VS σ ω) (key : K) : Prop :=
  request = .take key ∨ request = .erase key

theorem Request.IsRemovalOf.removes {request : Request F ε K V VS σ ω} {key : K}
    (h : request.IsRemovalOf key) : request.Removes := by
  rcases h with rfl | rfl <;> trivial

theorem Request.removes_of_forall₂ {keys : List K}
    {requests : List (Supply ε × Request F ε K V VS σ ω)}
    (h : List.Forall₂ (fun key call => call.2.IsRemovalOf key) keys requests) :
    ∀ call ∈ requests, call.2.Removes := by
  induction h with
  | nil => simp
  | cons hremoval _ ih => exact List.forall_mem_cons.mpr ⟨hremoval.removes, ih⟩

/-- A stored key is one of some keys. -/
def Policies.Names (p : Policies ε K KS V VS κ) (keys : List K) (stored : KS) : Prop :=
  ∃ key ∈ keys, p.hasher.compare (p.keys.view stored) key = .eq

instance (keys : List K) (stored : KS) : Decidable (p.Names keys stored) :=
  inferInstanceAs (Decidable (∃ key ∈ keys, p.hasher.compare (p.keys.view stored) key = .eq))

/-- Calls of a visitor that remove the entries of some keys, and leave all others
as they were found. -/
def Policies.Clears (p : Policies ε K KS V VS κ) (keys : List K) (calls : List (Call KS VS ω)) :
    Prop :=
  ∀ call ∈ calls, call.left = if p.Names keys call.found.key then none else some call.found.value

/-! ## the map -/

namespace KeyMap

variable {hasher : HashPolicy K} {h : hasher.Lawful} {map : KeyMap VS h} {keys : List K}

/-- A map without the classes of some keys. -/
noncomputable def without (map : KeyMap VS h) (keys : List K) : KeyMap VS h :=
  keys.foldl (fun map key => map.erase (h.classOf key)) map

theorem lookup_without_of_ne {cls : h.Class} (hne : ∀ key ∈ keys, cls ≠ h.classOf key) :
    (map.without keys).lookup cls = map.lookup cls := by
  induction keys generalizing map with
  | nil => rfl
  | cons key keys ih =>
      obtain ⟨hfirst, hrest⟩ := List.forall_mem_cons.mp hne
      exact (ih hrest).trans (Finmap.lookup_erase_ne hfirst)

theorem mem_without {cls : h.Class} :
    cls ∈ map.without keys ↔ cls ∈ map ∧ ∀ key ∈ keys, cls ≠ h.classOf key := by
  induction keys generalizing map with
  | nil => simp [without]
  | cons key keys ih =>
      change cls ∈ KeyMap.without (map.erase (h.classOf key)) keys ↔ _
      rw [ih, Finmap.mem_erase, List.forall_mem_cons]
      tauto

end KeyMap

namespace Table

variable {t t' : Table F p} {h : p.hasher.Lawful} {map : KeyMap VS h} {keys : List K}

/-- A table without the entries of some keys has the map without their classes. -/
theorem Represents.without (hrep : Represents h t map) (hsound : t'.Sound)
    (hkept : ∀ {id held}, t'.holding? id = some held ↔
      t.holding? id = some held ∧ ¬p.Names keys held.key) :
    Represents h t' (map.without keys) where
  sound := hsound
  hash_eq hheld := hrep.hash_eq (hkept.mp hheld).1
  lookup_eq hheld := by
    obtain ⟨hheld, hnames⟩ := hkept.mp hheld
    rw [KeyMap.lookup_without_of_ne fun key hkey heq =>
      hnames ⟨key, hkey, h.classOf_eq_iff.mp heq⟩]
    exact hrep.lookup_eq hheld
  unique hheld hheld' := hrep.unique (hkept.mp hheld).1 (hkept.mp hheld').1
  cover hmem := by
    obtain ⟨hold, hne⟩ := KeyMap.mem_without.mp hmem
    obtain ⟨id, held, hheld, rfl⟩ := hrep.cover hold
    refine ⟨id, held, hkept.mpr ⟨hheld, ?_⟩, rfl⟩
    rintro ⟨key, hkey, heq⟩
    exact hne key hkey (h.classOf_eq_iff.mpr heq)

/-- Removing keys one by one leaves the map without their classes. -/
theorem Represents.without_runAll [Scale F] (hrep : Represents h t map)
    {requests : List (Supply ε × Request F ε K V VS σ ω)}
    (hremovals : List.Forall₂ (fun key call => call.2.IsRemovalOf key) keys requests) :
    Represents h (t.runAll requests).table (map.without keys) := by
  induction hremovals generalizing t map with
  | nil => exact hrep
  | @cons key call keys requests hremoval _ ih =>
      obtain ⟨supply, request⟩ := call
      refine ih ?_
      rcases hremoval with rfl | rfl
      · obtain ⟨_, -, -, hafter⟩ := hrep.follows_take supply key
        exact hafter
      · obtain ⟨_, -, -, hafter⟩ := hrep.follows_erase supply key
        exact hafter

/-! ## a walk -/

/-- What a walk to the end leaves, if its calls remove the entries of some keys. -/
theorem Course.mem_listing_iff [Scale F] {memory : σ} {visitor : Visitor F ε K V VS σ ω}
    {outcome : Outcome F p (Tour σ ω)} {calls : List (Call KS VS ω)} {served : Table F p}
    {events : List (Event K KS V VS)} {notices : List Notice}
    (hcourse : t.Course memory visitor outcome calls served events notices)
    (hcompleted : outcome.answer.ending = .completed) (hclears : p.Clears keys calls)
    {id : EntryId} {held : Holding KS VS} :
    (id, held) ∈ outcome.table.listing ↔ t.holding? id = some held ∧ ¬p.Names keys held.key := by
  have hcomplete := hcourse.complete hcompleted
  have hremains := hcourse.remains
  have hlength := congrArg List.length hcomplete
  rw [List.length_map] at hlength
  rw [hlength, List.drop_length, List.append_nil] at hremains
  rw [hcourse.final.mem_iff, hremains, ← hcourse.all, ← hcomplete, List.mem_filterMap, List.mem_map]
  constructor
  · rintro ⟨call, hcall, hleft⟩
    rw [Call.remains, hclears call hcall] at hleft
    split at hleft
    · contradiction
    · next hnames =>
        obtain ⟨rfl, rfl⟩ := Prod.mk.inj (Option.some.inj hleft)
        exact ⟨⟨call, hcall, rfl⟩, hnames⟩
  · rintro ⟨⟨call, hcall, heq⟩, hnames⟩
    obtain ⟨rfl, rfl⟩ := Prod.mk.inj heq
    refine ⟨call, hcall, ?_⟩
    rw [Call.remains, hclears call hcall, if_neg hnames]
    rfl

/-- A visitor that removes the entries of some keys wherever it comes to them. -/
theorem Served.clears [Scale F] {visitor : Visitor F ε K V VS σ ω} {last : Table F p}
    {memory memory' : σ} {calls : List (Call KS VS ω)} {events : List (Event K KS V VS)}
    (h : Served visitor t memory calls last memory' events)
    (hvisitor : ∀ memory id (t : Table F p) entry, (visitor memory).left id t entry =
      if p.Names keys entry.key then none else some entry.value) : p.Clears keys calls := by
  induction h with
  | nil => simp [Policies.Clears]
  | cons _ _ _ _ ih => exact List.forall_mem_cons.mpr ⟨hvisitor .., ih⟩

/-! ## the two ways -/

/-- Tables that answer alike, and have the same size in the same number of
buckets. -/
structure Agrees (t t' : Table F p) : Prop where
  contains (key : K) : (t.contains key).answer = (t'.contains key).answer
  get? (key : K) : (t.get? key).answer = (t'.get? key).answer
  size : t.size = t'.size
  level : t.level = t'.level
  buckets : t.buckets = t'.buckets

theorem answer_contains (t : Table F p) (key : K) :
    (t.contains key).answer = (t.mapped key).isSome := by
  change (t.probe key).found.isSome = _
  unfold mapped
  cases (t.probe key).found <;> rfl

theorem answer_get? (t : Table F p) (key : K) :
    (t.get? key).answer = (t.mapped key).join.map p.values.view := by
  change ((t.probe key).found.bind fun found => found.2.value.map p.values.view) = _
  unfold mapped
  cases (t.probe key).found <;> rfl

/-- Tables with one map and one level agree. -/
theorem Represents.agrees (hrep : Represents h t map) (hrep' : Represents h t' map)
    (hlevel : t.level = t'.level) : t.Agrees t' := by
  have hmapped (key : K) : t.mapped key = t'.mapped key := by
    rw [hrep.mapped_eq, hrep'.mapped_eq]
  have hbuckets : t.buckets = t.level.buckets := hrep.sound.buckets
  have hbuckets' : t'.buckets = t'.level.buckets := hrep'.sound.buckets
  refine ⟨fun key => ?_, fun key => ?_, hrep.size_eq.trans hrep'.size_eq.symm, hlevel, ?_⟩
  · rw [answer_contains, answer_contains, hmapped]
  · rw [answer_get?, answer_get?, hmapped]
  · rw [hbuckets, hbuckets', hlevel]

/-- **Removing in bulk**: a walk that removes the entries of some keys agrees with
requests that remove these keys, in any order. -/
theorem walk_agrees_runAll [Scale F] (hexact : Scale.Exact F) (hlawful : p.hasher.Lawful)
    (hkeys : p.FaithfulKeys) (hreachable : t.Reachable) (hband : t.band = .default)
    (hbalanced : t.Balanced) {supply : Supply ε} {memory : σ} {visitor : Visitor F ε K V VS σ ω}
    (hcompleted : (t.walk supply memory visitor).answer.ending = .completed)
    (hclears : p.Clears keys (t.calls memory visitor))
    (hwalk : NothingRefused (t.walk supply memory visitor).journal)
    {requests : List (Supply ε × Request F ε K V VS σ ω)}
    (hremovals : List.Forall₂ (fun key call => call.2.IsRemovalOf key) keys requests)
    (hrun : NothingRefused (t.runAll requests).journal) :
    (t.walk supply memory visitor).table.Agrees (t.runAll requests).table := by
  have hsound := hreachable.sound
  obtain ⟨map, hrep⟩ := hreachable.represents hlawful hkeys
  let request : Request F ε K V VS σ ω := .walk memory visitor
  have hwalked : (t.walk supply memory visitor).table.Sound := hsound.run supply request
  obtain ⟨served, events, notices, hcourse⟩ := hsound.exists_course supply memory visitor
  have hmap : Represents hlawful (t.walk supply memory visitor).table (map.without keys) := by
    refine hrep.without hwalked fun {id held} => ?_
    rw [← hwalked.wellLinked.mem_listing_iff]
    exact hcourse.mem_listing_iff hcompleted hclears
  have hmap' := hrep.without_runAll hremovals
  -- Both ways the level is the one that the entries left come down to.
  have hdescended := hsound.descended hband hbalanced
  have hrest : request.CanRest := trivial
  have hmoves := hsound.moves_ample request hwalk
  have hsize : (request.run supply t).table.gauge.size ≤ t.gauge.size := by
    rcases hmoves with heq | ⟨size, hlt, heq⟩
    · rw [heq]
    · rw [heq, Gauge.size_settle]
      exact hlt.le
  have hlevel : (t.walk supply memory visitor).table.gauge.Descended t.level :=
    hdescended.moves hexact hrest hmoves hsize
  have hlevel' := hsound.descended_runAll hexact hdescended
    ⟨Request.removes_of_forall₂ hremovals, hrun⟩
  exact hmap.agrees hmap' (hlevel'.level_eq hlevel (hmap.size_eq.trans hmap'.size_eq.symm))

theorem lawful_spread : spread.hasher.Lawful := (HashPolicy.exact_digesting _).lawful

theorem faithfulKeys_spread : spread.FaithfulKeys := by
  intro copies source stored hacquire
  obtain rfl := Except.ok.inj hacquire
  exact lawful_spread.refl _

/-- A table that grew once, for numbers up to 73. -/
def grown : Table Rat spread :=
  let requests : List (Supply Unit × Request Rat Unit Nat Nat Nat Unit Unit) :=
    (List.range 74).map fun key => (plenty, .insert key none)
  ((Table.empty .default).runAll requests).table

/-- A visitor that erases the entries of some numbers. -/
def erasing (keys : List Nat) : Visitor Rat Unit Nat Nat Nat Unit Unit := fun _ =>
  .key fun key => if key ∈ keys then .erase ((), .goOn) else .leave ((), .goOn)

/-- All numbers but the last nine are erased, in a walk and one by one, from the
greatest on. -/
theorem walk_agrees_runAll_grown :
    let keys := (List.range 65).reverse
    let requests : List (Supply Unit × Request Rat Unit Nat Nat Nat Unit Unit) :=
      keys.map fun key => (plenty, .erase key)
    (grown.walk plenty () (erasing keys)).table.Agrees (grown.runAll requests).table := by
  intro keys requests
  have hreachable : grown.Reachable :=
    Reachable.runAll (reachable_of_withBand (show withBand plenty .default = .ok _ from rfl)) _
  have hgauge : grown.gauge = ⟨74, ⟨1, by decide⟩, .default, .grew 37 79⟩ := by
    rw [Gauge.ext_iff]
    decide +kernel
  simp only [gauge, Gauge.mk.injEq] at hgauge
  obtain ⟨hsize, hlevel, hband, -⟩ := hgauge
  have hbalanced : grown.Balanced := by
    rw [hreachable.sound.balanced_iff, hsize, hlevel]
    decide +kernel
  obtain ⟨served, events, notices, hcourse⟩ :=
    hreachable.sound.exists_course plenty () (erasing keys)
  have hclears : spread.Clears keys (grown.calls () (erasing keys)) := by
    refine hcourse.made.clears fun memory id t entry => ?_
    have hnames : spread.Names keys entry.key ↔ entry.key ∈ keys := by
      refine ⟨fun ⟨key, hkey, heq⟩ => ?_, fun hkey => ⟨_, hkey, lawful_spread.refl _⟩⟩
      rwa [(HashPolicy.exact_digesting _ entry.key key).mp heq]
    change (if entry.key ∈ keys then _ else _ : Visit Rat Unit Nat Nat Nat _).left id t entry = _
    by_cases hkey : entry.key ∈ keys
    · rw [if_pos hkey, if_pos (hnames.mpr hkey)]
      rfl
    · rw [if_neg hkey, if_neg (hnames.not.mpr hkey)]
      rfl
  have hcompleted : (grown.walk plenty () (erasing keys)).answer.ending = .completed ∧
      NothingRefused (grown.walk plenty () (erasing keys)).journal := by
    decide +kernel
  have hremovals : List.Forall₂ (fun key call => call.2.IsRemovalOf key) keys requests :=
    List.forall₂_map_right_iff.mpr (List.forall₂_same.mpr fun _ _ => .inr rfl)
  exact walk_agrees_runAll Scale.exact_rat lawful_spread faithfulKeys_spread hreachable hband
    hbalanced hcompleted.1 hclears hcompleted.2 hremovals (by decide +kernel)

end Table

end ChainedTable
