import ChainedTable.Proofs.Trims

/-!
# ChainedTable.Proofs.Effects

What a request does to a table, case by case.

`Edits` lists what operations are made of, but not how much of it there is.
`Request.Effect` says that. A request for a key makes at most one entry or
removes at most one, and takes one density step if it does. A walk takes away
what it likes, and the density is brought back afterwards. What is said of
tables from one request to the next is proved of these cases (`Sound.effect_run`).
-/

namespace ChainedTable

variable {F ε K KS V VS σ ω : Type} {κ : Keeper} {p : Policies ε K KS V VS κ}

namespace Table.Sound

variable {t t' : Table F p}

/-! ## the number of entries -/

theorem card_holdings (h : t.Sound) : t.holdings.card = t.size := by
  simp [Chains.holdings, Chains.size, h.wellLinked.valid.length_entries]

theorem size_eq_of_holding? (h : t.Sound) (h' : t'.Sound)
    (hsame : ∀ id, t'.holding? id = t.holding? id) : t'.size = t.size := by
  rw [← h.card_holdings, ← h'.card_holdings, Chains.holdings_congr hsame]

theorem size_reserve (h : t.Sound) {granted : Bool} {arena : Arena κ (Entry KS VS)}
    (hroom : t.arena.reserve granted = some arena) : ({ t with arena } : Table F p).size = t.size :=
  h.size_eq_of_holding? (h.reserve hroom) fun id =>
    Chains.holding?_congr (Arena.get?_reserve hroom id)

theorem size_linkNew (h : t.Sound) {granted : Bool} {arena : Arena κ (Entry KS VS)}
    (hroom : t.arena.reserve granted = some arena) {key : K}
    (hfound : (t.probe key).found = none) (storedKey : KS) (value : Option VS) :
    (t.linkNew arena key storedKey value).size = t.size + 1 := by
  rw [← (h.linkNew hroom hfound storedKey value).card_holdings, ← h.card_holdings,
    h.holdings_linkNew hroom, Multiset.card_cons]

theorem size_unlink (h : t.Sound) {link : Link} {id : EntryId} {entry : Entry KS VS}
    (hlink : t.linked link = some id) (hget : t.arena.get? id = some entry) :
    t.size = (t.toChains.unlink link id entry).size + 1 := by
  have hcard := congrArg Multiset.card (holdings_unlink hget link)
  rw [Multiset.card_cons, h.card_holdings, (h.unlink hlink hget).card_holdings] at hcard
  exact hcard

theorem size_clear (h : t.Sound) : t.clear.table.size = 0 := by
  rw [← h.clear.card_holdings, holdings_clear, Multiset.card_zero]

end Table.Sound

/-! ## effects -/

namespace Request

/-- A request that makes an entry for a key that has none. -/
def Makes : Request F ε K V VS σ ω → Prop
  | insert .. | openSlot .. => True
  | contains _ | lookUp _ | take _ | erase _ | clear | densityStep | walk .. => False

/-- A request that removes the entry of a key. -/
def Removes : Request F ε K V VS σ ω → Prop
  | take _ | erase _ => True
  | insert .. | openSlot .. | contains _ | lookUp _ | clear | densityStep | walk .. => False

/-- A request that can leave all entries in place, and take no density step. -/
def CanRest : Request F ε K V VS σ ω → Prop
  | clear | densityStep => False
  | insert .. | openSlot .. | contains _ | lookUp _ | take _ | erase _ | walk .. => True

theorem Makes.canRest {request : Request F ε K V VS σ ω} (h : request.Makes) :
    request.CanRest := by
  cases request with
  | insert | openSlot => exact trivial
  | contains | lookUp | take | erase | clear | densityStep | walk => exact h.elim

theorem Makes.not_removes {request : Request F ε K V VS σ ω} (h : request.Makes) :
    ¬request.Removes := by
  cases request with
  | insert | openSlot => exact not_false
  | contains | lookUp | take | erase | clear | densityStep | walk => exact h.elim

theorem Removes.canRest {request : Request F ε K V VS σ ω} (h : request.Removes) :
    request.CanRest := by
  cases request with
  | take | erase => exact trivial
  | insert | openSlot | contains | lookUp | clear | densityStep | walk => exact h.elim

/-- What a request can do to a table. -/
inductive Effect [Scale F] (supply : Supply ε) (t : Table F p) :
    Request F ε K V VS σ ω → Table F p → Prop where
  /-- Values change at most. -/
  | rests {request : Request F ε K V VS σ ω} {t' : Table F p} : request.CanRest →
    t.Trims t' → t'.size = t.size → Effect supply t request t'
  /-- A key that was not found gets an entry, and a density step follows. Only
  then the value may change once more. -/
  | comes {request : Request F ε K V VS σ ω} {granted : Bool} {arena : Arena κ (Entry KS VS)}
    {copies : ε} {key : K} {storedKey : KS} {value : Option VS} {t' : Table F p} : request.Makes →
    (t.probe key).found = none → t.arena.reserve granted = some arena →
    p.keys.acquire copies key = .ok storedKey →
    ((t.linkNew arena key storedKey value).densityStep supply).table.Trims t' →
    t'.size = ((t.linkNew arena key storedKey value).densityStep supply).table.size →
      Effect supply t request t'
  /-- An entry goes, and a density step follows. -/
  | leaves {request : Request F ε K V VS σ ω} {rest : Table F p} : request.Removes →
    t.Trims rest → rest.Sound → t.size = rest.size + 1 →
      Effect supply t request (rest.densityStep supply).table
  | clears : Effect supply t clear t.clear.table
  | steps : Effect supply t densityStep (t.densityStep supply).table
  /-- Entries go under a walk, and the density is brought back into its band. -/
  | walks {memory : σ} {visitor : Visitor F ε K V VS σ ω} {rest : Table F p} :
    t.Trims rest → rest.Sound → rest.size < t.size →
      Effect supply t (walk memory visitor) (rest.restoreBand supply).table

end Request

namespace Table

open Request

variable {t t' : Table F p}

theorem trims_reserve {granted : Bool} {arena : Arena κ (Entry KS VS)}
    (hroom : t.arena.reserve granted = some arena) : t.Trims { t with arena } where
  kept {id held} hheld := by
    rw [Chains.holding?_congr (Arena.get?_reserve hroom id)] at hheld
    exact ⟨held.value, hheld⟩
  level := rfl
  band := rfl
  lastStep := rfl

theorem size_setValue (t : Table F p) (id : EntryId) (value : Option VS) :
    (t.toChains.setValue id value).size = t.size :=
  Arena.size_modify ..

theorem size_onSlots (t : Table F p) (id : EntryId) (actions : List (ε × SlotAction V VS)) :
    (t.onSlots id actions).table.size = t.size := by
  induction actions generalizing t with
  | nil => rfl
  | cons first rest ih => exact (ih _).trans (t.size_setValue id _)

/-- Taking a key leaves the table that erasing it leaves. -/
theorem table_take [Scale F] (t : Table F p) (supply : Supply ε) (key : K) :
    (t.take supply key).table = (t.erase supply key).table := by
  unfold take erase
  dsimp only
  split <;> rfl

namespace Sound

variable [Scale F] {supply : Supply ε} (request : Request F ε K V VS σ ω)

/-- Making an entry, for a key that was not found. -/
theorem effect_insertNew (h : t.Sound) (hmakes : request.Makes) {key : K} (value : Option V)
    (hfound : (t.probe key).found = none) :
    request.Effect supply t (t.insertNew supply (t.probe key) key value).table := by
  have hadmission := admission_insertNew t supply key value
  generalize t.insertNew supply (t.probe key) key value = outcome at hadmission ⊢
  cases hadmission with
  | noRoom => exact .rests hmakes.canRest (.refl t) rfl
  | keyRefused hroom _ | valueRefused hroom _ _ _ =>
      exact .rests hmakes.canRest (trims_reserve hroom) (h.size_reserve hroom)
  | admitted hroom hkey _ => exact .comes hmakes hfound hroom hkey (.refl _) rfl

theorem effect_openSlot (h : t.Sound) (supply : Supply ε) (key : K) (hmakes : request.Makes) :
    request.Effect supply t (t.openSlot supply key).table := by
  rw [openSlot_eq]
  dsimp only
  split
  · exact .rests hmakes.canRest (t.trims_setValue _ none) (t.size_setValue _ none)
  · next hfound => exact h.effect_insertNew request hmakes none hfound

/-- Changing values after a request that makes an entry is part of its effect. -/
theorem effect_onSlots (hmakes : request.Makes) (heffect : request.Effect supply t t')
    (id : EntryId) (actions : List (ε × SlotAction V VS)) :
    request.Effect supply t (t'.onSlots id actions).table := by
  have htrims := t'.trims_onSlots id actions
  have hsize := t'.size_onSlots id actions
  cases heffect with
  | rests hrests hbefore hsame => exact .rests hrests (hbefore.trans htrims) (hsize.trans hsame)
  | comes _ hfound hroom hkey hbefore hsame =>
      exact .comes hmakes hfound hroom hkey (hbefore.trans htrims) (hsize.trans hsame)
  | leaves hremoves => exact absurd hremoves hmakes.not_removes
  | clears | steps | walks => exact hmakes.elim

/-- An entry that is found is cut out, and a density step follows. -/
theorem effect_erase (h : t.Sound) (supply : Supply ε) (key : K) (hremoves : request.Removes) :
    request.Effect supply t (t.erase supply key).table := by
  unfold erase
  dsimp only
  split
  · exact .rests hremoves.canRest (.refl t) rfl
  · next id entry hfound =>
      obtain ⟨hlink, hget⟩ := linked_of_probe_found hfound
      exact .leaves hremoves (t.trims_unlink _ id entry) (h.unlink hlink hget)
        (h.size_unlink hlink hget)

theorem effect_walk (h : t.Sound) (supply : Supply ε) (memory : σ)
    (visitor : Visitor F ε K V VS σ ω) :
    (Request.walk memory visitor).Effect supply t (t.walk supply memory visitor).table := by
  have htrims := t.trims_walk memory visitor
  have hsound := h.run_start memory visitor
  have hle := htrims.size_le h hsound
  unfold Table.walk
  dsimp only
  split
  · next hsame => exact .rests trivial htrims hsame
  · next hne => exact .walks htrims hsound (lt_of_le_of_ne hle hne)

/-- **What a request does** is one of these. -/
theorem effect_run (h : t.Sound) (supply : Supply ε) (request : Request F ε K V VS σ ω) :
    request.Effect supply t (request.run supply t).table := by
  cases request with
  | insert key value =>
      simp only [Request.run, Table.insert, Outcome.table_map]
      split
      · split
        · exact .rests trivial (.refl t) rfl
        · exact .rests trivial (t.trims_setValue _ _) (t.size_setValue _ _)
      · next hfound => exact h.effect_insertNew (.insert key value) trivial value hfound
  | openSlot key actions =>
      have hopen := h.effect_openSlot (.openSlot key actions : Request F ε K V VS σ ω)
        supply key trivial
      simp only [Request.run, openSlotAnd, Outcome.table_map]
      split
      · exact hopen
      · exact effect_onSlots (.openSlot key actions) trivial hopen _ actions
  | contains key | lookUp key => exact .rests trivial (.refl t) rfl
  | take key =>
      rw [Request.run, Outcome.table_map, table_take]
      exact h.effect_erase (.take key) supply key trivial
  | erase key => exact h.effect_erase (.erase key) supply key trivial
  | clear => exact .clears
  | densityStep => exact .steps
  | walk memory visitor => exact h.effect_walk supply memory visitor

end Sound

end Table

end ChainedTable
