import ChainedTable.Request
import Mathlib.Data.Finmap

/-!
# ChainedTable.Proofs.FiniteMap

A finite map that answers requests.

This is what a table is for, said without buckets, chains and hashes.  Keys that
compare as equal are one key here, a key class, and the map takes some classes
to a value or to none.  `KeyMap.answer` is the answer to a request, and the map
afterwards:

1. a request that fails leaves the map as it was;
2. whether there is room for one more entry is not for the map to know, so each
   answer is given for one or the other;
3. the outcome of a density step is no answer of the map.

`HashPolicy.Lawful` is what a hash policy must satisfy for there to be classes.
-/

namespace ChainedTable

variable {F ε K KS V VS σ ω : Type} {κ : Keeper} {p : Policies ε K KS V VS κ}

/-! ## key classes -/

namespace HashPolicy

variable {hasher : HashPolicy K}

/-- To compare as equal is an equivalence, and equal keys have one hash. -/
structure Lawful (hasher : HashPolicy K) : Prop where
  refl (a : K) : hasher.compare a a = .eq
  symm {a b : K} : hasher.compare a b = .eq → hasher.compare b a = .eq
  trans {a b c : K} : hasher.compare a b = .eq → hasher.compare b c = .eq →
    hasher.compare a c = .eq
  hash_eq {a b : K} : hasher.compare a b = .eq → hasher.hash a = hasher.hash b

/-- Keys compare as equal if they are the same. -/
def Exact (hasher : HashPolicy K) : Prop := ∀ a b : K, hasher.compare a b = .eq ↔ a = b

theorem Exact.lawful (h : hasher.Exact) : hasher.Lawful where
  refl a := (h a a).mpr rfl
  symm {a b} hab := (h b a).mpr ((h a b).mp hab).symm
  trans {a b c} hab hbc := (h a c).mpr (((h a b).mp hab).trans ((h b c).mp hbc))
  hash_eq {a b} hab := by rw [(h a b).mp hab]

theorem exact_integer (kind : IntKind) : (integer : HashPolicy (MachineInt kind)).Exact := by
  intro a b
  have hval : Ord.compare b.val a.val = .eq ↔ b.val = a.val := Std.LawfulEqOrd.compare_eq_iff_eq
  rw [MachineInt.ext_iff, eq_comm (a := a.val), ← hval]
  rfl

theorem exact_digesting [BEq K] [LawfulBEq K] (digest : K → UInt64) : (digesting digest).Exact := by
  intro a b
  change (if a == b then Ordering.eq else .lt) = .eq ↔ a = b
  split
  · next heq => exact ⟨fun _ => eq_of_beq heq, fun _ => rfl⟩
  · next hne => exact ⟨nofun, fun heq => absurd (beq_iff_eq.mpr heq) hne⟩

theorem exact_text : text.Exact := fun _ _ => Std.LawfulEqOrd.compare_eq_iff_eq

theorem exact_bytes : bytes.Exact := fun _ _ => Std.LawfulEqOrd.compare_eq_iff_eq

namespace Lawful

/-- Keys up to comparison. -/
def setoid (h : hasher.Lawful) : Setoid K where
  r a b := hasher.compare a b = .eq
  iseqv := ⟨h.refl, h.symm, h.trans⟩

/-- A class of keys that compare as equal. -/
def Class (h : hasher.Lawful) : Type := Quotient h.setoid

/-- The class of a key. -/
def classOf (h : hasher.Lawful) (key : K) : h.Class := Quotient.mk h.setoid key

noncomputable instance (h : hasher.Lawful) : DecidableEq h.Class := Classical.decEq _

theorem classOf_eq_iff (h : hasher.Lawful) {a b : K} :
    h.classOf a = h.classOf b ↔ hasher.compare a b = .eq :=
  Quotient.eq

end Lawful

end HashPolicy

/-! ## answers -/

namespace SlotAction

/-- The reply to a slot action, and the value afterwards. -/
def reply (p : Policies ε K KS V VS κ) (copies : ε) (value : Option VS) :
    SlotAction V VS → SlotReply V × Option VS
  | store source =>
    match p.values.acquire copies source with
    | .ok stored => (.done, some stored)
    | .error why => (.refused why, value)
  | put stored => (.done, some stored)
  | clear => (.done, none)
  | look => (.content (value.map p.values.view), value)
  | isEmpty => (.flag value.isNone, value)
  | replace stored => (.flag value.isSome, value.map fun _ => stored)
  | overwrite stored => (.done, stored)

/-- A table does the same with a value. -/
theorem run_eq_reply (copies : ε) (value : Option VS) (action : SlotAction V VS) :
    ((action.run p copies value).reply, (action.run p copies value).value) =
      action.reply p copies value := by
  cases action with
  | store source =>
      simp only [SlotAction.run, SlotAction.reply]
      cases p.values.acquire copies source <;> rfl
  | replace stored => cases value <;> rfl
  | _ => rfl

/-- The replies to slot actions one after the other, and the value afterwards. -/
def replies (p : Policies ε K KS V VS κ) :
    List (ε × SlotAction V VS) → Option VS → List (SlotReply V) × Option VS
  | [], value => ([], value)
  | (copies, action) :: rest, value =>
    let first := action.reply p copies value
    let others := replies p rest first.2
    (first.1 :: others.1, others.2)

end SlotAction

/-- A map from some key classes to a value or to none. -/
abbrev KeyMap (VS : Type) {hasher : HashPolicy K} (h : hasher.Lawful) : Type :=
  Finmap fun _ : h.Class => Option VS

namespace KeyMap

/-- What a class is to be mapped to: for a class that is new to the map, storage is
had in the order of room, key and value, and otherwise for the value only. -/
noncomputable def acquire (h : p.hasher.Lawful) (room : Bool) (copies : ε) (map : KeyMap VS h)
    (key : K) (value : Option V) : Except Failure (Option VS) :=
  match map.lookup (h.classOf key) with
  | some _ => value.mapM (p.values.acquire copies)
  | none =>
    if room then
      match p.keys.acquire copies key with
      | .ok _ => value.mapM (p.values.acquire copies)
      | .error why => .error why
    else .error .storage

section

variable {h : p.hasher.Lawful} {map : KeyMap VS h} {key : K} {value : Option V} {copies : ε}

theorem acquire_of_lookup {value : Option V} {room : Bool} {copies : ε} {old : Option VS}
    (hlookup : map.lookup (h.classOf key) = some old) :
    acquire h room copies map key value = value.mapM (p.values.acquire copies) := by
  unfold acquire
  rw [hlookup]

theorem acquire_of_not_mem {value : Option V} {copies : ε} {storedKey : KS}
    (hlookup : map.lookup (h.classOf key) = none)
    (hkey : p.keys.acquire copies key = .ok storedKey) :
    acquire h true copies map key value = value.mapM (p.values.acquire copies) := by
  unfold acquire
  rw [hlookup, hkey]
  rfl

/-- A class that is not in the map is not removed from it. -/
theorem erase_eq_self {cls : h.Class} (hlookup : map.lookup cls = none) : map.erase cls = map := by
  refine Finmap.ext_lookup fun other => ?_
  by_cases heq : other = cls
  · rw [heq, Finmap.lookup_erase, hlookup]
  · exact Finmap.lookup_erase_ne heq

end

/-- The answer to a request, unless it is not for the map to answer, and the map
afterwards. -/
noncomputable def answer (h : p.hasher.Lawful) (room : Bool) (copies : ε) (map : KeyMap VS h) :
    Request F ε K V VS σ ω → Option (Reply V VS σ ω) × KeyMap VS h
  | .insert key value =>
    match acquire h room copies map key value with
    | .ok stored =>
      let isNew := (map.lookup (h.classOf key)).isNone
      (some (.inserted (.ok isNew)), map.insert (h.classOf key) stored)
    | .error why => (some (.inserted (.error why)), map)
  | .openSlot key actions =>
    match acquire h room copies map key none with
    | .ok stored =>
      let filled := SlotAction.replies p actions stored
      (some (.filled (.ok filled.1)), map.insert (h.classOf key) filled.2)
    | .error why => (some (.filled (.error why)), map)
  | .contains key => (some (.flag (map.lookup (h.classOf key)).isSome), map)
  | .lookUp key => (some (.content ((map.lookup (h.classOf key)).join.map p.values.view)), map)
  | .take key =>
    (some (.taken (map.lookup (h.classOf key)).join), map.erase (h.classOf key))
  | .erase key => (some .done, map.erase (h.classOf key))
  | .clear => (some .done, ∅)
  | .densityStep => (none, map)
  | .walk _ _ => (none, map)

/-- The answers to requests one after the other, each with word whether there is
room, and the map afterwards. -/
noncomputable def answers (h : p.hasher.Lawful) :
    List (Bool × Supply ε × Request F ε K V VS σ ω) → KeyMap VS h →
      List (Option (Reply V VS σ ω)) × KeyMap VS h
  | [], map => ([], map)
  | (room, supply, request) :: rest, map =>
    let first := answer h room supply.copies map request
    let others := answers h rest first.2
    (first.1 :: others.1, others.2)

end KeyMap

/-- A reply that tells of a failure. -/
def Reply.Failed : Reply V VS σ ω → Prop
  | .inserted (.error _) | .filled (.error _) => True
  | _ => False

/-- A request that fails leaves the map as it was. -/
theorem KeyMap.answer_of_failed {h : p.hasher.Lawful} {room : Bool} {copies : ε}
    {map : KeyMap VS h} {request : Request F ε K V VS σ ω} {reply : Reply V VS σ ω}
    (hreply : (answer h room copies map request).1 = some reply) (hfailed : reply.Failed) :
    (answer h room copies map request).2 = map := by
  cases request with
  | insert key value =>
      simp only [answer] at hreply ⊢
      split at hreply
      · obtain rfl := Option.some.inj hreply
        exact hfailed.elim
      · rfl
  | openSlot key actions =>
      simp only [answer] at hreply ⊢
      split at hreply
      · obtain rfl := Option.some.inj hreply
        exact hfailed.elim
      · rfl
  | contains | lookUp | densityStep | walk => rfl
  | take key | erase key | clear =>
      obtain rfl := Option.some.inj hreply
      exact hfailed.elim

/-- What a reply says of the map. -/
def Reply.told : Reply V VS σ ω → Option (Reply V VS σ ω)
  | .stepped _ | .toured _ => none
  | reply => some reply

/-- All requests but a walk are calls on one key or on the whole map. -/
def Request.OnMap : Request F ε K V VS σ ω → Prop
  | .walk _ _ => False
  | _ => True

end ChainedTable
