/-!
# ChainedTable.MachineInt

Integers of a fixed width, signed or not.

A `MachineInt kind` is an integer between `kind.lowest` and `kind.highest`.
`toWord` gives its 64 bits in two's complement: a narrower signed integer is
extended by its sign, a narrower unsigned one by zeros.
-/

namespace ChainedTable

/-- A kind of fixed-width integer. -/
structure IntKind where
  signed : Bool
  bits : Nat
deriving DecidableEq, Repr

namespace IntKind

def uint8 : IntKind := ⟨false, 8⟩
def uint16 : IntKind := ⟨false, 16⟩
def uint32 : IntKind := ⟨false, 32⟩
def uint64 : IntKind := ⟨false, 64⟩
def int8 : IntKind := ⟨true, 8⟩
def int16 : IntKind := ⟨true, 16⟩
def int32 : IntKind := ⟨true, 32⟩
def int64 : IntKind := ⟨true, 64⟩

/-- Unsigned integer of the width of an address, on a 64-bit machine. -/
def unsignedAddress : IntKind := ⟨false, 64⟩

/-- Signed integer of the width of an address, on a 64-bit machine. -/
def signedAddress : IntKind := ⟨true, 64⟩

/-- The kinds that integer keys come in. -/
def all : List IntKind :=
  [uint8, uint16, uint32, uint64, unsignedAddress, int8, int16, int32, int64, signedAddress]

/-- Least integer of the kind. -/
def lowest (kind : IntKind) : Int :=
  if kind.signed then -(Nat.pow 2 (kind.bits - 1) : Int) else 0

/-- Greatest integer of the kind. -/
def highest (kind : IntKind) : Int :=
  if kind.signed then Nat.pow 2 (kind.bits - 1) - 1 else Nat.pow 2 kind.bits - 1

end IntKind

/-- An integer that a kind has room for. -/
structure MachineInt (kind : IntKind) where
  val : Int
  lowest_le_val : kind.lowest ≤ val
  val_le_highest : val ≤ kind.highest
deriving DecidableEq, Repr

namespace MachineInt

variable {kind : IntKind}

/-- The integer, if the kind has room for it. -/
def ofInt? (kind : IntKind) (val : Int) : Option (MachineInt kind) :=
  if h : kind.lowest ≤ val ∧ val ≤ kind.highest then some ⟨val, h.1, h.2⟩ else none

/-- The 64 bits of an integer in two's complement. -/
def toWord (x : MachineInt kind) : UInt64 := UInt64.ofInt x.val

@[ext] theorem ext {x y : MachineInt kind} (h : x.val = y.val) : x = y := by
  cases x; cases y; simp_all

theorem ofInt?_eq_some_iff {val : Int} {x : MachineInt kind} :
    ofInt? kind val = some x ↔ x.val = val := by
  unfold ofInt?
  constructor
  · intro h
    split at h <;> simp_all
    exact (congrArg MachineInt.val h).symm
  · intro h
    subst h
    simp [x.lowest_le_val, x.val_le_highest]

end MachineInt

end ChainedTable
