import ChainedTable.Hash.Policy

/-!
# ChainedTable.Hash.Elementary

Elementary hashes and comparisons to make policies of.

A caller may give a table any two functions. Those here are the usual ones to
try a table with: hashes that collide often or always, and comparisons that
take many keys for one, or no key for any. None of them has to agree with the
other: a policy may well hash keys apart that it compares as equal.
-/

namespace ChainedTable

/-- Hashes of integer keys. -/
inductive WordHash where
  /-- The word itself. -/
  | word
  /-- The same for all keys. -/
  | constant (value : UInt64)
  /-- The remainder of the word. -/
  | remainder (modulus : UInt64)
  /-- The word times a factor, modulo `2 ^ 64`. -/
  | multiple (factor : UInt64)
deriving DecidableEq, Repr

/-- The hash of an integer key. -/
def WordHash.run {kind : IntKind} (key : MachineInt kind) : WordHash → UInt64
  | word => key.toWord
  | constant value => value
  | remainder modulus => key.toWord % modulus
  | multiple factor => key.toWord * factor

/-- Comparisons of integer keys. -/
inductive WordOrder where
  /-- The order of the words. -/
  | words
  /-- The order of their remainders. -/
  | remainders (modulus : UInt64)
  /-- All keys differ. -/
  | never
  /-- All keys are one. -/
  | always
deriving DecidableEq, Repr

/-- Compares two integer keys. -/
def WordOrder.run {kind : IntKind} (stored probe : MachineInt kind) : WordOrder → Ordering
  | words => compare stored.toWord probe.toWord
  | remainders modulus => compare (stored.toWord % modulus) (probe.toWord % modulus)
  | never => .lt
  | always => .eq

/-- Hashes of texts. -/
inductive TextHash where
  /-- The number of bytes. -/
  | length
  /-- The first byte, zero for the empty text. -/
  | firstByte
  /-- The same for all keys. -/
  | constant (value : UInt64)
  /-- `djb2` over the bytes. -/
  | djb2
  /-- `djb2` over the bytes of the text in lower case. -/
  | djb2Lower
deriving DecidableEq, Repr

/-- The hash of a text. -/
def TextHash.run (key : String) : TextHash → UInt64
  | length => UInt64.ofNat (utf8 key).length
  | firstByte => ((utf8 key).head?.getD 0).toUInt64
  | constant value => value
  | djb2 => Hash.djb2 (utf8 key)
  | djb2Lower => Hash.djb2 (utf8 key.toLower)

/-- Comparisons of texts. -/
inductive TextOrder where
  /-- The order of the texts. -/
  | texts
  /-- Equal up to the case of the letters `a` to `z`, greater otherwise. -/
  | caseless
  /-- The order of the first bytes of both, as many as given. -/
  | leading (count : Nat)
  /-- All keys differ. -/
  | never
  /-- All keys are one. -/
  | always
deriving DecidableEq, Repr

/-- Compares two texts. -/
def TextOrder.run (stored probe : String) : TextOrder → Ordering
  | texts => compare stored probe
  | caseless => if stored.toLower == probe.toLower then .eq else .gt
  | leading count => compare ((utf8 stored).take count) ((utf8 probe).take count)
  | never => .gt
  | always => .eq

namespace HashPolicy

/-- A policy made of two elementary functions on integers. -/
def ofWords {kind : IntKind} (hash : WordHash) (order : WordOrder) :
    HashPolicy (MachineInt kind) where
  hash key := hash.run key
  compare stored probe := order.run stored probe

/-- A policy made of two elementary functions on texts. -/
def ofTexts (hash : TextHash) (order : TextOrder) : HashPolicy String where
  hash key := hash.run key
  compare stored probe := order.run stored probe

end HashPolicy

end ChainedTable
