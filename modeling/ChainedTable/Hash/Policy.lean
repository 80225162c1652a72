import ChainedTable.Hash.Mix
import ChainedTable.MachineInt

/-!
# ChainedTable.Hash.Policy

How a table hashes keys and tells them apart.

A `HashPolicy` has a hash, which only picks the bucket, and a comparison,
which alone decides whether a stored key is the one looked for. A table asks
one thing of a comparison: whether it is `.eq`. So the policies here are free
to choose different orders; `integer` compares the probe with the stored key,
`text` and `bytes` the stored key with the probe, and `digesting` answers
`.lt` for any two keys that differ.
-/

namespace ChainedTable

/-- A hash and a comparison on keys. -/
structure HashPolicy (K : Type) where
  hash : K → UInt64
  /-- Compares a stored key with the key looked for. -/
  compare (stored probe : K) : Ordering

/-- The bytes of a text in UTF-8. -/
def utf8 (text : String) : List UInt8 := text.toUTF8.data.toList

namespace HashPolicy

/-- Integers: the sign-extended word is mixed. -/
def integer {kind : IntKind} : HashPolicy (MachineInt kind) where
  hash key := Hash.intMix key.toWord
  compare stored probe := Ord.compare probe.val stored.val

/-- Texts: `djb2` over the bytes, and the order of texts by code point. -/
def text : HashPolicy String where
  hash key := Hash.djb2 (utf8 key)
  compare stored probe := Ord.compare stored probe

/-- Strings of bytes: `djb2Xor`, and the lexicographic order. -/
def bytes : HashPolicy (List UInt8) where
  hash := Hash.djb2Xor
  compare stored probe := Ord.compare stored probe

/-- Any keys with an equality and a digest. -/
def digesting {K : Type} [BEq K] (digest : K → UInt64) : HashPolicy K where
  hash := digest
  compare stored probe := if stored == probe then .eq else .lt

/-- What a policy made of two functions of the caller is called. -/
def suppliedName : String := "FnHasher"

end HashPolicy

/-! ## digests by field

A digest runs `fnv1a` over the bytes that a key is fed as: an integer gives
its bytes from the lowest, a text ends with a byte that no text contains, a
string of bytes starts with its length, and a pair gives one part after the
other. -/

namespace Hash

/-- The lowest `width` bytes of a number, from the lowest. -/
def littleEndian : (width : Nat) → Nat → List UInt8
  | 0, _ => []
  | width + 1, n => UInt8.ofNat n :: littleEndian width (n / 256)

/-- Digest of an integer, at the width of its kind. -/
def digestInt {kind : IntKind} (key : MachineInt kind) : UInt64 :=
  fnv1a (littleEndian (kind.bits / 8) key.toWord.toNat)

/-- Digest of a text. -/
def digestText (key : String) : UInt64 := fnv1a (utf8 key ++ [0xff])

/-- Digest of a string of bytes. -/
def digestBytes (key : List UInt8) : UInt64 := fnv1a (littleEndian 8 key.length ++ key)

/-- Digest of a byte and a character. -/
def digestPair (key : UInt8 × Char) : UInt64 :=
  fnv1a (key.1 :: littleEndian 4 key.2.toNat)

end Hash

end ChainedTable
