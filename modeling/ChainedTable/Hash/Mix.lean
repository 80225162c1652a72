/-!
# ChainedTable.Hash.Mix

Hash functions on machine words and on strings of bytes.

All arithmetic is modulo `2 ^ 64`.

* `intMix` spreads a word over all 64 bits: three layers that fold high bits
  into low ones, with a multiplication by an odd constant after each of the
  first two.
* `djb2` and `djb2Xor` start at 5381 and take one byte at a time: the running
  hash is multiplied by 33, and the byte is added or combined by exclusive or.
* `fnv1a` combines each byte by exclusive or first and multiplies afterwards.
-/

namespace ChainedTable.Hash

/-- Avalanche mix of a 64-bit word. -/
def intMix (x : UInt64) : UInt64 :=
  let x := (x ^^^ (x >>> 31) ^^^ (x >>> 62)) * 0x319642b2d24d8ec3
  let x := (x ^^^ (x >>> 27) ^^^ (x >>> 54)) * 0x96de1b173f119089
  x ^^^ (x >>> 30) ^^^ (x >>> 60)

/-- What a fold over bytes starts from. -/
def djbSeed : UInt64 := 5381

/-- One step of `djb2`: thirty-three times the hash, plus the byte. -/
def djb2Step (hash : UInt64) (byte : UInt8) : UInt64 :=
  (hash <<< 5) + hash + byte.toUInt64

/-- One step of `djb2Xor`: thirty-three times the hash, exclusive or the byte. -/
def djb2XorStep (hash : UInt64) (byte : UInt8) : UInt64 :=
  ((hash <<< 5) + hash) ^^^ byte.toUInt64

/-- Multiply-and-add hash of a string of bytes. -/
def djb2 (bytes : List UInt8) : UInt64 := bytes.foldl djb2Step djbSeed

/-- Multiply-and-exclusive-or hash of a string of bytes. -/
def djb2Xor (bytes : List UInt8) : UInt64 := bytes.foldl djb2XorStep djbSeed

/-- Exclusive-or-and-multiply hash of a string of bytes, on 64 bits. -/
def fnv1a (bytes : List UInt8) : UInt64 :=
  bytes.foldl (fun hash byte => (hash ^^^ byte.toUInt64) * 0x100000001b3) 0xcbf29ce484222325

/-! ## folds over joined strings -/

theorem djb2_append (xs ys : List UInt8) : djb2 (xs ++ ys) = ys.foldl djb2Step (djb2 xs) := by
  simp [djb2, List.foldl_append]

theorem djb2Xor_append (xs ys : List UInt8) :
    djb2Xor (xs ++ ys) = ys.foldl djb2XorStep (djb2Xor xs) := by
  simp [djb2Xor, List.foldl_append]

end ChainedTable.Hash
