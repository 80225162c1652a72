import ChainedTable.Chains
import ChainedTable.Proofs.FiniteMap
import Mathlib.Data.Nat.ModEq

/-!
# ChainedTable.Proofs.Mixing

Mixing a word loses nothing.

`Hash.intMix` is a bijection on words, and its inverse is written down as
`Hash.unmix`: the layers in reverse order, each undone.

1. A layer folds a word into itself at a distance and at twice that distance.
   At three times the distance nothing is left of a word, so that folding once
   more at the distance alone gives the word back.
2. Each multiplier is odd, so there is a word that it takes to 1.

An integer has a word of its own, whatever its kind.  So two integers never have
one hash, and what brings them into one bucket is the remainder by the number of
buckets.
-/

namespace ChainedTable

/-! ## undoing the layers -/

namespace Hash

/-- Folds a word into itself, at a distance and at twice that distance. -/
def foldHigh (distance word : UInt64) : UInt64 :=
  word ^^^ (word >>> distance) ^^^ (word >>> (2 * distance))

/-- Folds a word into itself, at a distance only. -/
def foldOnce (distance word : UInt64) : UInt64 := word ^^^ (word >>> distance)

/-- The mix, layer by layer. -/
theorem intMix_eq (word : UInt64) :
    intMix word = foldHigh 30
      (foldHigh 27 (foldHigh 31 word * 0x319642b2d24d8ec3) * 0x96de1b173f119089) := rfl

/-- What `intMix` made of a word, taken back. -/
def unmix (word : UInt64) : UInt64 :=
  foldOnce 31 (foldOnce 27 (foldOnce 30 word * 0xbf58476d1ce4e5b9) * 0x94d049bb133111eb)

section Folding

variable {distance : UInt64}

/-- The bits of a word that was shifted down. -/
theorem getLsbD_shiftRight {shift : UInt64} (hshift : shift < 64) (word : UInt64) (i : Nat) :
    (word >>> shift).toBitVec.getLsbD i = word.toBitVec.getLsbD (shift.toNat + i) := by
  have hlt : shift.toNat < 64 := UInt64.lt_iff_toNat_lt.mp hshift
  have hmod : (shift.toBitVec % 64).toNat = shift.toNat := by
    simp [BitVec.toNat_umod, Nat.mod_eq_of_lt hlt]
  rw [UInt64.toBitVec_shiftRight, BitVec.ushiftRight_eq', BitVec.getLsbD_ushiftRight, hmod]

theorem getLsbD_foldOnce (hdistance : distance < 64) (word : UInt64) (i : Nat) :
    (foldOnce distance word).toBitVec.getLsbD i =
      (word.toBitVec.getLsbD i ^^ word.toBitVec.getLsbD (distance.toNat + i)) := by
  rw [foldOnce, UInt64.toBitVec_xor, BitVec.getLsbD_xor, getLsbD_shiftRight hdistance]

theorem getLsbD_foldHigh (hdistance : distance < 32) (word : UInt64) (i : Nat) :
    (foldHigh distance word).toBitVec.getLsbD i =
      (word.toBitVec.getLsbD i ^^ word.toBitVec.getLsbD (distance.toNat + i) ^^
        word.toBitVec.getLsbD (2 * distance.toNat + i)) := by
  have hlt : distance.toNat < 32 := UInt64.lt_iff_toNat_lt.mp hdistance
  have htwice : (2 * distance).toNat = 2 * distance.toNat := by
    rw [UInt64.toNat_mul]
    exact Nat.mod_eq_of_lt (show 2 * distance.toNat < 2 ^ 64 by omega)
  have hone : distance < 64 := UInt64.lt_iff_toNat_lt.mpr (show distance.toNat < 64 by omega)
  have htwo : 2 * distance < 64 :=
    UInt64.lt_iff_toNat_lt.mpr (show (2 * distance).toNat < 64 by omega)
  rw [foldHigh, UInt64.toBitVec_xor, UInt64.toBitVec_xor, BitVec.getLsbD_xor, BitVec.getLsbD_xor,
    getLsbD_shiftRight hone, getLsbD_shiftRight htwo, htwice]

/-- Nothing is left of a word at three times a distance of at least 22. -/
theorem getLsbD_thrice (hdistance : 22 ≤ distance) (word : UInt64) (i : Nat) :
    word.toBitVec.getLsbD (3 * distance.toNat + i) = false := by
  have hle : 22 ≤ distance.toNat := UInt64.le_iff_toNat_le.mp hdistance
  exact BitVec.getLsbD_of_ge _ _ (by omega)

/-- **Folding once more** undoes a layer: whatever it adds is there twice, or nothing is
left of it. -/
theorem foldOnce_foldHigh (hlow : 22 ≤ distance) (hhigh : distance < 32) (word : UInt64) :
    foldOnce distance (foldHigh distance word) = word := by
  have hone : distance < 64 := UInt64.lt_trans hhigh (by decide)
  refine UInt64.toBitVec_inj.mp (BitVec.eq_of_getLsbD_eq fun i _ => ?_)
  have htwice : distance.toNat + (distance.toNat + i) = 2 * distance.toNat + i := by omega
  have hthrice : 2 * distance.toNat + (distance.toNat + i) = 3 * distance.toNat + i := by omega
  rw [getLsbD_foldOnce hone, getLsbD_foldHigh hhigh, getLsbD_foldHigh hhigh, htwice, hthrice,
    getLsbD_thrice hlow]
  cases word.toBitVec.getLsbD i <;> cases word.toBitVec.getLsbD (distance.toNat + i) <;>
    cases word.toBitVec.getLsbD (2 * distance.toNat + i) <;> rfl

theorem foldHigh_foldOnce (hlow : 22 ≤ distance) (hhigh : distance < 32) (word : UInt64) :
    foldHigh distance (foldOnce distance word) = word := by
  have hone : distance < 64 := UInt64.lt_trans hhigh (by decide)
  refine UInt64.toBitVec_inj.mp (BitVec.eq_of_getLsbD_eq fun i _ => ?_)
  have htwice : distance.toNat + (distance.toNat + i) = 2 * distance.toNat + i := by omega
  have hthrice : distance.toNat + (2 * distance.toNat + i) = 3 * distance.toNat + i := by omega
  rw [getLsbD_foldHigh hhigh, getLsbD_foldOnce hone, getLsbD_foldOnce hone, getLsbD_foldOnce hone,
    htwice, hthrice, getLsbD_thrice hlow]
  cases word.toBitVec.getLsbD i <;> cases word.toBitVec.getLsbD (distance.toNat + i) <;>
    cases word.toBitVec.getLsbD (2 * distance.toNat + i) <;> rfl

end Folding

/-- A multiplier and the word that it takes to 1. -/
theorem mul_mul_of_mul_eq_one {factor inverse : UInt64} (h : factor * inverse = 1)
    (word : UInt64) : word * factor * inverse = word := by
  rw [UInt64.mul_assoc, h, UInt64.mul_one]

/-- **Mixing loses nothing.** -/
theorem unmix_intMix (word : UInt64) : unmix (intMix word) = word := by
  rw [intMix_eq, unmix, foldOnce_foldHigh (by decide) (by decide),
    mul_mul_of_mul_eq_one (by decide), foldOnce_foldHigh (by decide) (by decide),
    mul_mul_of_mul_eq_one (by decide), foldOnce_foldHigh (by decide) (by decide)]

/-- Every word is the mix of some word. -/
theorem intMix_unmix (word : UInt64) : intMix (unmix word) = word := by
  rw [intMix_eq, unmix, foldHigh_foldOnce (by decide) (by decide),
    mul_mul_of_mul_eq_one (by decide), foldHigh_foldOnce (by decide) (by decide),
    mul_mul_of_mul_eq_one (by decide), foldHigh_foldOnce (by decide) (by decide)]

theorem bijective_intMix : Function.Bijective intMix :=
  Function.bijective_iff_has_inverse.mpr ⟨unmix, unmix_intMix, intMix_unmix⟩

end Hash

/-! ## the word of an integer -/

namespace IntKind

variable {kind : IntKind}

/-- No kind has more integers than there are words. -/
theorem highest_lt_of_mem (h : kind ∈ all) : kind.highest < kind.lowest + 2 ^ 64 := by
  revert kind
  decide

theorem bits_pos_of_mem (h : kind ∈ all) : 0 < kind.bits := by
  revert kind
  decide

end IntKind

namespace MachineInt

variable {kind : IntKind}

/-- The bits of an integer at its own width, extended to a word: by the sign if there is
one, and by zeros otherwise. -/
def extended (x : MachineInt kind) : BitVec 64 :=
  if kind.signed then (BitVec.ofInt kind.bits x.val).signExtend 64
  else (BitVec.ofInt kind.bits x.val).setWidth 64

theorem toBitVec_toWord (x : MachineInt kind) : x.toWord.toBitVec = BitVec.ofInt 64 x.val := by
  refine BitVec.eq_of_toNat_eq ?_
  rw [toWord, UInt64.ofInt, BitVec.toNat_ofInt, UInt64.toBitVec_ofNat', BitVec.toNat_ofNat]
  omega

/-- A narrower integer is extended to its word. -/
theorem toWord_eq_extended (h : 0 < kind.bits) (x : MachineInt kind) :
    x.toWord = UInt64.ofBitVec x.extended := by
  have hlow := x.lowest_le_val
  have hhigh := x.val_le_highest
  unfold IntKind.lowest at hlow
  unfold IntKind.highest at hhigh
  rw [← UInt64.toBitVec_inj, toBitVec_toWord]
  unfold extended
  split
  · next hsigned =>
      rw [if_pos hsigned] at hlow hhigh
      have hhalves : 2 ^ kind.bits = 2 * Nat.pow 2 (kind.bits - 1) := by
        rw [Nat.pow_eq, ← Nat.pow_succ', Nat.succ_eq_add_one, Nat.sub_add_cancel h]
      rw [BitVec.signExtend, BitVec.toInt_ofInt, Int.bmod_eq_of_le] <;> omega
  · next hunsigned =>
      rw [if_neg hunsigned] at hlow hhigh
      rw [Nat.pow_eq] at hhigh
      have hown : x.val % ((2 ^ kind.bits : Nat) : Int) = x.val :=
        Int.emod_eq_of_lt hlow (by omega)
      refine BitVec.eq_of_toNat_eq ?_
      rw [BitVec.toNat_setWidth, BitVec.toNat_ofInt, BitVec.toNat_ofInt, hown]
      omega

/-- An integer has a word of its own. -/
theorem injective_toWord (h : kind ∈ IntKind.all) :
    Function.Injective (toWord : MachineInt kind → UInt64) := by
  intro x y hxy
  have hwidth := IntKind.highest_lt_of_mem h
  have hx := x.lowest_le_val
  have hx' := x.val_le_highest
  have hy := y.lowest_le_val
  have hy' := y.val_le_highest
  have hwords := congrArg (fun word : UInt64 => word.toBitVec.toNat) hxy
  simp only [toBitVec_toWord, BitVec.toNat_ofInt] at hwords
  ext
  omega

end MachineInt

/-! ## keys apart -/

theorem Chains.bucketOf_eq_toNat {κ : Keeper} {KS VS : Type} {chains : Chains κ KS VS}
    (h : 2 ^ 64 ≤ chains.heads.size) (hash : UInt64) : chains.bucketOf hash = hash.toNat :=
  Nat.mod_eq_of_lt (hash.toNat_lt.trans_le h)

namespace HashPolicy

variable {K : Type} {hasher : HashPolicy K}

/-- Keys that differ have hashes that differ, so that nothing but the remainder by the
number of buckets brings two keys together. -/
structure SpreadsApart (hasher : HashPolicy K) : Prop where
  exact : hasher.Exact
  hash_eq_iff (a b : K) : hasher.hash a = hasher.hash b ↔ hasher.compare a b = .eq
  /-- Two keys share a bucket if their hashes differ and leave the same remainder. -/
  shares_iff {κ : Keeper} {KS VS : Type} (chains : Chains κ KS VS) {a b : K} : a ≠ b →
    (chains.bucketOf (hasher.hash a) = chains.bucketOf (hasher.hash b) ↔
      hasher.hash a ≠ hasher.hash b ∧
        (hasher.hash a).toNat ≡ (hasher.hash b).toNat [MOD chains.heads.size])
  /-- With a bucket for every hash, the remainder takes nothing away, and every key has a
  bucket of its own. -/
  alone {κ : Keeper} {KS VS : Type} (chains : Chains κ KS VS) {a b : K} :
    2 ^ 64 ≤ chains.heads.size →
      (chains.bucketOf (hasher.hash a) = chains.bucketOf (hasher.hash b) ↔ a = b)

theorem Exact.spreadsApart (hexact : hasher.Exact) (hhash : Function.Injective hasher.hash) :
    hasher.SpreadsApart where
  exact := hexact
  hash_eq_iff a b := by rw [hhash.eq_iff, hexact]
  shares_iff chains a b hne := (and_iff_right (hhash.ne hne)).symm
  alone chains a b hsize := by
    rw [Chains.bucketOf_eq_toNat hsize, Chains.bucketOf_eq_toNat hsize, UInt64.toNat_inj,
      hhash.eq_iff]

/-- **Integer keys never collide** before the remainder is taken: an integer of whatever
kind is extended to a word of its own, and the mix loses nothing of a word. -/
theorem spreadsApart_integer :
    Function.Bijective Hash.intMix ∧
      ∀ kind ∈ IntKind.all,
        (∀ key : MachineInt kind,
          integer.hash key = Hash.intMix (UInt64.ofBitVec key.extended)) ∧
        (integer : HashPolicy (MachineInt kind)).SpreadsApart := by
  refine ⟨Hash.bijective_intMix, fun kind hkind => ⟨fun key => ?_, ?_⟩⟩
  · rw [← MachineInt.toWord_eq_extended (IntKind.bits_pos_of_mem hkind)]
    rfl
  · exact (exact_integer kind).spreadsApart
      (Hash.bijective_intMix.injective.comp (MachineInt.injective_toWord hkind))

/-- The integers -1 and 127 of eight bits; the word of the first has all its bits set. -/
theorem spreadsApart_int8 :
    IntKind.int8 ∈ IntKind.all ∧
      (⟨-1, by decide, by decide⟩ : MachineInt .int8).extended = BitVec.allOnes 64 ∧
      integer.hash (⟨-1, by decide, by decide⟩ : MachineInt .int8) ≠
        integer.hash (⟨127, by decide, by decide⟩ : MachineInt .int8) := by
  refine ⟨by decide, by decide, ?_⟩
  rw [Ne, (spreadsApart_integer.2 .int8 (by decide)).2.hash_eq_iff]
  decide

end HashPolicy

end ChainedTable
