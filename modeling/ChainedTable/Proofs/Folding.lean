import ChainedTable.Hash.Policy
import Mathlib.Logic.ExistsUnique
import Mathlib.Logic.Function.Basic

/-!
# ChainedTable.Proofs.Folding

What a hash of a string of bytes keeps of the string.

Both folds, `Hash.djb2` and `Hash.djb2Xor`, take a byte in by a step that loses neither the
running hash nor the byte (`Lossless`): 33 is odd, so that multiplying by it can be undone,
and what is added or combined by exclusive or afterwards can be taken away again.  Of such a
fold two things are true:

1. what follows in two strings makes no difference to whether their hashes agree
   (`Lossless.foldl_injective`);
2. two strings of one length that differ at one place only have different hashes
   (`Lossless.foldl_ne`): up to that place the hashes are one, the differing byte sets them
   apart, and what follows keeps them apart.
-/

namespace ChainedTable.Hash

/-! ## strings that differ once -/

/-- Two strings of one length that differ at exactly one place. -/
def DifferOnce (xs ys : List UInt8) : Prop :=
  xs.length = ys.length ∧ ∃! i : Nat, xs[i]? ≠ ys[i]?

/-- They are the same in front of that place and behind it. -/
theorem differOnce_iff {xs ys : List UInt8} :
    DifferOnce xs ys ↔
      ∃ front rest a b, a ≠ b ∧ xs = front ++ a :: rest ∧ ys = front ++ b :: rest := by
  constructor
  · rintro ⟨hlength, i, hdiffer, hunique⟩
    have hsame (j : Nat) (hj : j ≠ i) : xs[j]? = ys[j]? := by
      by_contra hne
      exact hj (hunique j hne)
    have hi : i < xs.length := by
      by_contra hge
      exact hdiffer (by rw [List.getElem?_eq_none (by omega), List.getElem?_eq_none (by omega)])
    have hi' : i < ys.length := hlength ▸ hi
    have hfront : xs.take i = ys.take i := by
      refine List.ext_getElem? fun j => ?_
      simp only [List.getElem?_take]
      split
      · exact hsame j (by omega)
      · rfl
    have hrest : xs.drop (i + 1) = ys.drop (i + 1) := by
      refine List.ext_getElem? fun j => ?_
      simp only [List.getElem?_drop]
      exact hsame _ (by omega)
    refine ⟨xs.take i, xs.drop (i + 1), xs[i], ys[i], ?_, ?_, ?_⟩
    · simpa [List.getElem?_eq_getElem hi, List.getElem?_eq_getElem hi'] using hdiffer
    · rw [List.getElem_cons_drop, List.take_append_drop]
    · rw [hfront, hrest, List.getElem_cons_drop, List.take_append_drop]
  · rintro ⟨front, rest, a, b, hne, rfl, rfl⟩
    refine ⟨by simp, front.length, by simpa using hne, fun j hdiffer => ?_⟩
    by_contra hj
    refine hdiffer ?_
    simp only [List.getElem?_append, List.getElem?_cons]
    split
    · rfl
    · rw [if_neg (by omega), if_neg (by omega)]

/-! ## folds that lose nothing -/

/-- A step of a fold that loses neither the running hash nor the byte. -/
structure Lossless (step : UInt64 → UInt8 → UInt64) : Prop where
  hash (byte : UInt8) : Function.Injective fun hash => step hash byte
  byte (hash : UInt64) : Function.Injective (step hash)

namespace Lossless

variable {step : UInt64 → UInt8 → UInt64}

/-- **No string that follows** makes two hashes one. -/
theorem foldl_injective (h : Lossless step) (bytes : List UInt8) :
    Function.Injective fun hash => bytes.foldl step hash := by
  induction bytes with
  | nil => exact Function.injective_id
  | cons byte bytes ih => exact ih.comp (h.hash byte)

/-- **One differing byte** shows in the hash, wherever it stands. -/
theorem foldl_ne (h : Lossless step) (seed : UInt64) {xs ys : List UInt8}
    (hdiffer : DifferOnce xs ys) : xs.foldl step seed ≠ ys.foldl step seed := by
  obtain ⟨front, rest, a, b, hne, rfl, rfl⟩ := differOnce_iff.mp hdiffer
  simp only [List.foldl_append, List.foldl_cons]
  exact (h.foldl_injective rest).ne ((h.byte _).ne hne)

end Lossless

/-! ## the two steps -/

/-- Shifting by five and adding multiplies by 33. -/
theorem shift_add_eq_mul (hash : UInt64) : (hash <<< 5) + hash = hash * 33 := by
  refine UInt64.toNat_inj.mp ?_
  have hshift : hash.toNat <<< ((5 : UInt64).toNat % 64) = hash.toNat * 32 := Nat.shiftLeft_eq ..
  rw [UInt64.toNat_add, UInt64.toNat_shiftLeft, UInt64.toNat_mul, hshift]
  change (hash.toNat * 32 % 2 ^ 64 + hash.toNat) % 2 ^ 64 = hash.toNat * 33 % 2 ^ 64
  omega

/-- What was multiplied by 33 can be had back: 33 is odd. -/
theorem injective_shift_add : Function.Injective fun hash : UInt64 => (hash <<< 5) + hash := by
  have hinverse : (33 : UInt64) * 0xf83e0f83e0f83e1 = 1 := by decide
  refine Function.LeftInverse.injective (g := (· * 0xf83e0f83e0f83e1)) fun hash => ?_
  calc ((hash <<< 5) + hash) * 0xf83e0f83e0f83e1
      = hash * (33 * 0xf83e0f83e0f83e1) := by rw [shift_add_eq_mul, UInt64.mul_assoc]
    _ = hash := by rw [hinverse, UInt64.mul_one]

theorem lossless_djb2Step : Lossless djb2Step where
  hash _ _ _ h := injective_shift_add ((UInt64.add_left_inj _).mp h)
  byte _ _ _ h := UInt8.toUInt64_inj.mp ((UInt64.add_right_inj _).mp h)

theorem lossless_djb2XorStep : Lossless djb2XorStep where
  hash _ _ _ h := injective_shift_add ((UInt64.xor_left_inj _).mp h)
  byte _ _ _ h := UInt8.toUInt64_inj.mp ((UInt64.xor_right_inj _).mp h)

/-! ## the two folds -/

/-- A hash of strings of bytes in which a common end cancels and one differing byte
shows. -/
structure Cancels (hash : List UInt8 → UInt64) : Prop where
  append_iff (a b c : List UInt8) : hash (a ++ c) = hash (b ++ c) ↔ hash a = hash b
  ne_of_differOnce {a b : List UInt8} : DifferOnce a b → hash a ≠ hash b

theorem cancels_djb2 : Cancels djb2 where
  append_iff a b c := by
    rw [djb2_append, djb2_append]
    exact (lossless_djb2Step.foldl_injective c).eq_iff
  ne_of_differOnce := lossless_djb2Step.foldl_ne djbSeed

theorem cancels_djb2Xor : Cancels djb2Xor where
  append_iff a b c := by
    rw [djb2Xor_append, djb2Xor_append]
    exact (lossless_djb2XorStep.foldl_injective c).eq_iff
  ne_of_differOnce := lossless_djb2XorStep.foldl_ne djbSeed

/-- **Both folds cancel**, so texts and strings of bytes with a single differing byte never
collide. -/
theorem folds_cancel :
    Cancels djb2 ∧ Cancels djb2Xor ∧
      (∀ {a b : String}, DifferOnce (utf8 a) (utf8 b) →
        HashPolicy.text.hash a ≠ HashPolicy.text.hash b) ∧
      (∀ {a b : List UInt8}, DifferOnce a b →
        HashPolicy.bytes.hash a ≠ HashPolicy.bytes.hash b) :=
  ⟨cancels_djb2, cancels_djb2Xor, cancels_djb2.ne_of_differOnce, cancels_djb2Xor.ne_of_differOnce⟩

/-- Two words of one length, with a letter between two others that differs. -/
theorem folds_cancel_cat_cut :
    DifferOnce (utf8 "cat") (utf8 "cut") ∧
      HashPolicy.text.hash "cat" ≠ HashPolicy.text.hash "cut" ∧
      HashPolicy.bytes.hash (utf8 "cat") ≠ HashPolicy.bytes.hash (utf8 "cut") := by
  have hdiffer : DifferOnce (utf8 "cat") (utf8 "cut") :=
    differOnce_iff.mpr ⟨[99], [116], 97, 117, by decide, by decide +kernel, by decide +kernel⟩
  exact ⟨hdiffer, folds_cancel.2.2.1 hdiffer, folds_cancel.2.2.2 hdiffer⟩

end ChainedTable.Hash
