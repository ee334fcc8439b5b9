import Mathlib.Algebra.Ring.Nat
import Mathlib.Tactic.Common

/-!
# Fields of a bit vector

The field of `n` bits at a position of a vector is read with `BitVec.extractLsb'`, and
`splice` puts another value there.

* `getLsbD_splice` gives the bits of the new vector, and `getLsbD_ones` those of a mask.
* `extractLsb'_splice` and `splice_extractLsb'` are the laws for one field, and
  `splice_comm` and `extractLsb'_splice_of_apart` those for two that do not overlap.
-/

namespace Mwr.CodeLib.BitField

variable {w n m start start' : Nat}

/-- The vector with `x` in the field from the bit `start` on. -/
def splice (v : BitVec w) (start : Nat) (x : BitVec n) : BitVec w :=
  (v &&& ~~~((BitVec.allOnes n).setWidth w <<< start)) ||| (x.setWidth w <<< start)

/-- Two fields do not overlap. -/
def Apart (start n start' m : Nat) : Prop := start + n ≤ start' ∨ start' + m ≤ start

/-- The mask of the lowest bits. -/
theorem getLsbD_ones (h : n < w) {i : Nat} (hi : i < w) :
    ((1#w <<< n) - 1#w).getLsbD i = decide (i < n) := by
  have hpow : 2 ^ n < 2 ^ w := Nat.pow_lt_pow_right (by decide) h
  have hpos : 0 < 2 ^ n := Nat.two_pow_pos n
  have hval : (1#w <<< n) - 1#w = BitVec.ofNat w (2 ^ n - 1) := by
    apply BitVec.eq_of_toNat_eq
    have hone : 1 < 2 ^ w := Nat.one_lt_two_pow (by omega)
    rw [BitVec.toNat_sub, BitVec.toNat_shiftLeft, BitVec.toNat_ofNat, BitVec.toNat_ofNat,
      Nat.mod_eq_of_lt hone, Nat.one_shiftLeft, Nat.mod_eq_of_lt hpow]
    have hsum : 2 ^ w - 1 + 2 ^ n = (2 ^ n - 1) + 2 ^ w := by omega
    rw [hsum, Nat.add_mod_right]
  rw [hval, BitVec.getLsbD_ofNat, Nat.testBit_two_pow_sub_one, decide_eq_true hi, Bool.true_and]

/-- The bits above a mask are those of the multiple of a power of two. -/
theorem toNat_and_not_ones (x : BitVec w) (h : n < w) :
    (x &&& ~~~((1#w <<< n) - 1#w)).toNat = x.toNat / 2 ^ n * 2 ^ n := by
  have hshift : x &&& ~~~((1#w <<< n) - 1#w) = (x >>> n) <<< n := by
    apply BitVec.eq_of_getLsbD_eq
    intro i hi
    rw [BitVec.getLsbD_and, BitVec.getLsbD_not, getLsbD_ones h hi, BitVec.getLsbD_shiftLeft,
      BitVec.getLsbD_ushiftRight, decide_eq_true hi, Bool.true_and]
    by_cases hn : i < n
    · simp [hn]
    · simp [hn, Nat.add_sub_cancel' (Nat.le_of_not_lt hn)]
  rw [hshift, BitVec.toNat_shiftLeft, BitVec.toNat_ushiftRight, Nat.shiftLeft_eq,
    Nat.shiftRight_eq_div_pow]
  exact Nat.mod_eq_of_lt (Nat.lt_of_le_of_lt (Nat.div_mul_le_self _ _) x.isLt)

theorem getLsbD_splice (v : BitVec w) (x : BitVec n) {i : Nat} (hi : i < w) :
    (splice v start x).getLsbD i =
      if start ≤ i ∧ i < start + n then x.getLsbD (i - start) else v.getLsbD i := by
  have hlt : i - start < w := Nat.lt_of_le_of_lt (Nat.sub_le i start) hi
  rw [splice, BitVec.getLsbD_or, BitVec.getLsbD_and, BitVec.getLsbD_not, BitVec.getLsbD_shiftLeft,
    BitVec.getLsbD_shiftLeft, BitVec.getLsbD_setWidth, BitVec.getLsbD_setWidth,
    BitVec.getLsbD_allOnes]
  simp only [hi, hlt, decide_true, Bool.true_and]
  by_cases hstart : i < start
  · rw [if_neg (by omega)]
    simp [hstart]
  · by_cases hstop : i - start < n
    · rw [if_pos (by omega)]
      simp [hstart, hstop]
    · rw [if_neg (by omega), BitVec.getLsbD_of_ge x _ (Nat.le_of_not_lt hstop)]
      simp [hstop]

theorem getLsbD_splice_of_outside (v : BitVec w) (x : BitVec n) {i : Nat} (hi : i < w)
    (h : i < start ∨ start + n ≤ i) : (splice v start x).getLsbD i = v.getLsbD i := by
  rw [getLsbD_splice v x hi, if_neg (by omega)]

/-- An empty field cannot be changed. -/
theorem splice_empty (v : BitVec w) (start : Nat) (x : BitVec 0) : splice v start x = v := by
  apply BitVec.eq_of_getLsbD_eq
  intro i hi
  exact getLsbD_splice_of_outside v x hi (by omega)

/-- A field that has been replaced reads as the new value. -/
theorem extractLsb'_splice (v : BitVec w) (x : BitVec n) (h : start + n ≤ w) :
    (splice v start x).extractLsb' start n = x := by
  apply BitVec.eq_of_getLsbD_eq
  intro i hi
  rw [BitVec.getLsbD_extractLsb', getLsbD_splice v x (by omega), if_pos (by omega),
    decide_eq_true hi, Bool.true_and, Nat.add_sub_cancel_left]

/-- A field that is replaced with its own value does not change. -/
theorem splice_extractLsb' (v : BitVec w) (start n : Nat) :
    splice v start (v.extractLsb' start n) = v := by
  apply BitVec.eq_of_getLsbD_eq
  intro i hi
  rw [getLsbD_splice v _ hi]
  split
  next h =>
    rw [BitVec.getLsbD_extractLsb', decide_eq_true (by omega), Bool.true_and,
      Nat.add_sub_cancel' h.1]
  next => rfl

theorem splice_comm (v : BitVec w) (x : BitVec n) (y : BitVec m)
    (h : Apart start n start' m) :
    splice (splice v start x) start' y = splice (splice v start' y) start x := by
  unfold Apart at h
  apply BitVec.eq_of_getLsbD_eq
  intro i hi
  rw [getLsbD_splice _ y hi, getLsbD_splice _ x hi, getLsbD_splice _ x hi, getLsbD_splice _ y hi]
  split
  next hy => rw [if_neg (by omega)]
  next => rfl

theorem extractLsb'_splice_of_apart (v : BitVec w) (y : BitVec m)
    (h : Apart start n start' m) :
    (splice v start' y).extractLsb' start n = v.extractLsb' start n := by
  unfold Apart at h
  apply BitVec.eq_of_getLsbD_eq
  intro i hi
  rw [BitVec.getLsbD_extractLsb', BitVec.getLsbD_extractLsb']
  by_cases hw : start + i < w
  · rw [getLsbD_splice_of_outside v y hw (by omega)]
  · rw [BitVec.getLsbD_of_ge _ _ (Nat.le_of_not_lt hw),
      BitVec.getLsbD_of_ge _ _ (Nat.le_of_not_lt hw)]

end Mwr.CodeLib.BitField
