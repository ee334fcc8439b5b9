import Mathlib.Algebra.Field.ZMod
import Mathlib.Algebra.Polynomial.Monic
import Mathlib.Algebra.Polynomial.OfFn
import Mathlib.Algebra.Polynomial.RingDivision
import Mathlib.Tactic.LinearCombination

/-!
# Cyclic redundancy checks

A register of `w` bits stands for a polynomial over `ZMod 2`, the bit `i` being the
coefficient of `X ^ i`.  A check with the polynomial `poly` divides by
`generator poly = X ^ w + toPoly poly`.

* `step` shifts one bit into the register and `divide` a list of bits.  `toPoly_divide` says
  that the register is then the remainder of the whole division.
* `divide_msbFirst` is the step for `n` bits at once, which a table can look up.
* `reflectedByte` does the same with the register the other way round, and
  `reverse_reflected` is how the two are related.
* `divide_append_zero` is for a register that is wider than the polynomial.
-/

namespace Mwr.CodeLib.Crc

open Polynomial

variable {w n : Nat}

/-! ## Polynomials -/

/-- The coefficient for a bit. -/
def coefficient (b : Bool) : ZMod 2 := if b then 1 else 0

theorem coefficient_xor (a b : Bool) :
    coefficient (a ^^ b) = coefficient a + coefficient b := by
  cases a <;> cases b <;> decide

theorem coefficient_injective : Function.Injective coefficient := by
  intro a b
  cases a <;> cases b <;> decide

/-- The polynomial of a register. -/
noncomputable def toPoly (r : BitVec w) : (ZMod 2)[X] :=
  Polynomial.ofFn w fun i => coefficient (r.getLsbD i)

theorem coeff_toPoly (r : BitVec w) (i : Nat) :
    (toPoly r).coeff i = coefficient (r.getLsbD i) := by
  by_cases hi : i < w
  · exact Polynomial.ofFn_coeff_eq_val_of_lt _ hi
  · rw [BitVec.getLsbD_of_ge r i (Nat.le_of_not_lt hi)]
    exact Polynomial.ofFn_coeff_eq_zero_of_ge _ (Nat.le_of_not_lt hi)

theorem toPoly_injective : Function.Injective (toPoly (w := w)) := by
  intro r s h
  apply BitVec.eq_of_getLsbD_eq
  intro i _
  apply coefficient_injective
  rw [← coeff_toPoly, ← coeff_toPoly, h]

theorem toPoly_xor (r s : BitVec w) : toPoly (r ^^^ s) = toPoly r + toPoly s := by
  ext i
  rw [coeff_add, coeff_toPoly, coeff_toPoly, coeff_toPoly, BitVec.getLsbD_xor, coefficient_xor]

theorem toPoly_zero : toPoly 0#w = 0 := by
  ext i
  rw [coeff_toPoly, BitVec.getLsbD_zero]
  rfl

theorem degree_toPoly_lt (r : BitVec w) : (toPoly r).degree < w := Polynomial.ofFn_degree_lt _

/-- A shift to the left multiplies, apart from the bits that are shifted out. -/
theorem toPoly_shiftLeft (r : BitVec w) (h : n ≤ w) :
    X ^ n * toPoly r = toPoly (r <<< n) + X ^ w * toPoly (r.extractLsb' (w - n) n) := by
  ext i
  rw [coeff_add, coeff_X_pow_mul', coeff_X_pow_mul', coeff_toPoly, coeff_toPoly, coeff_toPoly,
    BitVec.getLsbD_shiftLeft, BitVec.getLsbD_extractLsb']
  by_cases hw : i < w
  · rw [if_neg (Nat.not_le.2 hw), add_zero, decide_eq_true hw, Bool.true_and]
    by_cases hn : n ≤ i
    · rw [if_pos hn, decide_eq_false (Nat.not_lt.2 hn)]
      rfl
    · rw [if_neg hn, decide_eq_true (Nat.lt_of_not_le hn)]
      rfl
  · rw [if_pos (by omega : n ≤ i), if_pos (Nat.le_of_not_lt hw), decide_eq_false hw,
      Bool.false_and, Bool.false_and, show coefficient false = 0 from rfl, zero_add]
    by_cases hn : i - w < n
    · rw [decide_eq_true hn, Bool.true_and]
      congr 2
      omega
    · rw [decide_eq_false hn, BitVec.getLsbD_of_ge r _ (by omega), Bool.false_and]

/-- The polynomial that a check divides by. -/
noncomputable def generator (poly : BitVec w) : (ZMod 2)[X] := X ^ w + toPoly poly

theorem monic_generator (poly : BitVec w) : (generator poly).Monic :=
  monic_X_pow_add (degree_toPoly_lt poly)

theorem degree_generator (poly : BitVec w) : (generator poly).degree = w := by
  rw [generator, degree_add_eq_left_of_degree_lt, degree_X_pow]
  rw [degree_X_pow]
  exact degree_toPoly_lt poly

/-- A register holds remainders. -/
theorem toPoly_modByMonic (poly r : BitVec w) : toPoly r %ₘ generator poly = toPoly r := by
  rw [modByMonic_eq_self_iff (monic_generator poly), degree_generator]
  exact degree_toPoly_lt r

/-! ## Division -/

/-- A bit is shifted into the register. -/
def step (poly r : BitVec w) (b : Bool) : BitVec w :=
  if r.msb ^^ b then (r <<< 1) ^^^ poly else r <<< 1

/-- Bit-serial division. -/
def divide (poly r : BitVec w) (bits : List Bool) : BitVec w := bits.foldl (step poly) r

/-- The polynomial of a list of bits.  The first bit is the leading coefficient. -/
noncomputable def message (bits : List Bool) : (ZMod 2)[X] :=
  bits.foldl (fun m b => X * m + C (coefficient b)) 0

theorem divide_append (poly r : BitVec w) (bits bits' : List Bool) :
    divide poly r (bits ++ bits') = divide poly (divide poly r bits) bits' :=
  List.foldl_append

theorem message_concat (bits : List Bool) (b : Bool) :
    message (bits ++ [b]) = X * message bits + C (coefficient b) :=
  List.foldl_append

/-- The bit that leaves the register is the leading coefficient. -/
theorem toPoly_shiftLeft_one (r : BitVec w) :
    X * toPoly r = toPoly (r <<< 1) + X ^ w * C (coefficient r.msb) := by
  rcases Nat.eq_zero_or_pos w with rfl | hw
  · have hzero : ∀ s : BitVec 0, toPoly s = 0 := fun s => (BitVec.eq_nil s) ▸ toPoly_zero
    rw [hzero, hzero, mul_zero, BitVec.msb_of_zero_length rfl]
    exact ((zero_add _).trans ((congrArg _ C_0).trans (mul_zero _))).symm
  · have hmsb : toPoly (r.extractLsb' (w - 1) 1) = C (coefficient r.msb) := by
      ext i
      rw [coeff_toPoly, BitVec.getLsbD_extractLsb', coeff_C, BitVec.msb_eq_getLsbD_last]
      cases i with
      | zero => rfl
      | succ i => rw [if_neg (Nat.succ_ne_zero i), decide_eq_false (by omega), Bool.false_and]; rfl
    rw [← hmsb, ← toPoly_shiftLeft r hw, pow_one]

theorem toPoly_step (poly r : BitVec w) (b : Bool) :
    toPoly (step poly r b) =
      (X * toPoly r + X ^ w * C (coefficient b)) %ₘ generator poly := by
  -- the quotient is the bit that is compared in the step
  have hquotient : toPoly (step poly r b) + generator poly * C (coefficient (r.msb ^^ b)) =
      X * toPoly r + X ^ w * C (coefficient b) := by
    rw [toPoly_shiftLeft_one, add_assoc, ← mul_add, ← C_add, ← coefficient_xor, step, generator]
    cases r.msb ^^ b with
    | true =>
      have hdouble : toPoly poly + toPoly poly = 0 := CharTwo.add_self_eq_zero _
      rw [if_pos rfl, toPoly_xor, show C (coefficient true) = (1 : (ZMod 2)[X]) from C_1]
      linear_combination hdouble
    | false =>
      rw [if_neg Bool.false_ne_true, show C (coefficient false) = (0 : (ZMod 2)[X]) from C_0,
        mul_zero, mul_zero]
  have hdegree : (toPoly (step poly r b)).degree < (generator poly).degree := by
    rw [degree_generator]
    exact degree_toPoly_lt _
  exact (div_modByMonic_unique _ _ (monic_generator poly) ⟨hquotient, hdegree⟩).2.symm

theorem toPoly_divide (poly r : BitVec w) (bits : List Bool) :
    toPoly (divide poly r bits) =
      (X ^ bits.length * toPoly r + X ^ w * message bits) %ₘ generator poly := by
  induction bits using List.reverseRecOn with
  | nil =>
    have hempty : X ^ ([] : List Bool).length * toPoly r + X ^ w * message [] = toPoly r := by
      rw [List.length_nil, pow_zero, one_mul]
      exact (congrArg _ (mul_zero _)).trans (add_zero _)
    rw [hempty, toPoly_modByMonic]
    rfl
  | append_singleton bits b ih =>
    have hlast : divide poly r (bits ++ [b]) = step poly (divide poly r bits) b :=
      divide_append poly r bits [b]
    rw [hlast, toPoly_step, ih, message_concat, List.length_append, List.length_singleton]
    apply modByMonic_eq_of_dvd_sub (monic_generator poly)
    obtain ⟨q, hq⟩ := dvd_modByMonic_sub
      (X ^ bits.length * toPoly r + X ^ w * message bits) (generator poly)
    refine ⟨X * q, ?_⟩
    linear_combination X * hq

/-! ## Whole words -/

/-- The bits of a word from the highest to the lowest. -/
def msbFirst (x : BitVec n) : List Bool := (List.range n).map fun i => x.getMsbD i

/-- The bits of a word from the lowest to the highest. -/
def lsbFirst (x : BitVec n) : List Bool := (List.range n).map fun i => x.getLsbD i

theorem length_msbFirst (x : BitVec n) : (msbFirst x).length = n := by
  rw [msbFirst, List.length_map, List.length_range]

theorem length_flatMap_msbFirst (xs : List (BitVec n)) :
    (xs.flatMap msbFirst).length = n * xs.length := by
  induction xs with
  | nil => rfl
  | cons x xs ih =>
    rw [List.flatMap_cons, List.length_append, length_msbFirst, ih, List.length_cons]
    ring

theorem msbFirst_reverse (x : BitVec n) : msbFirst x.reverse = lsbFirst x := by
  simp only [msbFirst, lsbFirst, BitVec.getMsbD_reverse]

theorem coeff_message (bits : List Bool) (i : Nat) :
    (message bits).coeff i = coefficient (bits.reverse[i]?.getD false) := by
  induction bits using List.reverseRecOn generalizing i with
  | nil => exact coeff_zero i
  | append_singleton bits b ih =>
    rw [message_concat, coeff_add, List.reverse_append, List.reverse_singleton,
      List.singleton_append, coeff_C]
    cases i with
    | zero =>
      rw [coeff_X_mul_zero, zero_add, if_pos rfl]
      rfl
    | succ i =>
      rw [coeff_X_mul, if_neg (Nat.succ_ne_zero i), add_zero, List.getElem?_cons_succ, ih]

theorem message_msbFirst (x : BitVec n) : message (msbFirst x) = toPoly x := by
  ext i
  rw [coeff_message, coeff_toPoly]
  congr 1
  by_cases hi : i < n
  · have hlast : n - 1 - i < n := by omega
    rw [List.getElem?_reverse (by rwa [length_msbFirst]), length_msbFirst, msbFirst,
      List.getElem?_map, List.getElem?_range hlast, Option.map_some, Option.getD_some,
      BitVec.getMsbD, decide_eq_true hlast, Bool.true_and]
    congr 1
    omega
  · rw [BitVec.getLsbD_of_ge x i (Nat.le_of_not_lt hi), List.getElem?_eq_none]
    · rfl
    · rw [List.length_reverse, length_msbFirst]
      exact Nat.le_of_not_lt hi

/-- A division by whole words: the bits that leave the register are divided with the word, and
the others move up. -/
theorem divide_msbFirst (poly r : BitVec w) (x : BitVec n) (h : n ≤ w) :
    divide poly r (msbFirst x) =
      (r <<< n) ^^^ divide poly 0#w (msbFirst (r.extractLsb' (w - n) n ^^^ x)) := by
  apply toPoly_injective
  rw [toPoly_xor, toPoly_divide, toPoly_divide, length_msbFirst, length_msbFirst,
    message_msbFirst, message_msbFirst, toPoly_shiftLeft r h, toPoly_zero, mul_zero, zero_add,
    toPoly_xor, add_assoc, ← mul_add, add_modByMonic, toPoly_modByMonic]

/-! ## A register that is too wide -/

/-- A register with `n` bits that the polynomial does not have keeps them at zero. -/
theorem step_append_zero (poly r : BitVec w) (b : Bool) (hw : 0 < w) :
    step (poly ++ 0#n) (r ++ 0#n) b = step poly r b ++ 0#n := by
  have hmsb : (r ++ 0#n).msb = r.msb := by
    rw [BitVec.msb_append, if_neg (Nat.ne_of_gt hw)]
  have hshift : (r ++ 0#n) <<< 1 = (r <<< 1) ++ 0#n := by
    apply BitVec.eq_of_getLsbD_eq
    intro i hi
    rw [BitVec.getLsbD_shiftLeft, BitVec.getLsbD_append, BitVec.getLsbD_append,
      BitVec.getLsbD_shiftLeft, BitVec.getLsbD_zero, BitVec.getLsbD_zero, decide_eq_true hi,
      Bool.true_and]
    by_cases hn : i < n
    · rw [if_pos hn, if_pos (by omega : i - 1 < n), Bool.and_false]
    · have hw : i - n < w := by omega
      rw [if_neg hn, decide_eq_true hw, Bool.true_and]
      rcases Nat.eq_or_lt_of_le (Nat.le_of_not_lt hn) with rfl | hlt
      · rw [decide_eq_true (by omega : n - n < 1)]
        by_cases hn0 : n < 1
        · rw [decide_eq_true hn0]
          rfl
        · rw [if_pos (by omega : n - 1 < n), Bool.and_false]
          rfl
      · rw [if_neg (by omega : ¬ i - 1 < n), decide_eq_false (by omega : ¬ i < 1),
          decide_eq_false (by omega : ¬ i - n < 1), Nat.sub_right_comm]
  rw [step, step, hmsb, hshift]
  split
  next => rw [BitVec.xor_append, BitVec.xor_self]
  next => rfl

theorem divide_append_zero (poly r : BitVec w) (bits : List Bool) (hw : 0 < w) :
    divide (poly ++ 0#n) (r ++ 0#n) bits = divide poly r bits ++ 0#n := by
  induction bits generalizing r with
  | nil => rfl
  | cons b bits ih =>
    exact (congrArg (divide _ · bits) (step_append_zero poly r b hw)).trans (ih (step poly r b))

/-! ## Reflected registers -/

/-- A zero bit is shifted into a register whose lowest bit is the leading coefficient. -/
def reflectedStep (poly c : BitVec w) : BitVec w :=
  if c.getLsbD 0 then (c >>> 1) ^^^ poly else c >>> 1

/-- A word is added to the register, and then shifted out of it. -/
def reflectedWord (poly c : BitVec w) (x : BitVec n) : BitVec w :=
  (reflectedStep poly)^[n] (c ^^^ x.setWidth w)

/-- The check of a list of words with the lowest bits first. -/
def reflected (poly c : BitVec w) (xs : List (BitVec n)) : BitVec w :=
  xs.foldl (reflectedWord poly) c

theorem reverse_xor (a b : BitVec w) : (a ^^^ b).reverse = a.reverse ^^^ b.reverse := by
  apply BitVec.eq_of_getLsbD_eq
  intro i _
  rw [BitVec.getLsbD_xor, BitVec.getLsbD_reverse, BitVec.getLsbD_reverse, BitVec.getLsbD_reverse,
    BitVec.getMsbD_xor]

theorem reverse_reflectedStep (poly c : BitVec w) :
    (reflectedStep poly c).reverse = step poly.reverse c.reverse false := by
  have hshift : (c >>> 1).reverse = c.reverse <<< 1 := by
    apply BitVec.eq_of_getLsbD_eq
    intro i hi
    rw [BitVec.getLsbD_reverse, BitVec.getMsbD_ushiftRight, BitVec.getLsbD_shiftLeft,
      BitVec.getLsbD_reverse, decide_eq_true hi, Bool.true_and]
    rfl
  rw [reflectedStep, step, BitVec.msb_reverse, Bool.xor_false]
  split
  next => rw [reverse_xor, hshift]
  next => exact hshift

theorem reverse_iterate_reflectedStep (poly c : BitVec w) (k : Nat) :
    ((reflectedStep poly)^[k] c).reverse =
      divide poly.reverse c.reverse (List.replicate k false) := by
  induction k generalizing c with
  | zero => rfl
  | succ k ih =>
    rw [Function.iterate_succ_apply, ih, reverse_reflectedStep]
    rfl

/-- A word that is added to the register has the place of its bits in the division. -/
theorem toPoly_reverse_setWidth (x : BitVec n) (h : n ≤ w) :
    X ^ n * toPoly (x.setWidth w).reverse = X ^ w * message (lsbFirst x) := by
  ext i
  rw [← msbFirst_reverse, message_msbFirst, coeff_X_pow_mul', coeff_X_pow_mul', coeff_toPoly,
    coeff_toPoly, BitVec.getLsbD_reverse, BitVec.getLsbD_reverse, BitVec.getMsbD, BitVec.getMsbD,
    BitVec.getLsbD_setWidth]
  by_cases hw : w ≤ i
  · rw [if_pos hw, if_pos (le_trans h hw)]
    by_cases hn : i - w < n
    · rw [decide_eq_true hn, decide_eq_true (by omega : i - n < w),
        decide_eq_true (by omega : w - 1 - (i - n) < w), Bool.true_and, Bool.true_and]
      congr 2
      omega
    · rw [decide_eq_false hn, decide_eq_false (by omega : ¬ i - n < w)]
      rfl
  · rw [if_neg hw]
    split
    next hn =>
      have hout : n ≤ w - 1 - (i - n) := by omega
      rw [BitVec.getLsbD_of_ge x _ hout, Bool.and_false, Bool.and_false]
      rfl
    next => rfl

theorem message_replicate_false (k : Nat) : message (List.replicate k false) = 0 := by
  induction k with
  | zero => rfl
  | succ k ih =>
    rw [List.replicate_succ', message_concat, ih, mul_zero, zero_add]
    exact C_0

theorem reverse_reflectedWord (poly c : BitVec w) (x : BitVec n) (h : n ≤ w) :
    (reflectedWord poly c x).reverse = divide poly.reverse c.reverse (lsbFirst x) := by
  apply toPoly_injective
  rw [reflectedWord, reverse_iterate_reflectedStep, toPoly_divide, toPoly_divide,
    List.length_replicate, message_replicate_false, mul_zero, add_zero, reverse_xor, toPoly_xor,
    mul_add, toPoly_reverse_setWidth x h, ← msbFirst_reverse, length_msbFirst]

/-- The register of a reflected check is that of a division of the lowest bits first, with the
bits the other way round. -/
theorem reverse_reflected (poly c : BitVec w) (xs : List (BitVec n)) (h : n ≤ w) :
    (reflected poly c xs).reverse = divide poly.reverse c.reverse (xs.flatMap lsbFirst) := by
  induction xs generalizing c with
  | nil => rfl
  | cons x xs ih =>
    rw [List.flatMap_cons, divide_append, ← reverse_reflectedWord poly c x h, ← ih]
    rfl

end Mwr.CodeLib.Crc
