import Mathlib.RingTheory.Coprime.Lemmas
import Mwr.CodeLib.Crc

/-!
# The errors that a cyclic redundancy check finds

Two lists of bits of the same length have the same remainder if the generator divides their
difference, up to the bits that it does not see (`divide_eq_iff`).

* `Burst n` says that two lists of bits differ within a window of `n` bits.
  `divide_ne_of_burst` finds each such error, if the window is not wider than the register and
  the generator has a constant coefficient.
* `divide_ne_of_odd` finds an odd number of errors if `X + 1` divides the generator.
* `divide_msbFirst_self` is the remainder of a message that ends with its own remainder.
-/

namespace Mwr.CodeLib.Crc

open Polynomial

variable {w n : Nat} {poly r : BitVec w} {bits bits' : List Bool}

/-! ## Messages -/

theorem message_append (bits bits' : List Bool) :
    message (bits ++ bits') = X ^ bits'.length * message bits + message bits' := by
  induction bits' using List.reverseRecOn with
  | nil =>
    rw [List.append_nil, List.length_nil, pow_zero, one_mul]
    exact (add_zero _).symm
  | append_singleton bits' b ih =>
    rw [← List.append_assoc, message_concat, message_concat, ih, List.length_append,
      List.length_singleton]
    ring

theorem degree_message_lt (bits : List Bool) : (message bits).degree < bits.length := by
  rw [degree_lt_iff_coeff_zero]
  intro i hi
  rw [coeff_message, List.getElem?_eq_none]
  · rfl
  · rw [List.length_reverse]
    exact hi

/-- The polynomial of a message determines its bits. -/
theorem eq_of_message (hlen : bits.length = bits'.length) (h : message bits = message bits') :
    bits = bits' := by
  apply List.reverse_injective
  apply List.ext_getElem (by rw [List.length_reverse, List.length_reverse, hlen])
  intro i hi hi'
  have hcoeff := congrArg (Polynomial.coeff · i) h
  simp only [coeff_message, List.getElem?_eq_getElem hi, List.getElem?_eq_getElem hi',
    Option.getD_some] at hcoeff
  exact coefficient_injective hcoeff

/-- The value at one counts the bits that are set. -/
theorem eval_one_message (bits : List Bool) :
    (message bits).eval 1 = (bits.count true : ZMod 2) := by
  induction bits using List.reverseRecOn with
  | nil => exact eval_zero
  | append_singleton bits b ih =>
    rw [message_concat, eval_add, eval_mul, eval_X, one_mul, eval_C, ih, List.count_append,
      Nat.cast_add]
    cases b <;> rfl

/-! ## Remainders -/

/-- Two messages have the same remainder if the generator divides their difference.  The
register that both start with does not matter. -/
theorem divide_eq_iff (hlen : bits.length = bits'.length) :
    divide poly r bits = divide poly r bits' ↔
      generator poly ∣ X ^ w * (message bits - message bits') := by
  have hdiff : X ^ bits.length * toPoly r + X ^ w * message bits -
      (X ^ bits'.length * toPoly r + X ^ w * message bits') =
      X ^ w * (message bits - message bits') := by
    rw [hlen]
    ring
  rw [← toPoly_injective.eq_iff, toPoly_divide, toPoly_divide, ← sub_eq_zero, ← sub_modByMonic,
    modByMonic_eq_zero_iff_dvd (monic_generator poly), hdiff]

theorem divide_eq_of_divide_eq (r' : BitVec w) (hlen : bits.length = bits'.length)
    (h : divide poly r bits = divide poly r bits') :
    divide poly r' bits = divide poly r' bits' :=
  (divide_eq_iff hlen).2 ((divide_eq_iff hlen).1 h)

/-- A generator with a constant coefficient has no power of `X` as a factor. -/
theorem isCoprime_generator (hpoly : poly.getLsbD 0 = true) :
    IsCoprime (generator poly) X := by
  have hw : 0 < w := by
    by_contra hw
    rw [BitVec.getLsbD_of_ge poly 0 (Nat.le_of_not_lt hw)] at hpoly
    cases hpoly
  have hconstant : (generator poly).coeff 0 = 1 := by
    rw [generator, coeff_add, coeff_X_pow, if_neg (Nat.ne_of_lt hw), zero_add, coeff_toPoly, hpoly]
    rfl
  have hsplit := divX_mul_X_add (generator poly)
  rw [hconstant, C_1] at hsplit
  refine ⟨1, -(generator poly).divX, ?_⟩
  linear_combination -hsplit

/-- Two lists of bits that differ within a window of `n` bits. -/
def Burst (n : Nat) (bits bits' : List Bool) : Prop :=
  ∃ before mid mid' behind, mid.length = mid'.length ∧ mid.length ≤ n ∧
    bits = before ++ mid ++ behind ∧ bits' = before ++ mid' ++ behind

theorem Burst.length (h : Burst n bits bits') : bits.length = bits'.length := by
  obtain ⟨before, mid, mid', behind, hlen, -, rfl, rfl⟩ := h
  simp only [List.length_append, hlen]

/-- A burst that is not longer than the register changes the remainder. -/
theorem divide_ne_of_burst (hpoly : poly.getLsbD 0 = true) (h : Burst w bits bits')
    (hne : bits ≠ bits') : divide poly r bits ≠ divide poly r bits' := by
  intro heq
  have hdvd := (divide_eq_iff h.length).1 heq
  obtain ⟨before, mid, mid', behind, hlen, hle, rfl, rfl⟩ := h
  have hdiff : message (before ++ mid ++ behind) - message (before ++ mid' ++ behind) =
      X ^ behind.length * (message mid - message mid') := by
    rw [message_append, message_append, message_append, message_append, hlen]
    ring
  rw [hdiff] at hdvd
  -- the generator divides the window itself, whose degree is too small
  have hwindow : generator poly ∣ message mid - message mid' :=
    ((isCoprime_generator hpoly).pow_right).dvd_of_dvd_mul_left
      (((isCoprime_generator hpoly).pow_right).dvd_of_dvd_mul_left hdvd)
  have hdegree : (message mid - message mid').degree < (generator poly).degree := by
    rw [degree_generator]
    refine lt_of_lt_of_le (lt_of_le_of_lt (degree_sub_le _ _) (max_lt (degree_message_lt mid) ?_))
      (Nat.cast_le.2 hle)
    rw [hlen]
    exact degree_message_lt mid'
  have hzero := eq_zero_of_dvd_of_degree_lt hwindow hdegree
  exact hne (by rw [eq_of_message hlen (sub_eq_zero.1 hzero)])

/-- An odd number of errors changes the remainder if `X + 1` is a factor of the generator. -/
theorem divide_ne_of_odd (hroot : (generator poly).eval 1 = 0) (hlen : bits.length = bits'.length)
    (hodd : bits.count true % 2 ≠ bits'.count true % 2) :
    divide poly r bits ≠ divide poly r bits' := by
  intro heq
  obtain ⟨q, hq⟩ := (divide_eq_iff hlen).1 heq
  have heval := congrArg (Polynomial.eval 1) hq
  rw [eval_mul, eval_mul, hroot, zero_mul, eval_pow, eval_X, one_pow, one_mul, eval_sub,
    eval_one_message, eval_one_message, sub_eq_zero] at heval
  exact hodd ((ZMod.natCast_eq_natCast_iff' _ _ 2).1 heval)

/-! ## Codewords -/

/-- A remainder that is divided in turn leaves nothing. -/
theorem divide_msbFirst_self (poly r : BitVec w) : divide poly r (msbFirst r) = 0#w := by
  have hall : r.extractLsb' (w - w) w = r := by
    rw [Nat.sub_self]
    exact BitVec.extractLsb'_eq_self
  apply toPoly_injective
  rw [divide_msbFirst poly r r (Nat.le_refl w), hall, BitVec.xor_self,
    BitVec.shiftLeft_eq_zero (Nat.le_refl w), BitVec.zero_xor, toPoly_divide, message_msbFirst,
    toPoly_zero, mul_zero, mul_zero, add_zero, zero_modByMonic]

theorem msbFirst_injective : Function.Injective (msbFirst (n := n)) := by
  intro x y h
  apply toPoly_injective
  rw [← message_msbFirst, ← message_msbFirst, h]

theorem lsbFirst_injective : Function.Injective (lsbFirst (n := n)) := by
  intro x y h
  rw [← msbFirst_reverse, ← msbFirst_reverse] at h
  have hreverse := msbFirst_injective h
  rw [← BitVec.reverse_reverse_eq (x := x), hreverse, BitVec.reverse_reverse_eq]

/-- Words of the same size are known from their bits. -/
theorem flatMap_injective {f : BitVec n → List Bool} (hf : Function.Injective f)
    (hlen : ∀ x, (f x).length = n) {xs ys : List (BitVec n)} (hxs : xs.length = ys.length)
    (h : xs.flatMap f = ys.flatMap f) : xs = ys := by
  induction xs generalizing ys with
  | nil => exact (List.eq_nil_of_length_eq_zero hxs.symm).symm
  | cons x xs ih =>
    cases ys with
    | nil => cases hxs
    | cons y ys =>
      rw [List.flatMap_cons, List.flatMap_cons] at h
      obtain ⟨hhead, htail⟩ := List.append_inj h (by rw [hlen, hlen])
      rw [hf hhead, ih (Nat.succ.inj hxs) htail]

end Mwr.CodeLib.Crc
