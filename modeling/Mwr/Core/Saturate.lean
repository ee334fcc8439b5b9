import Mathlib.Algebra.Order.Group.Int
import Mathlib.Algebra.Ring.Int.Defs
import Mathlib.Algebra.Ring.Nat
import Mwr.CodeLib.Saturation

/-!
# Saturating addition and subtraction

A translation of `sat_add` and `sat_sub` of `include/mwr/core/saturate.h`.  The
width of the type is a parameter.  Operands that are narrower than `int` are
promoted to it before every operation, and the result is cut back when it is
assigned.  A comparison of unsigned operands is one of their values.

* `satAdd_eq` removes the promotions, and `satAdd_spec` compares the sum of two
  operands with the exact one.  There is one such lemma for each function.
* `satAdd_satSub_spec` is the result for two operands.
* `satAdd3_spec` does the same for three, from the order that the code takes the
  operands in.
-/

namespace Mwr.Saturate

open Mwr.CodeLib.Saturation

variable {w : Nat}

/-! ## The code -/

/-- The width of `int`, or of the operand where that is wider. -/
def promotedWidth (w : Nat) : Nat :=
  max w 32

/-- Integer promotion of an unsigned operand. -/
def promoteUnsigned (x : BitVec w) : BitVec (promotedWidth w) :=
  x.setWidth (promotedWidth w)

/-- Integer promotion of a signed operand. -/
def promoteSigned (x : BitVec w) : BitVec (promotedWidth w) :=
  x.signExtend (promotedWidth w)

/-- `sat_add(x, y, sat)`: the sum and the flag. -/
def satAdd (x y : BitVec w) : BitVec w × Bool :=
  let ux := x
  let uy := y
  let res := (promoteUnsigned ux + promoteUnsigned uy).setWidth w
  let sat := false
  let sh := w - 1
  let ux := ((promoteUnsigned ux >>> sh) + promoteSigned (BitVec.intMax w)).setWidth w
  if 0 ≤ (((promoteUnsigned ux ^^^ promoteUnsigned uy) |||
      ~~~(promoteUnsigned uy ^^^ promoteUnsigned res)).setWidth w).toInt then
    (ux, true)
  else
    (res, sat)

/-- `-(b)`, as an `int`. -/
def negBool (b : Bool) : BitVec 32 :=
  -(if b then 1#32 else 0#32)

/-- `sat_add(x, y, sat)` of an unsigned type. -/
def satAddUnsigned (x y : BitVec w) : BitVec w × Bool :=
  let res := (promoteUnsigned x + promoteUnsigned y).setWidth w
  let sat := decide (res < x)
  let mask := (negBool (decide (res < x))).signExtend (promotedWidth w)
  ((promoteUnsigned res ||| mask).setWidth w, sat)

/-- `sat_sub(x, y, sat)`: the difference and the flag. -/
def satSub (x y : BitVec w) : BitVec w × Bool :=
  let ux := x
  let uy := y
  let res := (promoteUnsigned ux - promoteUnsigned uy).setWidth w
  let sat := false
  let sh := w - 1
  let ux := ((promoteUnsigned ux >>> sh) + promoteSigned (BitVec.intMax w)).setWidth w
  if (((promoteUnsigned ux ^^^ promoteUnsigned uy) &&&
      (promoteUnsigned ux ^^^ promoteUnsigned res)).setWidth w).toInt < 0 then
    (ux, true)
  else
    (res, sat)

/-- `sat_sub(x, y, sat)` of an unsigned type. -/
def satSubUnsigned (x y : BitVec w) : BitVec w × Bool :=
  let res := (promoteUnsigned x - promoteUnsigned y).setWidth w
  let sat := !decide (res ≤ x)
  let mask := (negBool (decide (res ≤ x))).signExtend (promotedWidth w)
  ((promoteUnsigned res &&& mask).setWidth w, sat)

/-- `sat_add(x, y, z, sat)`: the sum and the flag. -/
def satAdd3 (x y z : BitVec w) : BitVec w × Bool :=
  let swap := ((promoteSigned y ^^^ promoteSigned z) &&&
    (promoteSigned x ^^^ promoteSigned z)).toInt < 0
  let a := if swap then z else y
  let b := if swap then y else z
  let first := satAdd x a
  let second := satAdd first.1 b
  (second.1, first.2 || second.2)

/-! ## Promotion -/

theorem le_promotedWidth (w : Nat) : w ≤ promotedWidth w :=
  Nat.le_max_left w 32

@[simp] theorem setWidth_promoteUnsigned (x : BitVec w) : (promoteUnsigned x).setWidth w = x := by
  rw [promoteUnsigned, BitVec.setWidth_setWidth_of_le _ (le_promotedWidth w), BitVec.setWidth_eq]

@[simp] theorem setWidth_promoteSigned (x : BitVec w) : (promoteSigned x).setWidth w = x := by
  apply BitVec.eq_of_getLsbD_eq
  intro i hi
  have hle := le_promotedWidth w
  rw [promoteSigned, BitVec.getLsbD_setWidth, BitVec.getLsbD_signExtend, if_pos hi]
  simp only [hi, hi.trans_le hle, decide_true, Bool.true_and]

theorem setWidth_promoteUnsigned_shiftRight (x : BitVec w) (sh : Nat) :
    (promoteUnsigned x >>> sh).setWidth w = x >>> sh := by
  apply BitVec.eq_of_toNat_eq
  have hlt : x.toNat >>> sh < 2 ^ w := (Nat.shiftRight_le _ _).trans_lt x.isLt
  rw [BitVec.toNat_setWidth, BitVec.toNat_ushiftRight, BitVec.toNat_ushiftRight, promoteUnsigned,
    BitVec.toNat_setWidth_of_le (le_promotedWidth w), Nat.mod_eq_of_lt hlt]

theorem toInt_promoteSigned (x : BitVec w) : (promoteSigned x).toInt = x.toInt :=
  BitVec.toInt_signExtend_of_le (le_promotedWidth w)

theorem msb_promoteSigned (x : BitVec w) : (promoteSigned x).msb = x.msb := by
  rw [BitVec.msb_eq_toInt, BitVec.msb_eq_toInt, toInt_promoteSigned]

theorem setWidth_sub_promoteUnsigned (x y : BitVec w) :
    (promoteUnsigned x - promoteUnsigned y).setWidth w = x - y := by
  have hle := le_promotedWidth w
  rw [BitVec.sub_eq_add_neg, BitVec.setWidth_add _ _ hle, BitVec.setWidth_neg_of_le hle,
    setWidth_promoteUnsigned, setWidth_promoteUnsigned, ← BitVec.sub_eq_add_neg]

/-- The mask that a comparison makes, in the width of the operands. -/
theorem setWidth_signExtend_negBool (b : Bool) :
    ((negBool b).signExtend (promotedWidth w)).setWidth w =
      if b then BitVec.allOnes w else 0#w := by
  apply BitVec.eq_of_getLsbD_eq
  intro i hi
  have hlt : i < promotedWidth w := Nat.lt_of_lt_of_le hi (le_promotedWidth w)
  rw [BitVec.getLsbD_setWidth, BitVec.getLsbD_signExtend, decide_eq_true hi, decide_eq_true hlt,
    Bool.true_and, Bool.true_and]
  cases b with
  | false =>
    rw [if_neg Bool.false_ne_true, show negBool false = 0#32 from rfl, BitVec.getLsbD_zero,
      BitVec.getLsbD_zero]
    exact ite_self _
  | true =>
    rw [if_pos rfl, show negBool true = BitVec.allOnes 32 from rfl, BitVec.getLsbD_allOnes,
      BitVec.getLsbD_allOnes, decide_eq_true hi]
    split
    next h => exact decide_eq_true h
    next => rfl

theorem satAdd_eq (x y : BitVec w) :
    satAdd x y =
      if 0 ≤ ((((x >>> (w - 1)) + BitVec.intMax w) ^^^ y) ||| ~~~(y ^^^ (x + y))).toInt then
        ((x >>> (w - 1)) + BitVec.intMax w, true)
      else
        (x + y, false) := by
  have hle := le_promotedWidth w
  simp only [satAdd, BitVec.setWidth_add _ _ hle, BitVec.setWidth_or, BitVec.setWidth_xor,
    BitVec.setWidth_not hle, setWidth_promoteUnsigned, setWidth_promoteSigned,
    setWidth_promoteUnsigned_shiftRight]

/-! ## Two operands -/

def minValue (w : Nat) : Int :=
  -2 ^ (w - 1)

def maxValue (w : Nat) : Int :=
  2 ^ (w - 1) - 1

/-- The sum is the value of the type that is nearest to `n`, and the flag says
whether it is another one. -/
def Saturated (result : BitVec w × Bool) (n : Int) : Prop :=
  result.1.toInt = clamp (minValue w) (maxValue w) n ∧
    (result.2 = true ↔ Outside (minValue w) (maxValue w) n)

theorem minValue_le_toInt (x : BitVec w) : minValue w ≤ x.toInt :=
  BitVec.le_toInt x

theorem toInt_le_maxValue (x : BitVec w) : x.toInt ≤ maxValue w :=
  Int.le_sub_one_of_lt BitVec.toInt_lt

theorem minValue_le_maxValue (w : Nat) : minValue w ≤ maxValue w :=
  (minValue_le_toInt 0#w).trans (toInt_le_maxValue 0#w)

theorem msb_eq_true_iff (x : BitVec w) : x.msb = true ↔ x.toInt < 0 := by
  rw [BitVec.msb_eq_toInt, decide_eq_true_iff]

/-- The shift leaves the sign bit. -/
theorem shiftRight_eq_sign (hw : 0 < w) (x : BitVec w) :
    x >>> (w - 1) = if x.msb then 1#w else 0#w := by
  have hx : x.toNat < 2 ^ w := x.isLt
  have hpow : 2 ^ w = 2 * 2 ^ (w - 1) := by
    rw [← Nat.pow_succ', Nat.succ_eq_add_one, Nat.sub_add_cancel hw]
  apply BitVec.eq_of_toNat_eq
  rw [BitVec.toNat_ushiftRight, Nat.shiftRight_eq_div_pow]
  by_cases hmsb : x.msb = true
  · have hle : 2 ^ (w - 1) ≤ x.toNat := by
      rwa [BitVec.msb_eq_decide, decide_eq_true_iff] at hmsb
    rw [if_pos hmsb, BitVec.toNat_one hw]
    exact Nat.div_eq_of_lt_le (by omega) (by omega)
  · have hlt : x.toNat < 2 ^ (w - 1) := by
      rwa [BitVec.msb_eq_decide, decide_eq_true_iff, Nat.not_le] at hmsb
    rw [if_neg hmsb, BitVec.toNat_zero]
    exact Nat.div_eq_of_lt hlt

/-- The value that the code prepares for a cut: the end of the range on the side
of `x`. -/
theorem shiftRight_add_intMax (hw : 0 < w) (x : BitVec w) :
    (x >>> (w - 1)) + BitVec.intMax w = if x.msb then BitVec.intMin w else BitVec.intMax w := by
  rw [shiftRight_eq_sign hw]
  by_cases hmsb : x.msb = true
  · rw [if_pos hmsb, if_pos hmsb, BitVec.add_comm, BitVec.intMax_add_one]
  · rw [if_neg hmsb, if_neg hmsb, BitVec.zero_add]

theorem msb_shiftRight_add_intMax (hw : 0 < w) (x : BitVec w) :
    ((x >>> (w - 1)) + BitVec.intMax w).msb = x.msb := by
  rw [shiftRight_add_intMax hw]
  by_cases hmsb : x.msb = true
  · rw [if_pos hmsb, hmsb, BitVec.msb_eq_toInt, BitVec.toInt_intMin_of_pos hw, decide_eq_true_iff]
    exact Int.neg_neg_of_pos (Int.pow_pos (by decide))
  · rw [if_neg hmsb, Bool.eq_false_iff.mpr hmsb, BitVec.msb_eq_toInt, BitVec.toInt_intMax,
      decide_eq_false_iff_not]
    exact Int.not_lt.mpr (Int.sub_nonneg_of_le (Int.pow_pos (by decide)))

/-- The condition of the code: both operands have one sign, and the wrapped sum
has the other. -/
theorem condition_iff (hw : 0 < w) (x y : BitVec w) :
    0 ≤ ((((x >>> (w - 1)) + BitVec.intMax w) ^^^ y) ||| ~~~(y ^^^ (x + y))).toInt ↔
      x.saddOverflow y = true := by
  rw [← not_lt, ← msb_eq_true_iff, BitVec.msb_or, BitVec.msb_xor, msb_shiftRight_add_intMax hw,
    BitVec.msb_not, BitVec.msb_xor, BitVec.saddOverflow_eq, decide_eq_true hw]
  cases x.msb <;> cases y.msb <;> cases (x + y).msb <;> decide

theorem satAdd_of_overflow (hw : 0 < w) {x y : BitVec w} (h : x.saddOverflow y = true) :
    satAdd x y = (if x.msb then BitVec.intMin w else BitVec.intMax w, true) := by
  rw [satAdd_eq, if_pos ((condition_iff hw x y).mpr h), shiftRight_add_intMax hw]

theorem satAdd_of_not_overflow (hw : 0 < w) {x y : BitVec w} (h : ¬ x.saddOverflow y = true) :
    satAdd x y = (x + y, false) := by
  rw [satAdd_eq, if_neg (mt (condition_iff hw x y).mp h)]

theorem saddOverflow_iff (x y : BitVec w) :
    x.saddOverflow y = true ↔ Outside (minValue w) (maxValue w) (x.toInt + y.toInt) := by
  rw [BitVec.saddOverflow, Outside, minValue, maxValue, Bool.or_eq_true, decide_eq_true_iff,
    decide_eq_true_iff]
  omega

/-- A cut gives the end of the range that the exact value lies beyond, if that is the one on the
side of `x`. -/
theorem saturated_of_outside (hw : 0 < w) {x : BitVec w} {n : Int}
    (hout : Outside (minValue w) (maxValue w) n) (hlo : n < minValue w → x.toInt < 0)
    (hhi : maxValue w < n → 0 ≤ x.toInt) :
    Saturated (if x.msb then BitVec.intMin w else BitVec.intMax w, true) n := by
  refine ⟨?_, iff_of_true rfl hout⟩
  rcases hout with hlt | hlt
  · rw [if_pos ((msb_eq_true_iff x).mpr (hlo hlt)), BitVec.toInt_intMin_of_pos hw,
      clamp_of_le_lo (minValue_le_maxValue w) hlt.le, minValue]
  · rw [if_neg (mt (msb_eq_true_iff x).mp (hhi hlt).not_gt), BitVec.toInt_intMax,
      clamp_of_hi_le (minValue_le_maxValue w) hlt.le, maxValue]

theorem saturated_of_not_outside {r : BitVec w}
    (hin : ¬ Outside (minValue w) (maxValue w) r.toInt) : Saturated (r, false) r.toInt :=
  ⟨(clamp_of_not_outside hin).symm, iff_of_false Bool.false_ne_true hin⟩

/-- Both operands of a sum above the range are positive. -/
theorem pos_of_maxValue_lt_add {x y : BitVec w} (h : maxValue w < x.toInt + y.toInt) :
    0 < x.toInt ∧ 0 < y.toInt :=
  ⟨pos_of_hi_lt_add (toInt_le_maxValue y) (Int.add_comm _ _ ▸ h),
    pos_of_hi_lt_add (toInt_le_maxValue x) h⟩

theorem neg_of_add_lt_minValue {x y : BitVec w} (h : x.toInt + y.toInt < minValue w) :
    x.toInt < 0 ∧ y.toInt < 0 :=
  ⟨neg_of_add_lt_lo (minValue_le_toInt y) (Int.add_comm _ _ ▸ h),
    neg_of_add_lt_lo (minValue_le_toInt x) h⟩

theorem satAdd_spec (hw : 0 < w) (x y : BitVec w) :
    Saturated (satAdd x y) (x.toInt + y.toInt) := by
  by_cases h : x.saddOverflow y = true
  · rw [satAdd_of_overflow hw h]
    exact saturated_of_outside hw ((saddOverflow_iff x y).mp h)
      (fun hlt => (neg_of_add_lt_minValue hlt).1) fun hlt => (pos_of_maxValue_lt_add hlt).1.le
  · have hin := mt (saddOverflow_iff x y).mpr h
    have hexact := BitVec.toInt_add_of_not_saddOverflow h
    rw [satAdd_of_not_overflow hw h, ← hexact]
    rw [← hexact] at hin
    exact saturated_of_not_outside hin

/-! ## Differences -/

theorem satSub_eq (x y : BitVec w) :
    satSub x y =
      if ((((x >>> (w - 1)) + BitVec.intMax w) ^^^ y) &&&
          (((x >>> (w - 1)) + BitVec.intMax w) ^^^ (x - y))).toInt < 0 then
        ((x >>> (w - 1)) + BitVec.intMax w, true)
      else
        (x - y, false) := by
  have hle := le_promotedWidth w
  simp only [satSub, BitVec.setWidth_add _ _ hle, BitVec.setWidth_and, BitVec.setWidth_xor,
    setWidth_promoteUnsigned, setWidth_promoteSigned, setWidth_promoteUnsigned_shiftRight,
    setWidth_sub_promoteUnsigned]

/-- The condition of the code: the operands have different signs, and the wrapped
difference has the one of the second operand. -/
theorem sub_condition_iff (hw : 0 < w) (x y : BitVec w) :
    ((((x >>> (w - 1)) + BitVec.intMax w) ^^^ y) &&&
        (((x >>> (w - 1)) + BitVec.intMax w) ^^^ (x - y))).toInt < 0 ↔
      x.ssubOverflow y = true := by
  rw [← msb_eq_true_iff, BitVec.msb_and, BitVec.msb_xor, BitVec.msb_xor,
    msb_shiftRight_add_intMax hw, BitVec.ssubOverflow_eq]
  cases x.msb <;> cases y.msb <;> cases (x - y).msb <;> decide

theorem satSub_of_overflow (hw : 0 < w) {x y : BitVec w} (h : x.ssubOverflow y = true) :
    satSub x y = (if x.msb then BitVec.intMin w else BitVec.intMax w, true) := by
  rw [satSub_eq, if_pos ((sub_condition_iff hw x y).mpr h), shiftRight_add_intMax hw]

theorem satSub_of_not_overflow (hw : 0 < w) {x y : BitVec w} (h : ¬ x.ssubOverflow y = true) :
    satSub x y = (x - y, false) := by
  rw [satSub_eq, if_neg (mt (sub_condition_iff hw x y).mp h)]

theorem ssubOverflow_iff (x y : BitVec w) :
    x.ssubOverflow y = true ↔ Outside (minValue w) (maxValue w) (x.toInt - y.toInt) := by
  rw [BitVec.ssubOverflow, Outside, minValue, maxValue, Bool.or_eq_true, decide_eq_true_iff,
    decide_eq_true_iff]
  omega

theorem satSub_spec (hw : 0 < w) (x y : BitVec w) :
    Saturated (satSub x y) (x.toInt - y.toInt) := by
  by_cases h : x.ssubOverflow y = true
  · -- the range reaches one further down than up
    have hends : minValue w + maxValue w = -1 := by
      rw [minValue, maxValue]
      omega
    have hymin := minValue_le_toInt y
    have hymax := toInt_le_maxValue y
    have hneg : x.toInt - y.toInt < minValue w → x.toInt < 0 := by omega
    have hnonneg : maxValue w < x.toInt - y.toInt → 0 ≤ x.toInt := by omega
    rw [satSub_of_overflow hw h]
    exact saturated_of_outside hw ((ssubOverflow_iff x y).mp h) hneg hnonneg
  · have hin := mt (ssubOverflow_iff x y).mpr h
    have hexact := BitVec.toInt_sub_of_not_ssubOverflow h
    rw [satSub_of_not_overflow hw h, ← hexact]
    rw [← hexact] at hin
    exact saturated_of_not_outside hin

/-! ## Unsigned operands -/

def maxUnsigned (w : Nat) : Int :=
  2 ^ w - 1

/-- `Saturated` for a type without negative values. -/
def SaturatedUnsigned (result : BitVec w × Bool) (n : Int) : Prop :=
  (result.1.toNat : Int) = clamp 0 (maxUnsigned w) n ∧
    (result.2 = true ↔ Outside 0 (maxUnsigned w) n)

theorem maxUnsigned_eq (w : Nat) : maxUnsigned w = ((2 ^ w - 1 : Nat) : Int) := by
  rw [maxUnsigned, Int.natCast_sub Nat.one_le_two_pow]
  push_cast
  rfl

theorem toNat_le_maxUnsigned (x : BitVec w) : (x.toNat : Int) ≤ maxUnsigned w := by
  rw [maxUnsigned_eq]
  exact Int.ofNat_le.2 (Nat.le_sub_one_of_lt x.isLt)

/-- A wrapped sum is below its operands. -/
theorem add_lt_iff (x y : BitVec w) : x + y < x ↔ x.uaddOverflow y = true := by
  have hx := x.isLt
  have hy := y.isLt
  rw [BitVec.lt_def, BitVec.toNat_add, BitVec.uaddOverflow, decide_eq_true_iff]
  by_cases h : 2 ^ w ≤ x.toNat + y.toNat
  · rw [Nat.mod_eq_sub_mod h, Nat.mod_eq_of_lt (by omega)]
    omega
  · rw [Nat.mod_eq_of_lt (by omega)]
    omega

/-- A wrapped difference is above its first operand. -/
theorem sub_le_iff (x y : BitVec w) : x - y ≤ x ↔ ¬ x.usubOverflow y = true := by
  have hx := x.isLt
  have hy := y.isLt
  rw [BitVec.le_def, BitVec.toNat_sub, BitVec.usubOverflow, decide_eq_true_iff]
  by_cases h : x.toNat < y.toNat
  · rw [Nat.mod_eq_of_lt (by omega)]
    omega
  · rw [show 2 ^ w - y.toNat + x.toNat = x.toNat - y.toNat + 2 ^ w by omega, Nat.add_mod_right,
      Nat.mod_eq_of_lt (by omega)]
    omega

theorem satAddUnsigned_eq (x y : BitVec w) :
    satAddUnsigned x y =
      if x.uaddOverflow y then (BitVec.allOnes w, true) else (x + y, false) := by
  have hle := le_promotedWidth w
  simp only [satAddUnsigned, BitVec.setWidth_or, BitVec.setWidth_add _ _ hle,
    setWidth_promoteUnsigned, setWidth_signExtend_negBool, add_lt_iff]
  by_cases h : x.uaddOverflow y = true
  · rw [if_pos (decide_eq_true h), if_pos h, BitVec.or_allOnes, decide_eq_true h]
  · rw [if_neg (by rwa [decide_eq_true_iff]), if_neg h, BitVec.or_zero, decide_eq_false h]

theorem satSubUnsigned_eq (x y : BitVec w) :
    satSubUnsigned x y = if x.usubOverflow y then (0#w, true) else (x - y, false) := by
  simp only [satSubUnsigned, BitVec.setWidth_and, setWidth_sub_promoteUnsigned,
    setWidth_promoteUnsigned, setWidth_signExtend_negBool, sub_le_iff]
  by_cases h : x.usubOverflow y = true
  · rw [if_neg (by rwa [decide_eq_true_iff, not_not]), if_pos h, BitVec.and_zero,
      decide_eq_false (not_not.2 h), Bool.not_false]
  · rw [if_pos (decide_eq_true h), if_neg h, BitVec.and_allOnes, decide_eq_true h, Bool.not_true]

theorem uaddOverflow_iff (x y : BitVec w) :
    x.uaddOverflow y = true ↔ Outside 0 (maxUnsigned w) (x.toNat + y.toNat) := by
  rw [BitVec.uaddOverflow, decide_eq_true_iff, Outside, maxUnsigned_eq]
  have hpos : 0 < 2 ^ w := Nat.two_pow_pos w
  omega

theorem usubOverflow_iff (x y : BitVec w) :
    x.usubOverflow y = true ↔ Outside 0 (maxUnsigned w) (x.toNat - y.toNat) := by
  have hx := toNat_le_maxUnsigned x
  rw [BitVec.usubOverflow, decide_eq_true_iff, Outside]
  omega

theorem zero_le_maxUnsigned (w : Nat) : 0 ≤ maxUnsigned w := by
  rw [maxUnsigned_eq]
  exact Int.natCast_nonneg _

theorem satAddUnsigned_spec (x y : BitVec w) :
    SaturatedUnsigned (satAddUnsigned x y) (x.toNat + y.toNat) := by
  rw [satAddUnsigned_eq]
  by_cases h : x.uaddOverflow y = true
  · have hout := (uaddOverflow_iff x y).mp h
    rw [if_pos h]
    refine ⟨?_, iff_of_true rfl hout⟩
    have hhi : maxUnsigned w ≤ x.toNat + y.toNat := by
      rcases hout with hlt | hlt
      · omega
      · exact hlt.le
    rw [BitVec.toNat_allOnes, clamp_of_hi_le (zero_le_maxUnsigned w) hhi, maxUnsigned_eq]
  · have hin := mt (uaddOverflow_iff x y).mpr h
    rw [if_neg h]
    refine ⟨?_, iff_of_false (by simp) hin⟩
    rw [BitVec.toNat_add_of_not_uaddOverflow h, clamp_of_not_outside hin]
    push_cast
    rfl

theorem satSubUnsigned_spec (x y : BitVec w) :
    SaturatedUnsigned (satSubUnsigned x y) (x.toNat - y.toNat) := by
  rw [satSubUnsigned_eq]
  by_cases h : x.usubOverflow y = true
  · have hout := (usubOverflow_iff x y).mp h
    rw [if_pos h]
    refine ⟨?_, iff_of_true rfl hout⟩
    have hlo : (x.toNat : Int) - y.toNat ≤ 0 := by
      rw [BitVec.usubOverflow, decide_eq_true_iff] at h
      omega
    rw [BitVec.toNat_zero, clamp_of_le_lo (zero_le_maxUnsigned w) hlo]
    rfl
  · have hin := mt (usubOverflow_iff x y).mpr h
    rw [if_neg h]
    refine ⟨?_, iff_of_false (by simp) hin⟩
    rw [BitVec.toNat_sub_of_not_usubOverflow h, clamp_of_not_outside hin]
    rw [BitVec.usubOverflow, decide_eq_true_iff, Nat.not_lt] at h
    exact Int.natCast_sub h

/-- The sums and the differences of two operands, for signed and for unsigned types. -/
theorem satAdd_satSub_spec (hw : 0 < w) (x y : BitVec w) :
    (Saturated (satAdd x y) (x.toInt + y.toInt) ∧
      SaturatedUnsigned (satAddUnsigned x y) (x.toNat + y.toNat)) ∧
    Saturated (satSub x y) (x.toInt - y.toInt) ∧
      SaturatedUnsigned (satSubUnsigned x y) (x.toNat - y.toNat) :=
  ⟨⟨satAdd_spec hw x y, satAddUnsigned_spec x y⟩, satSub_spec hw x y, satSubUnsigned_spec x y⟩

/-- Read as signed numbers the operands are `10` and `-120`. -/
theorem satAdd_satSub_spec_example :
    satSub (10 : BitVec 8) (-120) = (127, true) ∧
      Saturated (satSub (10 : BitVec 8) (-120)) 130 ∧
      satSubUnsigned (10 : BitVec 8) 136 = (0, true) ∧
      SaturatedUnsigned (satSubUnsigned (10 : BitVec 8) 136) (-126) :=
  ⟨by decide, (satAdd_satSub_spec (by decide) (10 : BitVec 8) (-120)).2.1, by decide,
    (satAdd_satSub_spec (by decide) (10 : BitVec 8) 136).2.2⟩

/-! ## Three operands -/

/-- Two sums in a row, when the last operand points the way that the first sum is
cut off. -/
theorem satAdd_satAdd_spec (hw : 0 < w) {x a b : BitVec w}
    (hhi : maxValue w < x.toInt + a.toInt → 0 ≤ b.toInt)
    (hlo : x.toInt + a.toInt < minValue w → b.toInt ≤ 0) :
    Saturated ((satAdd (satAdd x a).1 b).1, (satAdd x a).2 || (satAdd (satAdd x a).1 b).2)
      (x.toInt + a.toInt + b.toInt) := by
  have hfirst := satAdd_spec hw x a
  have hsecond := satAdd_spec hw (satAdd x a).1 b
  rw [hfirst.1] at hsecond
  constructor
  · rw [hsecond.1, clamp_clamp_add (minValue_le_maxValue w) hhi hlo]
  · rw [Bool.or_eq_true, hfirst.2, hsecond.2, outside_clamp_add_iff hhi hlo]

/-- The operands are swapped when the last one alone has its sign. -/
theorem swap_iff (x y z : BitVec w) :
    ((promoteSigned y ^^^ promoteSigned z) &&& (promoteSigned x ^^^ promoteSigned z)).toInt < 0 ↔
      ¬ (y.toInt < 0 ↔ z.toInt < 0) ∧ ¬ (x.toInt < 0 ↔ z.toInt < 0) := by
  rw [← msb_eq_true_iff, ← msb_eq_true_iff x, ← msb_eq_true_iff y, ← msb_eq_true_iff z,
    BitVec.msb_and, BitVec.msb_xor, BitVec.msb_xor, msb_promoteSigned, msb_promoteSigned,
    msb_promoteSigned]
  cases x.msb <;> cases y.msb <;> cases z.msb <;> decide

/-- Whatever the signs, the three operands add up as if the type had no ends, and
one cut is made at the end. -/
theorem satAdd3_spec (hw : 0 < w) (x y z : BitVec w) :
    Saturated (satAdd3 x y z) (x.toInt + y.toInt + z.toInt) := by
  by_cases hswap : ((promoteSigned y ^^^ promoteSigned z) &&&
      (promoteSigned x ^^^ promoteSigned z)).toInt < 0
  · -- the first two operands have different signs, so that their sum is not cut off
    have hsigns := (swap_iff x y z).mp hswap
    have hhi : maxValue w < x.toInt + z.toInt → 0 ≤ y.toInt := by
      intro h
      have hpos := pos_of_maxValue_lt_add h
      omega
    have hlo : x.toInt + z.toInt < minValue w → y.toInt ≤ 0 := by
      intro h
      have hneg := neg_of_add_lt_minValue h
      omega
    simp only [satAdd3, if_pos hswap]
    rw [Int.add_right_comm]
    exact satAdd_satAdd_spec hw hhi hlo
  · -- the last operand has the sign of one of the first two
    have hsigns := mt (swap_iff x y z).mpr hswap
    have hhi : maxValue w < x.toInt + y.toInt → 0 ≤ z.toInt := by
      intro h
      have hpos := pos_of_maxValue_lt_add h
      omega
    have hlo : x.toInt + y.toInt < minValue w → z.toInt ≤ 0 := by
      intro h
      have hneg := neg_of_add_lt_minValue h
      omega
    simp only [satAdd3, if_neg hswap]
    exact satAdd_satAdd_spec hw hhi hlo

theorem satAdd3_spec_example :
    Saturated (satAdd3 (120 : BitVec 8) 100 (-128))
      ((120 : BitVec 8).toInt + (100 : BitVec 8).toInt + (-128 : BitVec 8).toInt) :=
  satAdd3_spec (by decide) 120 100 (-128)

end Mwr.Saturate
