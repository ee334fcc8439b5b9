import Mwr.CodeLib.WideMul
import Mwr.Core.Udiv

/-!
# Products of 128 bits

A translation of the multiplications of `include/mwr/core/muldiv.h`.  Where the
compiler has no integers of 128 bits the product is put together from four
products of 32 bits.

* The lemmas `half_mul_*` bound the products and the sums of `umul64_slow`, and
  `umul64SlowChecked_eq` concludes that none of them overflows.
* The lemmas `toNat_t*` give the values that its variable `t` takes as the columns
  of `Mwr.CodeLib.WideMul`.
* `unsigned128_umul64Slow` and `unsigned128_int128` say that both paths return
  the product, so that they agree.
* `signed128_imul64Slow` is about the correction of the upper half for negative
  operands, and `signed128_int128` about the path without one.
-/

namespace Mwr.MulDiv

open Mwr.CodeLib.WideMul

/-! ## The code -/

/-- `(u32)x`, widened to `u64` again. -/
def low32 (x : UInt64) : UInt64 :=
  x.toUInt32.toUInt64

/-- `umul64_slow(hi, lo, a, b)`. -/
def umul64Slow (a b : UInt64) : UInt64 × UInt64 :=
  let u := low32 a
  let v := low32 b
  let t := u * v
  let w3 := low32 t
  let k := t >>> 32
  let a := a >>> 32
  let t := a * v + k
  let k := low32 t
  let w1 := t >>> 32
  let b := b >>> 32
  let t := u * b + k
  let k := t >>> 32
  (a * b + w1 + k, (t <<< 32) + w3)

/-- `umul64(hi, lo, a, b)`. -/
def umul64 (compiler : Compiler) (a b : UInt64) : UInt64 × UInt64 :=
  match compiler with
  | .int128 =>
    let result := a.toBitVec.setWidth 128 * b.toBitVec.setWidth 128
    (UInt64.ofBitVec ((result >>> 64).setWidth 64), UInt64.ofBitVec (result.setWidth 64))
  | .msvc => umul64Slow a b

/-- `imul64_slow(hi, lo, a, b)`. -/
def imul64Slow (compiler : Compiler) (a b : Int64) : Int64 × Int64 :=
  let product := umul64 compiler a.toUInt64 b.toUInt64
  let uhi := product.1
  let ulo := product.2
  let uhi := if b < 0 then uhi - a.toUInt64 else uhi
  let uhi := if a < 0 then uhi - b.toUInt64 else uhi
  (uhi.toInt64, ulo.toInt64)

/-- `imul64(hi, lo, a, b)`. -/
def imul64 (compiler : Compiler) (a b : Int64) : Int64 × Int64 :=
  match compiler with
  | .int128 =>
    let result := a.toBitVec.signExtend 128 * b.toBitVec.signExtend 128
    (Int64.ofBitVec ((result.sshiftRight 64).setWidth 64), Int64.ofBitVec (result.setWidth 64))
  | .msvc => imul64Slow compiler a b

/-! ## The code with every operation checked

`none` is a product or a sum that does not fit into 64 bits.  The shift of `t` to
the left is not checked: what it drops is kept in `k`. -/

def mulChecked (x y : UInt64) : Option UInt64 :=
  if x.toNat * y.toNat < 2 ^ 64 then some (x * y) else none

def addChecked (x y : UInt64) : Option UInt64 :=
  if x.toNat + y.toNat < 2 ^ 64 then some (x + y) else none

/-- `umul64_slow(hi, lo, a, b)`, checked. -/
def umul64SlowChecked (a b : UInt64) : Option (UInt64 × UInt64) := do
  let u := low32 a
  let v := low32 b
  let t ← mulChecked u v
  let w3 := low32 t
  let k := t >>> 32
  let a := a >>> 32
  let t ← addChecked (← mulChecked a v) k
  let k := low32 t
  let w1 := t >>> 32
  let b := b >>> 32
  let t ← addChecked (← mulChecked u b) k
  let k := t >>> 32
  let hi ← addChecked (← addChecked (← mulChecked a b) w1) k
  let lo ← addChecked (t <<< 32) w3
  return (hi, lo)

theorem mulChecked_eq_some {x y : UInt64} (h : x.toNat * y.toNat < 2 ^ 64) :
    mulChecked x y = some (x * y) ∧ (x * y).toNat = x.toNat * y.toNat := by
  refine ⟨if_pos h, ?_⟩
  rw [UInt64.toNat_mul, Nat.mod_eq_of_lt h]

theorem addChecked_eq_some {x y : UInt64} (h : x.toNat + y.toNat < 2 ^ 64) :
    addChecked x y = some (x + y) ∧ (x + y).toNat = x.toNat + y.toNat := by
  refine ⟨if_pos h, ?_⟩
  rw [UInt64.toNat_add, Nat.mod_eq_of_lt h]

/-! ## The portable product -/

theorem toNat_low32 (x : UInt64) : (low32 x).toNat = x.toNat % 2 ^ 32 := by
  rw [low32, UInt32.toNat_toUInt64, UInt64.toNat_toUInt32]

theorem toNat_shiftRight_32 (x : UInt64) : (x >>> 32).toNat = x.toNat / 2 ^ 32 := by
  rw [UInt64.toNat_shiftRight, Nat.shiftRight_eq_div_pow]
  rfl

theorem toNat_shiftLeft_32 (x : UInt64) : (x <<< 32).toNat = x.toNat % 2 ^ 32 * 2 ^ 32 := by
  have h : (x <<< 32).toNat = x.toNat * 2 ^ 32 % 2 ^ 64 := by
    rw [UInt64.toNat_shiftLeft, Nat.shiftLeft_eq]
    rfl
  omega

/-- The first value of `t`. -/
def t₀ (a b : UInt64) : UInt64 :=
  low32 a * low32 b

/-- The second value of `t`. -/
def t₁ (a b : UInt64) : UInt64 :=
  (a >>> 32) * low32 b + (t₀ a b >>> 32)

/-- The third value of `t`. -/
def t₂ (a b : UInt64) : UInt64 :=
  low32 a * (b >>> 32) + low32 (t₁ a b)

theorem umul64Slow_eq (a b : UInt64) :
    umul64Slow a b =
      ((a >>> 32) * (b >>> 32) + (t₁ a b >>> 32) + (t₂ a b >>> 32),
        (t₂ a b <<< 32) + low32 (t₀ a b)) :=
  rfl

/-- A word, as a number of two digits of 32 bits. -/
theorem toNat_lt_square (a : UInt64) : a.toNat < 2 ^ 32 * 2 ^ 32 :=
  UInt64.toNat_lt a

theorem high_word_lt (a : UInt64) : (a >>> 32).toNat < 2 ^ 32 := by
  rw [toNat_shiftRight_32]
  exact high_digit_lt (toNat_lt_square a)

theorem low_word_lt (a : UInt64) : (low32 a).toNat < 2 ^ 32 := by
  rw [toNat_low32]
  exact low_digit_lt (toNat_lt_square a)

/-- The product of two halves fits into a word. -/
theorem half_mul_lt {x y : UInt64} (hx : x.toNat < 2 ^ 32) (hy : y.toNat < 2 ^ 32) :
    x.toNat * y.toNat < 2 ^ 64 :=
  digit_mul_lt hx hy

/-- So does the product of two halves, increased by a third. -/
theorem half_mul_add_lt {x y c : UInt64} (hx : x.toNat < 2 ^ 32) (hy : y.toNat < 2 ^ 32)
    (hc : c.toNat < 2 ^ 32) : (x * y).toNat + c.toNat < 2 ^ 64 := by
  rw [(mulChecked_eq_some (half_mul_lt hx hy)).2]
  exact digit_mul_add_lt hx hy hc

/-- And one that is increased twice. -/
theorem half_mul_add_add_lt {x y c d : UInt64} (hx : x.toNat < 2 ^ 32) (hy : y.toNat < 2 ^ 32)
    (hc : c.toNat < 2 ^ 32) (hd : d.toNat < 2 ^ 32) :
    (x * y + c).toNat + d.toNat < 2 ^ 64 := by
  rw [(addChecked_eq_some (half_mul_add_lt hx hy hc)).2,
    (mulChecked_eq_some (half_mul_lt hx hy)).2]
  exact digit_mul_add_add_lt hx hy hc hd

/-- A word of which the lower half is free. -/
theorem shiftLeft_add_lt (t : UInt64) {w : UInt64} (hw : w.toNat < 2 ^ 32) :
    (t <<< 32).toNat + w.toNat < 2 ^ 64 := by
  rw [toNat_shiftLeft_32]
  omega

theorem umul64SlowChecked_eq (a b : UInt64) :
    umul64SlowChecked a b = some (umul64Slow a b) := by
  have hlow := low_word_lt
  have hhigh := high_word_lt
  have h₀ := mulChecked_eq_some (half_mul_lt (hlow a) (hlow b))
  have h₁ := mulChecked_eq_some (half_mul_lt (hhigh a) (hlow b))
  have h₁' := addChecked_eq_some (half_mul_add_lt (hhigh a) (hlow b) (hhigh (t₀ a b)))
  have h₂ := mulChecked_eq_some (half_mul_lt (hlow a) (hhigh b))
  have h₂' := addChecked_eq_some (half_mul_add_lt (hlow a) (hhigh b) (hlow (t₁ a b)))
  have h₃ := mulChecked_eq_some (half_mul_lt (hhigh a) (hhigh b))
  have h₃' := addChecked_eq_some (half_mul_add_lt (hhigh a) (hhigh b) (hhigh (t₁ a b)))
  have h₃'' := addChecked_eq_some
    (half_mul_add_add_lt (hhigh a) (hhigh b) (hhigh (t₁ a b)) (hhigh (t₂ a b)))
  have h₄ := addChecked_eq_some (shiftLeft_add_lt (t₂ a b) (hlow (t₀ a b)))
  simp only [t₁, t₂, t₀] at h₁' h₂' h₃' h₃'' h₄
  simp only [umul64SlowChecked, Option.bind_eq_bind, Option.bind_some, h₀.1, h₁.1, h₁'.1, h₂.1,
    h₂'.1, h₃.1, h₃'.1, h₃''.1, h₄.1]
  rfl

theorem toNat_t₀ (a b : UInt64) : (t₀ a b).toNat = column₀ (2 ^ 32) a.toNat b.toNat := by
  rw [t₀, (mulChecked_eq_some (half_mul_lt (low_word_lt a) (low_word_lt b))).2, toNat_low32,
    toNat_low32, column₀]

theorem toNat_t₁ (a b : UInt64) : (t₁ a b).toNat = column₁ (2 ^ 32) a.toNat b.toNat := by
  have ha := high_word_lt a
  have hb := low_word_lt b
  rw [t₁, (addChecked_eq_some (half_mul_add_lt ha hb (high_word_lt _))).2,
    (mulChecked_eq_some (half_mul_lt ha hb)).2, toNat_shiftRight_32, toNat_low32,
    toNat_shiftRight_32, toNat_t₀, column₁]

theorem toNat_t₂ (a b : UInt64) : (t₂ a b).toNat = column₂ (2 ^ 32) a.toNat b.toNat := by
  have ha := low_word_lt a
  have hb := high_word_lt b
  rw [t₂, (addChecked_eq_some (half_mul_add_lt ha hb (low_word_lt _))).2,
    (mulChecked_eq_some (half_mul_lt ha hb)).2, toNat_low32, toNat_shiftRight_32, toNat_low32,
    toNat_t₁, column₂]

theorem toNat_umul64Slow_fst (a b : UInt64) :
    (umul64Slow a b).1.toNat = mulHigh (2 ^ 32) a.toNat b.toNat := by
  have ha := high_word_lt a
  have hb := high_word_lt b
  have h₁ := high_word_lt (t₁ a b)
  rw [umul64Slow_eq, (addChecked_eq_some (half_mul_add_add_lt ha hb h₁ (high_word_lt _))).2,
    (addChecked_eq_some (half_mul_add_lt ha hb h₁)).2,
    (mulChecked_eq_some (half_mul_lt ha hb)).2]
  simp only [toNat_shiftRight_32, toNat_t₁, toNat_t₂, mulHigh]

theorem toNat_umul64Slow_snd (a b : UInt64) :
    (umul64Slow a b).2.toNat = mulLow (2 ^ 32) a.toNat b.toNat := by
  rw [umul64Slow_eq, (addChecked_eq_some (shiftLeft_add_lt _ (low_word_lt _))).2,
    toNat_shiftLeft_32, toNat_low32, toNat_t₂, toNat_t₀, mulLow]

theorem unsigned128_umul64Slow (a b : UInt64) :
    unsigned128 (umul64Slow a b).1 (umul64Slow a b).2 = a.toNat * b.toNat := by
  rw [unsigned128, toNat_umul64Slow_fst, toNat_umul64Slow_snd]
  exact mulHigh_mulLow (2 ^ 32) a.toNat b.toNat

/-! ## The product in 128 bits -/

/-- The halves of a number are determined by it. -/
theorem unsigned128_inj {p q : UInt64 × UInt64} (h : unsigned128 p.1 p.2 = unsigned128 q.1 q.2) :
    p = q := by
  have hp : p.2.toNat < 2 ^ 64 := UInt64.toNat_lt p.2
  have hq : q.2.toNat < 2 ^ 64 := UInt64.toNat_lt q.2
  rw [unsigned128, unsigned128] at h
  exact Prod.ext (UInt64.toNat_inj.mp (by omega)) (UInt64.toNat_inj.mp (by omega))

theorem mul_toNat_lt (a b : UInt64) : a.toNat * b.toNat < 2 ^ 128 := by
  have h : a.toNat * b.toNat < 2 ^ 64 * 2 ^ 64 :=
    digit_mul_lt (UInt64.toNat_lt a) (UInt64.toNat_lt b)
  omega

theorem unsigned128_int128 (a b : UInt64) :
    unsigned128 (umul64 .int128 a b).1 (umul64 .int128 a b).2 = a.toNat * b.toNat := by
  have hlt := mul_toNat_lt a b
  have hresult : (a.toBitVec.setWidth 128 * b.toBitVec.setWidth 128).toNat =
      a.toNat * b.toNat := by
    rw [BitVec.toNat_mul, toNat_setWidth_128, toNat_setWidth_128, Nat.mod_eq_of_lt hlt]
  rw [umul64, unsigned128, UInt64.toNat_ofBitVec, UInt64.toNat_ofBitVec, BitVec.toNat_setWidth,
    BitVec.toNat_setWidth, BitVec.toNat_ushiftRight, hresult, Nat.shiftRight_eq_div_pow]
  omega

theorem umul64_int128 (a b : UInt64) : umul64 .int128 a b = umul64Slow a b :=
  unsigned128_inj ((unsigned128_int128 a b).trans (unsigned128_umul64Slow a b).symm)

/-- Both paths return the product. -/
theorem unsigned128_umul64 (compiler : Compiler) (a b : UInt64) :
    unsigned128 (umul64 compiler a b).1 (umul64 compiler a b).2 = a.toNat * b.toNat := by
  cases compiler with
  | int128 => exact unsigned128_int128 a b
  | msvc => exact unsigned128_umul64Slow a b

/-! ## Signed operands -/

/-- The halves of a signed number are determined by it. -/
theorem signed128_inj {p q : Int64 × Int64}
    (h : signed128 p.1.toUInt64 p.2.toUInt64 = signed128 q.1.toUInt64 q.2.toUInt64) : p = q := by
  have hp : p.2.toUInt64.toNat < 2 ^ 64 := UInt64.toNat_lt _
  have hq : q.2.toUInt64.toNat < 2 ^ 64 := UInt64.toNat_lt _
  rw [signed128, signed128, Int64.toInt64_toUInt64, Int64.toInt64_toUInt64] at h
  have hlow : p.2.toUInt64 = q.2.toUInt64 := UInt64.toNat_inj.mp (by omega)
  exact Prod.ext (Int64.toInt_inj.mp (by omega)) (congrArg UInt64.toInt64 hlow)

/-- The product of two signed words is far from the ends of 128 bits. -/
theorem mul_toInt_bounds (a b : Int64) :
    -2 ^ 126 ≤ a.toInt * b.toInt ∧ a.toInt * b.toInt ≤ 2 ^ 126 := by
  have ha : a.toInt.natAbs ≤ 2 ^ 63 := by
    have h₁ := Int64.le_toInt a
    have h₂ := Int64.toInt_lt a
    omega
  have hb : b.toInt.natAbs ≤ 2 ^ 63 := by
    have h₁ := Int64.le_toInt b
    have h₂ := Int64.toInt_lt b
    omega
  have hmul : (a.toInt * b.toInt).natAbs ≤ 2 ^ 63 * 2 ^ 63 := by
    rw [Int.natAbs_mul]
    exact Nat.mul_le_mul ha hb
  omega

/-- A signed word in terms of its bits. -/
theorem toInt_eq_toNat (a : Int64) :
    a.toInt = (if a < 0 then a.toUInt64.toNat - 2 ^ 64 else a.toUInt64.toNat : Int) := by
  have h := toInt_toInt64 a.toUInt64
  have hlt : a.toUInt64.toNat < 2 ^ 64 := UInt64.toNat_lt _
  rw [Int64.toInt64_toUInt64] at h
  have hneg : a < 0 ↔ a.toInt < 0 := Int64.lt_iff_toInt_lt
  by_cases ha : a < 0
  · rw [if_pos ha]
    have := hneg.mp ha
    split at h <;> omega
  · rw [if_neg ha]
    have := mt hneg.mpr ha
    split at h <;> omega

/-- The upper half that `imul64_slow` starts from and the one it returns: each
negative operand takes the other one away. -/
theorem toNat_sub_ite (c : Prop) [Decidable c] (x y : UInt64) :
    ∃ wraps : Int, ((if c then x - y else x).toNat : Int) =
      x.toNat - (if c then y.toNat else 0 : Int) + wraps * 2 ^ 64 := by
  have hx : x.toNat < 2 ^ 64 := UInt64.toNat_lt x
  have hy : y.toNat < 2 ^ 64 := UInt64.toNat_lt y
  by_cases hc : c
  · rw [if_pos hc, if_pos hc, UInt64.toNat_sub]
    by_cases hle : y.toNat ≤ x.toNat
    · exact ⟨0, by omega⟩
    · exact ⟨1, by omega⟩
  · rw [if_neg hc, if_neg hc]
    exact ⟨0, by omega⟩

/-- Two halves hold a number that is small enough when they hold it modulo
`2 ^ 128`. -/
theorem signed128_eq_of_wraps {hi lo : UInt64} {n wraps : Int} (hle : -2 ^ 127 ≤ n)
    (hlt : n < 2 ^ 127) (h : (unsigned128 hi lo : Int) = n + wraps * 2 ^ 128) :
    signed128 hi lo = n := by
  have hhi : hi.toNat < 2 ^ 64 := UInt64.toNat_lt hi
  have hlo : lo.toNat < 2 ^ 64 := UInt64.toNat_lt lo
  rw [unsigned128] at h
  rw [signed128, toInt_toInt64]
  split <;> omega

/-- The signed product and the product of the bits. -/
theorem mul_toInt_eq (a b : Int64) :
    a.toInt * b.toInt =
      a.toUInt64.toNat * b.toUInt64.toNat -
        (if b < 0 then a.toUInt64.toNat else 0) * 2 ^ 64 -
        (if a < 0 then b.toUInt64.toNat else 0) * 2 ^ 64 +
        (if a < 0 ∧ b < 0 then 1 else 0) * 2 ^ 128 := by
  rw [toInt_eq_toNat a, toInt_eq_toNat b]
  by_cases ha : a < 0 <;> by_cases hb : b < 0 <;> simp only [ha, hb, if_true, if_false, and_self,
    and_true, and_false] <;> ring

theorem signed128_imul64Slow (compiler : Compiler) (a b : Int64) :
    signed128 (imul64Slow compiler a b).1.toUInt64 (imul64Slow compiler a b).2.toUInt64 =
      a.toInt * b.toInt := by
  have hproduct := congrArg (Nat.cast : Nat → Int)
    (unsigned128_umul64 compiler a.toUInt64 b.toUInt64)
  obtain ⟨i, hi⟩ := toNat_sub_ite (b < 0) (umul64 compiler a.toUInt64 b.toUInt64).1 a.toUInt64
  obtain ⟨j, hj⟩ := toNat_sub_ite (a < 0)
    (if b < 0 then (umul64 compiler a.toUInt64 b.toUInt64).1 - a.toUInt64
      else (umul64 compiler a.toUInt64 b.toUInt64).1) b.toUInt64
  have hbounds := mul_toInt_bounds a b
  -- two negative operands take `2 ^ 64` away from the upper half once too often
  have hwraps : (unsigned128 (imul64Slow compiler a b).1.toUInt64
      (imul64Slow compiler a b).2.toUInt64 : Int) =
        a.toInt * b.toInt + (i + j - if a < 0 ∧ b < 0 then 1 else 0) * 2 ^ 128 := by
    rw [mul_toInt_eq, imul64Slow, unsigned128]
    simp only [UInt64.toUInt64_toInt64]
    push_cast [unsigned128] at hproduct ⊢
    rw [hj, hi]
    linear_combination hproduct
  exact signed128_eq_of_wraps (by omega) (by omega) hwraps

/-! ## The signed product in 128 bits -/

/-- The halves of a number of 128 bits. -/
theorem signed128_halves {x : BitVec 128} (hle : -2 ^ 126 ≤ x.toInt) (hlt : x.toInt ≤ 2 ^ 126) :
    signed128 (Int64.ofBitVec ((x.sshiftRight 64).setWidth 64)).toUInt64
      (Int64.ofBitVec (x.setWidth 64)).toUInt64 = x.toInt := by
  have hhigh : (Int64.ofBitVec ((x.sshiftRight 64).setWidth 64)).toInt = x.toInt / 2 ^ 64 := by
    rw [ofBitVec_setWidth, BitVec.toInt_sshiftRight, Int.shiftRight_eq_div_pow]
    exact Int64.toInt_ofInt_of_le (by omega) (by omega)
  have hlow : (Int64.ofBitVec (x.setWidth 64)).toUInt64.toNat = x.toNat % 2 ^ 64 := by
    rw [Int64.toUInt64_ofBitVec, UInt64.toNat_ofBitVec, BitVec.toNat_setWidth]
  have hx := BitVec.toInt_eq_toNat_cond x
  rw [signed128, Int64.toInt64_toUInt64, hhigh, hlow]
  split at hx <;> omega

theorem signed128_int128 (a b : Int64) :
    signed128 (imul64 .int128 a b).1.toUInt64 (imul64 .int128 a b).2.toUInt64 =
      a.toInt * b.toInt := by
  have hbounds := mul_toInt_bounds a b
  have hresult : (a.toBitVec.signExtend 128 * b.toBitVec.signExtend 128).toInt =
      a.toInt * b.toInt := by
    rw [BitVec.toInt_mul, toInt_signExtend, toInt_signExtend]
    exact Int.bmod_eq_of_le (by omega) (by omega)
  rw [imul64, ← hresult]
  rw [← hresult] at hbounds
  exact signed128_halves hbounds.1 hbounds.2

theorem imul64_int128 (compiler : Compiler) (a b : Int64) :
    imul64 .int128 a b = imul64Slow compiler a b :=
  signed128_inj ((signed128_int128 a b).trans (signed128_imul64Slow compiler a b).symm)

/-! ## Both products together -/

/-- The portable product neither overflows on the way nor differs from the one
in 128 bits, and neither does the signed one that is put together from it. -/
theorem portable_products (compiler : Compiler) :
    (∀ a b : UInt64,
      umul64SlowChecked a b = some (umul64Slow a b) ∧
        unsigned128 (umul64Slow a b).1 (umul64Slow a b).2 = a.toNat * b.toNat ∧
        umul64 .int128 a b = umul64Slow a b) ∧
    (∀ a b : Int64,
      signed128 (imul64Slow compiler a b).1.toUInt64 (imul64Slow compiler a b).2.toUInt64 =
          a.toInt * b.toInt ∧
        imul64 .int128 a b = imul64Slow compiler a b) :=
  ⟨fun a b => ⟨umul64SlowChecked_eq a b, unsigned128_umul64Slow a b, umul64_int128 a b⟩,
    fun a b => ⟨signed128_imul64Slow compiler a b, imul64_int128 compiler a b⟩⟩

end Mwr.MulDiv
