import Mwr.CodeLib.BitCount
import Mwr.CodeLib.CInt

/-!
# Counting bits

A translation of `popcnt`, `ctz`, `clz`, `ffs` and `fls` of `include/mwr/core/bitops.h`.
All of them convert their argument to 64 bits for a builtin of the compiler.

* `Counts` says that the results are those of the argument's own bit pattern.
* The conversion of a negative number puts ones in front of the pattern.  `ctz` and `ffs`
  do not see them, the others do.
* `counts_iff` is the result for all functions together.
-/

namespace Mwr.Bitops

open Mwr.CodeLib.BitCount
open Mwr.CodeLib.CInt

/-- The compilers that the header tells apart. -/
inductive Compiler where
  | gcc
  /-- `MWR_MSVC`. -/
  | msvc
  deriving DecidableEq, Repr

variable {T : IntType} {v : Value T}

/-! ## The code -/

/-- `width_of(val)`. -/
def widthOf (T : IntType) : BitVec 64 := BitVec.ofNat 64 T.bits

/-- `(unsigned long long)val`. -/
def toULL (T : IntType) (val : Value T) : BitVec 64 := castTo T val 64

/-- `popcnt(val)`, with `__builtin_popcountll` or `__popcnt64`. -/
def popcnt (T : IntType) (val : Value T) : BitVec 64 := (toULL T val).cpop

/-- `ctz(val)`, with `__builtin_ctzll` or `_tzcnt_u64`. -/
def ctz (T : IntType) (val : Value T) : BitVec 64 :=
  if val ≠ 0#T.bits then (toULL T val).ctz else widthOf T

/-- `clz(val)`, with `__builtin_clzll` or `__lzcnt64`. -/
def clz (T : IntType) (val : Value T) : BitVec 64 :=
  if val ≠ 0#T.bits then (toULL T val).clz - (64 - widthOf T) else widthOf T

/-- `__builtin_ffsll(x)`. -/
def builtinFfsll (x : BitVec 64) : BitVec 32 :=
  if x = 0#64 then 0 else x.ctz.setWidth 32 + 1

/-- `ffs(val)`. -/
def ffs (compiler : Compiler) (T : IntType) (val : Value T) : BitVec 32 :=
  match compiler with
  | .gcc => builtinFfsll (toULL T val) - 1
  | .msvc => if val ≠ 0#T.bits then (ctz T val).setWidth 32 else -1

/-- `fls(val)`. -/
def fls (T : IntType) (val : Value T) : BitVec 32 :=
  (widthOf T).setWidth 32 - (clz T val).setWidth 32 - 1

/-! ## What the functions are for -/

/-- The index of a bit, or `-1` if there is none. -/
def IsIndex {w : Nat} (P : BitVec w → Nat → Prop) (x : BitVec w) (n : Int) : Prop :=
  x = 0#w ∧ n = -1 ∨ ∃ i : Nat, n = i ∧ P x i

/-- All functions give the result for the bit pattern of the argument. -/
structure Counts (compiler : Compiler) (T : IntType) (v : Value T) : Prop where
  popcnt : (popcnt T v).toNat = (BitVec.cpop v).toNat
  clz : (clz T v).toNat = (BitVec.clz v).toNat
  ctz : (ctz T v).toNat = (BitVec.ctz v).toNat
  fls : IsIndex IsHighest v (fls T v).toInt
  ffs : IsIndex IsLowest v (ffs compiler T v).toInt

/-- The conversion to 64 bits puts zeros in front of the pattern. -/
def Extends (T : IntType) (v : Value T) : Prop :=
  T.width = .w64 ∨ 0 ≤ toInt T v

/-! ## The conversion -/

theorem toNat_widthOf (T : IntType) : (widthOf T).toNat = T.bits := by
  rw [widthOf, BitVec.toNat_ofNat]
  exact Nat.mod_eq_of_lt (Nat.lt_of_le_of_lt T.bits_le (by decide))

theorem getLsbD_toULL {j : Nat} (hj : j < T.bits) : (toULL T v).getLsbD j = v.getLsbD j :=
  getLsbD_castTo_of_lt T v hj (Nat.lt_of_lt_of_le hj T.bits_le)

/-- The builtins find the lowest bit of the argument. -/
theorem isLowest_toULL {i : Nat} (h : IsLowest v i) : IsLowest (toULL T v) i := by
  refine ⟨(getLsbD_toULL h.lt).trans h.1, fun j hj => ?_⟩
  rw [getLsbD_toULL (Nat.lt_trans hj h.lt)]
  exact h.2 j hj

theorem toULL_of_extends (h : Extends T v) : toULL T v = v.setWidth 64 := by
  unfold toULL castTo
  split
  next hsigned =>
    rcases h with h | h
    · have hbits : T.bits = 64 := by rw [IntType.bits, h]; rfl
      exact BitVec.signExtend_eq_setWidth_of_le v (Nat.le_of_eq hbits.symm)
    · rw [toInt, if_pos hsigned] at h
      refine BitVec.signExtend_eq_setWidth_of_msb_false ?_
      rw [BitVec.msb_eq_toInt]
      exact decide_eq_false (Int.not_lt.2 h)
  next => rfl

theorem toULL_of_not_extends (h : ¬ Extends T v) :
    v.msb = true ∧ T.bits < 64 ∧ toULL T v = v.signExtend 64 := by
  obtain ⟨hwidth, hneg⟩ := not_or.1 h
  have hsigned : T.signed = true := by
    by_contra hsigned
    rw [toInt, if_neg hsigned] at hneg
    exact hneg (Int.natCast_nonneg _)
  rw [toInt, if_pos hsigned, Int.not_le] at hneg
  refine ⟨?_, ?_, if_pos hsigned⟩
  · rw [BitVec.msb_eq_toInt]
    exact decide_eq_true hneg
  · obtain ⟨_, width⟩ := T
    cases width with
    | w8 | w16 | w32 => exact Nat.lt_of_sub_pos (Nat.succ_pos _)
    | w64 => exact absurd rfl hwidth

/-! ## The functions one by one -/

theorem popcnt_iff (T : IntType) (v : Value T) :
    (popcnt T v).toNat = (BitVec.cpop v).toNat ↔ Extends T v := by
  constructor
  · intro h
    by_contra hext
    obtain ⟨hmsb, hbits, hcast⟩ := toULL_of_not_extends hext
    have hle := BitVec.toNat_cpop_le v
    rw [popcnt, hcast, BitVec.signExtend_eq_not_setWidth_not_of_msb_true hmsb,
      BitVec.toNat_cpop_not, BitVec.toNat_cpop_setWidth_eq_of_le (Nat.le_of_lt hbits),
      BitVec.toNat_cpop_not] at h
    omega
  · intro h
    rw [popcnt, toULL_of_extends h, BitVec.toNat_cpop_setWidth_eq_of_le T.bits_le]

theorem toNat_ctz_eq (T : IntType) (v : Value T) : (ctz T v).toNat = (BitVec.ctz v).toNat := by
  unfold ctz
  split
  next h =>
    obtain ⟨i, hi⟩ := exists_isLowest h
    rw [toNat_ctz hi, toNat_ctz (isLowest_toULL hi)]
  next h =>
    rw [not_not.1 h, toNat_widthOf]
    exact (toNat_ctz_zero T.bits).symm

theorem extends_zero (T : IntType) : Extends T (0#T.bits : Value T) := by
  right
  unfold toInt
  split
  next => exact Int.le_of_eq BitVec.toInt_zero.symm
  next => exact Int.natCast_nonneg _

/-- What `clz` gives where the highest bit is not hidden by the conversion. -/
theorem toNat_clz_of_extends (h : Extends T v) {i : Nat} (hi : IsHighest v i) :
    (clz T v).toNat = T.bits - 1 - i := by
  have hle := T.bits_le
  have hlt := hi.lt
  have hbuiltin : (toULL T v).clz.toNat = 64 - 1 - i := by
    rw [toULL_of_extends h]
    exact toNat_clz (hi.setWidth hle)
  have hwidth : (64 - widthOf T).toNat = 64 - T.bits := by
    rw [BitVec.toNat_sub_of_le (by rw [BitVec.le_def, toNat_widthOf]; exact hle), toNat_widthOf]
    rfl
  rw [clz, if_pos (ne_zero_of_getLsbD hi.1), BitVec.toNat_sub_of_le, hbuiltin, hwidth]
  · omega
  · rw [BitVec.le_def, hbuiltin, hwidth]
    omega

/-- Where it is hidden, the builtin finds no zeros, and the correction for the width of the
type wraps around. -/
theorem toNat_clz_of_not_extends (h : ¬ Extends T v) :
    (clz T v).toNat = 2 ^ 64 - (64 - T.bits) := by
  obtain ⟨hmsb, hbits, hcast⟩ := toULL_of_not_extends h
  have hv : v ≠ 0#T.bits := fun h0 => h (h0 ▸ extends_zero T)
  have hhigh : IsHighest (toULL T v) 63 := by
    refine ⟨?_, fun j hj => BitVec.getLsbD_of_ge _ _ hj⟩
    rw [hcast, BitVec.getLsbD_signExtend, if_neg (by omega), hmsb]
    rfl
  have hbuiltin : (toULL T v).clz.toNat = 0 := toNat_clz hhigh
  have hwidth := toNat_widthOf T
  rw [clz, if_pos hv, BitVec.toNat_sub, BitVec.toNat_sub, hbuiltin, hwidth]
  simp only [BitVec.reduceToNat]
  omega

theorem clz_iff (T : IntType) (v : Value T) :
    (clz T v).toNat = (BitVec.clz v).toNat ↔ Extends T v := by
  constructor
  · intro h
    by_contra hext
    have hle : (BitVec.clz v).toNat ≤ T.bits := by
      rcases eq_or_ne v 0#T.bits with rfl | hv
      · exact Nat.le_of_eq (toNat_clz_zero T.bits)
      · obtain ⟨i, hi⟩ := exists_isHighest hv
        rw [toNat_clz hi]
        omega
    have hbits := (toULL_of_not_extends hext).2.1
    rw [toNat_clz_of_not_extends hext] at h
    omega
  · intro h
    rcases eq_or_ne v 0#T.bits with rfl | hv
    · rw [clz, if_neg (not_not.2 rfl), toNat_widthOf, toNat_clz_zero]
    · obtain ⟨i, hi⟩ := exists_isHighest hv
      rw [toNat_clz_of_extends h hi, toNat_clz hi]

/-- The subtractions of `fls`, for a number of leading zeros. -/
theorem toNat_fls (T : IntType) (v : Value T) :
    (fls T v).toNat = (T.bits + 2 ^ 33 - (clz T v).toNat % 2 ^ 32 - 1) % 2 ^ 32 := by
  have hwidth := toNat_widthOf T
  have hle := T.bits_le
  simp only [fls, BitVec.toNat_sub, BitVec.toNat_setWidth, hwidth, BitVec.reduceToNat]
  omega

theorem toInt_of_toNat {x : BitVec 32} {i : Nat} (h : x.toNat = i) (hi : i < 2 ^ 31) :
    x.toInt = i := by
  rw [BitVec.toInt_eq_toNat_of_lt (by omega), h]

theorem fls_iff (T : IntType) (v : Value T) :
    IsIndex IsHighest v (fls T v).toInt ↔ Extends T v := by
  have hle := T.bits_le
  have hfls := toNat_fls T v
  constructor
  · intro h
    by_contra hext
    have hbits := (toULL_of_not_extends hext).2.1
    rw [toNat_clz_of_not_extends hext] at hfls
    have h63 : (fls T v).toInt = 63 := toInt_of_toNat (i := 63) (by omega) (by decide)
    rw [h63] at h
    rcases h with ⟨-, h⟩ | ⟨i, hi, hhigh⟩
    · omega
    · have := hhigh.lt
      omega
  · intro h
    rcases eq_or_ne v 0#T.bits with rfl | hv
    · left
      refine ⟨rfl, ?_⟩
      rw [(clz_iff T _).2 h, toNat_clz_zero] at hfls
      have hneg : fls T 0#T.bits = BitVec.allOnes 32 := by
        apply BitVec.eq_of_toNat_eq
        rw [BitVec.toNat_allOnes]
        omega
      rw [hneg]
      rfl
    · right
      obtain ⟨i, hi⟩ := exists_isHighest hv
      have hlt := hi.lt
      rw [toNat_clz_of_extends h hi] at hfls
      exact ⟨i, toInt_of_toNat (by omega) (by omega), hi⟩

theorem isIndex_ffs (compiler : Compiler) (T : IntType) (v : Value T) :
    IsIndex IsLowest v (ffs compiler T v).toInt := by
  have hle := T.bits_le
  rcases eq_or_ne v 0#T.bits with rfl | hv
  · left
    refine ⟨rfl, ?_⟩
    cases compiler with
    | gcc =>
      have hzero : toULL T 0#T.bits = 0#64 := by
        rw [toULL_of_extends (extends_zero T), BitVec.setWidth_zero]
      rw [ffs, hzero]
      rfl
    | msvc =>
      rw [ffs, if_neg (not_not.2 rfl)]
      rfl
  · right
    obtain ⟨i, hi⟩ := exists_isLowest hv
    have hlt := hi.lt
    have hlow := isLowest_toULL hi
    have hbuiltin : (toULL T v).ctz.toNat = i := toNat_ctz hlow
    refine ⟨i, toInt_of_toNat ?_ (by omega), hi⟩
    cases compiler with
    | gcc =>
      rw [ffs, builtinFfsll, if_neg (ne_zero_of_getLsbD hlow.1), BitVec.add_sub_cancel,
        BitVec.toNat_setWidth, hbuiltin]
      exact Nat.mod_eq_of_lt (by omega)
    | msvc =>
      rw [ffs, if_pos hv, ctz, if_pos hv, BitVec.toNat_setWidth, hbuiltin]
      exact Nat.mod_eq_of_lt (by omega)

/-! ## All functions -/

/-- The functions count the bits of the argument's own pattern if and only if it is 64 bits
wide or not negative. -/
theorem counts_iff (compiler : Compiler) (T : IntType) (v : Value T) :
    Counts compiler T v ↔ Extends T v := by
  constructor
  · intro h
    exact (popcnt_iff T v).1 h.popcnt
  · intro h
    exact ⟨(popcnt_iff T v).2 h, (clz_iff T v).2 h, toNat_ctz_eq T v, (fls_iff T v).2 h,
      isIndex_ffs compiler T v⟩

/-- For the `int` `-1`, `popcnt` gives 64 and `fls` gives 63. -/
theorem miscounted :
    popcnt .i32 (-1#32) = 64#64 ∧ fls .i32 (-1#32) = 63#32 ∧ ¬ Counts .gcc .i32 (-1#32) := by
  refine ⟨by decide, by decide, fun h => ?_⟩
  have hcount := h.popcnt
  revert hcount
  decide

end Mwr.Bitops
