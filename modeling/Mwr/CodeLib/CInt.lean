import Mathlib.Algebra.Ring.Int.Defs
import Mathlib.Algebra.Ring.Nat
import Mathlib.Tactic.Common

/-!
# Fixed-width integers of C++

An integer type has a width and a sign, and a value of it is a bit pattern in two's
complement.  Operands that are narrower than `int` are promoted before a shift.

* `castTo` is the conversion between two types, and `getLsbD_castTo` describes its bits.
* `shl` and `shr` are `<<` and `>>`.  They are undefined if the count is not less than
  the width of the promoted operand.  A bit that is shifted into or out of the sign is
  treated like any other, which C++20 asks for and compilers have done before.
-/

namespace Mwr.CodeLib.CInt

/-- The widths of the integer types. -/
inductive Width where
  | w8
  | w16
  | w32
  | w64
  deriving DecidableEq, Repr

/-- The number of bits. -/
def Width.bits : Width → Nat
  | .w8 => 8
  | .w16 => 16
  | .w32 => 32
  | .w64 => 64

/-- An integer type. -/
structure IntType where
  signed : Bool
  width : Width
  deriving DecidableEq, Repr

namespace IntType

def u8 : IntType := ⟨false, .w8⟩

def i32 : IntType := ⟨true, .w32⟩

def u32 : IntType := ⟨false, .w32⟩

def u64 : IntType := ⟨false, .w64⟩

/-- The number of bits of a value. -/
abbrev bits (T : IntType) : Nat := T.width.bits

/-- `std::make_unsigned_t<T>`. -/
abbrev makeUnsigned (T : IntType) : IntType := ⟨false, T.width⟩

/-- `std::make_signed_t<T>`. -/
abbrev makeSigned (T : IntType) : IntType := ⟨true, T.width⟩

/-- The type of an operand after integer promotion. -/
def promoted (T : IntType) : IntType :=
  match T.width with
  | .w8 | .w16 => i32
  | .w32 | .w64 => T

theorem bits_pos (T : IntType) : 0 < T.bits := by
  obtain ⟨signed, width⟩ := T
  cases width <;> cases signed <;> decide

theorem bits_le (T : IntType) : T.bits ≤ 64 := by
  obtain ⟨signed, width⟩ := T
  cases width <;> cases signed <;> decide

theorem bits_le_promoted (T : IntType) : T.bits ≤ T.promoted.bits := by
  obtain ⟨signed, width⟩ := T
  cases width <;> cases signed <;> decide

theorem bits_promoted (T : IntType) : T.promoted.bits = max T.bits 32 := by
  obtain ⟨_, width⟩ := T
  cases width <;> rfl

theorem bits_promoted_makeUnsigned (T : IntType) :
    T.makeUnsigned.promoted.bits = T.promoted.bits := by
  rw [bits_promoted, bits_promoted]

/-- A type that is promoted has all its values in `int`. -/
theorem signed_promoted (T : IntType) :
    T.promoted.signed = T.signed ∨ T.promoted.signed = true ∧ T.bits < T.promoted.bits := by
  obtain ⟨signed, width⟩ := T
  cases width with
  | w8 | w16 => cases signed <;> exact .inr ⟨rfl, by decide⟩
  | w32 | w64 => exact .inl rfl

end IntType

open IntType

/-- A value, as a bit pattern. -/
abbrev Value (T : IntType) := BitVec T.bits

variable {T : IntType} {w n : Nat}

/-- The number that a value stands for. -/
def toInt (T : IntType) (v : Value T) : Int :=
  if T.signed then BitVec.toInt v else v.toNat

/-- The conversion of a value to a type with `n` bits. -/
def castTo (T : IntType) (v : Value T) (n : Nat) : BitVec n :=
  if T.signed then v.signExtend n else v.setWidth n

/-- `v << n` for an operand that is not narrower than `int`. -/
def shiftLeft (v : BitVec w) (n : Nat) : Option (BitVec w) :=
  if n < w then some (v <<< n) else none

/-- `v >> n` for an operand that is not narrower than `int`. -/
def shiftRight (signed : Bool) (v : BitVec w) (n : Nat) : Option (BitVec w) :=
  if n < w then some (if signed then v.sshiftRight n else v >>> n) else none

/-- `v << n`. -/
def shl (T : IntType) (v : Value T) (n : Nat) : Option (Value T.promoted) :=
  shiftLeft (castTo T v T.promoted.bits) n

/-- `v >> n`. -/
def shr (T : IntType) (v : Value T) (n : Nat) : Option (Value T.promoted) :=
  shiftRight T.promoted.signed (castTo T v T.promoted.bits) n

/-! ## Conversions -/

/-- A conversion keeps the bits that both types have.  The others are copies of the sign. -/
theorem getLsbD_castTo (T : IntType) (v : Value T) (n i : Nat) :
    (castTo T v n).getLsbD i =
      (decide (i < n) && if i < T.bits then v.getLsbD i else T.signed && v.msb) := by
  unfold castTo
  cases T.signed with
  | true =>
    rw [if_pos rfl, BitVec.getLsbD_signExtend, Bool.true_and]
  | false =>
    rw [if_neg Bool.false_ne_true, BitVec.getLsbD_setWidth]
    split
    next => rfl
    next h => rw [BitVec.getLsbD_of_ge v i (Nat.le_of_not_lt h), Bool.false_and]

/-- The bits below the width of both types. -/
theorem getLsbD_castTo_of_lt (T : IntType) (v : Value T) {i : Nat} (hT : i < T.bits)
    (hn : i < n) : (castTo T v n).getLsbD i = v.getLsbD i := by
  rw [getLsbD_castTo, if_pos hT, decide_eq_true hn, Bool.true_and]

/-- The conversion to the type of the other sign keeps the bits. -/
theorem castTo_bits (T : IntType) (v : Value T) : castTo T v T.bits = v := by
  unfold castTo
  split
  next => exact BitVec.signExtend_eq v
  next => exact BitVec.setWidth_eq v

/-- A conversion is a reduction modulo a power of two. -/
theorem castTo_eq_ofInt (T : IntType) (v : Value T) (n : Nat) :
    castTo T v n = BitVec.ofInt n (toInt T v) := by
  unfold castTo toInt
  split
  next => rfl
  next => rw [BitVec.ofInt_natCast, BitVec.ofNat_toNat]

theorem toNat_castTo (T : IntType) (v : Value T) (n : Nat) :
    ((castTo T v n).toNat : Int) = toInt T v % 2 ^ n := by
  have hpos : (0 : Int) < 2 ^ n := Int.pow_pos (by decide)
  rw [castTo_eq_ofInt, BitVec.toNat_ofInt]
  push_cast
  exact Int.toNat_of_nonneg (Int.emod_nonneg _ (Int.ne_of_gt hpos))

theorem toInt_castTo (T : IntType) (v : Value T) (n : Nat) :
    BitVec.toInt (castTo T v n) = (toInt T v).bmod (2 ^ n) := by
  rw [castTo_eq_ofInt, BitVec.toInt_ofInt]

/-! ## Shifts -/

/-- A shift to the left by less than the width of the promoted operand. -/
theorem shl_eq (T : IntType) (v : Value T) (h : n < T.promoted.bits) :
    ∃ r, shl T v n = some r ∧
      ∀ i, i < T.bits → r.getLsbD i = (decide (n ≤ i) && v.getLsbD (i - n)) := by
  refine ⟨_, if_pos h, fun i hi => ?_⟩
  have hlt : i < T.promoted.bits := Nat.lt_of_lt_of_le hi T.bits_le_promoted
  rw [BitVec.getLsbD_shiftLeft, decide_eq_true hlt, Bool.true_and,
    getLsbD_castTo_of_lt T v (by omega) (by omega)]
  by_cases hle : n ≤ i
  · rw [decide_eq_false (Nat.not_lt.2 hle), decide_eq_true hle]
    rfl
  · rw [decide_eq_true (Nat.lt_of_not_le hle), decide_eq_false hle]
    rfl

/-- A shift to the right by less than the width of the promoted operand.  Below the width of
the type the bits come from the operand, and above they are the sign if it has one. -/
theorem shr_eq (T : IntType) (v : Value T) (h : n < T.promoted.bits) :
    ∃ r, shr T v n = some r ∧ ∀ i, i < T.bits →
      r.getLsbD i = if n + i < T.bits then v.getLsbD (n + i) else T.signed && v.msb := by
  refine ⟨_, if_pos h, fun i hi => ?_⟩
  have hle := T.bits_le_promoted
  have hlt : i < T.promoted.bits := Nat.lt_of_lt_of_le hi hle
  -- the bits of the promoted operand
  have hbits := fun j => getLsbD_castTo T v T.promoted.bits j
  cases hsigned : T.promoted.signed with
  | true =>
    rw [if_pos rfl, BitVec.getLsbD_sshiftRight, decide_eq_false (Nat.not_le.2 hlt), Bool.not_false,
      Bool.true_and]
    split
    next hin => rw [hbits, decide_eq_true hin, Bool.true_and]
    next hout =>
      rw [if_neg (by omega), BitVec.msb_eq_getLsbD_last, hbits, decide_eq_true (by omega),
        Bool.true_and]
      split
      next hwide =>
        have hT : T.signed = true := by
          rcases T.signed_promoted with heq | ⟨-, hnarrow⟩
          · exact heq ▸ hsigned
          · omega
        rw [hT, Bool.true_and, BitVec.msb_eq_getLsbD_last]
        congr 1
        omega
      next => rfl
  | false =>
    have hT : T.signed = false := by
      rcases T.signed_promoted with heq | ⟨htrue, -⟩
      · exact heq ▸ hsigned
      · exact absurd htrue (by rw [hsigned]; decide)
    rw [if_neg Bool.false_ne_true, BitVec.getLsbD_ushiftRight, hbits, hT, Bool.false_and]
    split
    next hin => rw [decide_eq_true (by omega), Bool.true_and]
    next => rw [Bool.and_false]

end Mwr.CodeLib.CInt
