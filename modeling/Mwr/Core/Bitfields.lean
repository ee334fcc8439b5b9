import Mwr.CodeLib.BitField
import Mwr.CodeLib.CInt

/-!
# Bit fields

A translation of `extract`, `sextract`, `deposit`, `get_field` and `set_field` of
`include/mwr/core/bitfields.h`, and of `bitmask` of `include/mwr/core/bitops.h`.  A call
whose assertion fails, or that shifts by too much, has no result.  Sizes are natural
numbers: for a field within the word no sum or difference wraps around.

* `extract_eq`, `sextract_eq` and `deposit_eq` reduce the functions to the fields of
  `Mwr.CodeLib.BitField`.
* `wellDefined_iff` says for which fields they have a result.
-/

namespace Mwr.Bitfields

open Mwr.CodeLib.BitField
open Mwr.CodeLib.CInt
open Mwr.CodeLib.CInt.IntType

variable {T U : IntType} {start width : Nat}

/-! ## The code -/

/-- `bitmask(width, offset)`. -/
def bitmask (width offset : Nat) : Option (BitVec 64) :=
  if 64 ≤ offset then some 0#64
  else if 64 ≤ width then shiftLeft (~~~0#64) offset
  else do
    let bit ← shiftLeft 1#64 width
    shiftLeft (bit - 1#64) offset

/-- `extract(val, start, width)`. -/
def extract (T : IntType) (val : Value T) (start width : Nat) : Option (Value T.makeUnsigned) :=
  if start + width ≤ T.bits then do
    let shifted ← shr T.makeUnsigned (castTo T val T.makeUnsigned.bits) start
    let mask ← bitmask width 0
    some ((castTo T.makeUnsigned.promoted shifted 64 &&& mask).setWidth T.makeUnsigned.bits)
  else none

/-- `sextract(val, start, w)`. -/
def sextract (T : IntType) (val : Value T) (start w : Nat) : Option (Value T.makeSigned) :=
  if start + w ≤ T.bits then
    if w = 0 then some 0
    else do
      let left ← shl T.makeUnsigned (castTo T val T.makeUnsigned.bits) (T.bits - w - start)
      let right ←
        shr T.makeSigned (castTo T.makeUnsigned.promoted left T.makeSigned.bits) (T.bits - w)
      some (castTo T.makeSigned.promoted right T.makeSigned.bits)
  else none

/-- `(T)in << start`, or `0`, in `deposit`. -/
def shifted (T U : IntType) (start : Nat) (x : Value U) : Option (Value T) :=
  if start < T.bits then do
    let shifted ← shl T (castTo U x T.bits) start
    some (castTo T.promoted shifted T.bits)
  else some 0

/-- `deposit(val, start, width, in)`. -/
def deposit (T U : IntType) (val : Value T) (start width : Nat) (x : Value U) :
    Option (Value T) :=
  if start + width ≤ T.bits then do
    let mask ← bitmask width start
    let mask := castTo T (mask.setWidth T.bits) T.promoted.bits
    let shifted ← shifted T U start x
    let shifted := castTo T shifted T.promoted.bits
    let val := castTo T val T.promoted.bits
    some (castTo T.promoted ((val &&& ~~~mask) ||| (shifted &&& mask)) T.bits)
  else none

/-- `field<OFF, LEN, T>`. -/
structure Field where
  off : Nat
  len : Nat
  base : IntType

/-- `field::ubase`. -/
abbrev Field.ubase (F : Field) : IntType := F.base.makeUnsigned

/-- `get_field<F>(val)`. -/
def getField (F : Field) (val : Value F.base) : Option (Value F.base) :=
  if F.base.signed then sextract F.base val F.off F.len else extract F.base val F.off F.len

/-- `set_field<F>(val, x)`. -/
def setField (F : Field) (val : Value F.ubase) (x : Value F.base) : Option (Value F.ubase) :=
  deposit F.ubase F.base val F.off F.len x

/-- `set_field<F>(val)`. -/
def setFieldOnes (F : Field) (val : Value F.ubase) : Option (Value F.ubase) :=
  deposit F.ubase .u64 val F.off F.len (~~~0#64)

/-! ## Shifts and masks -/

theorem shiftLeft_eq {w n : Nat} (v : BitVec w) (h : n < w) : shiftLeft v n = some (v <<< n) :=
  if_pos h

/-- `bitmask` never shifts by too much. -/
theorem bitmask_eq (width offset : Nat) : ∃ mask, bitmask width offset = some mask ∧
    ∀ i, i < 64 → mask.getLsbD i = decide (offset ≤ i ∧ i < offset + width) := by
  unfold bitmask
  split
  next hoff =>
    refine ⟨0#64, rfl, fun i hi => ?_⟩
    rw [decide_eq_false (by omega)]
    exact BitVec.getLsbD_zero
  next hoff =>
    split
    next hwidth =>
      refine ⟨_, shiftLeft_eq _ (Nat.lt_of_not_le hoff), fun i hi => ?_⟩
      rw [BitVec.not_zero, BitVec.getLsbD_shiftLeft, BitVec.getLsbD_allOnes]
      by_cases hle : offset ≤ i
      · rw [decide_eq_false (Nat.not_lt.2 hle), decide_eq_true (by omega : i - offset < 64)]
        simp only [hi, hle, decide_true, true_and]
        rw [decide_eq_true (by omega)]
        rfl
      · simp [Nat.lt_of_not_le hle, hle]
    next hwidth =>
      rw [shiftLeft_eq _ (Nat.lt_of_not_le hwidth)]
      refine ⟨_, shiftLeft_eq _ (Nat.lt_of_not_le hoff), fun i hi => ?_⟩
      rw [BitVec.getLsbD_shiftLeft, getLsbD_ones (Nat.lt_of_not_le hwidth) (by omega)]
      by_cases hle : offset ≤ i
      · simp only [hi, hle, decide_true, true_and, Bool.true_and, Nat.not_lt.2 hle, decide_false,
          Bool.not_false]
        exact decide_eq_decide.2 (by omega)
      · simp [Nat.lt_of_not_le hle, hle]

/-! ## Fields -/

theorem extract_eq (v : Value T) (h : start + width ≤ T.bits) (hs : start < T.promoted.bits) :
    extract T v start width = some ((v.extractLsb' start width).setWidth T.bits) := by
  obtain ⟨shifted, hshifted, hbits⟩ :=
    shr_eq T.makeUnsigned v (T.bits_promoted_makeUnsigned ▸ hs)
  obtain ⟨mask, hmask, hones⟩ := bitmask_eq width 0
  have hself : castTo T v T.makeUnsigned.bits = v := castTo_bits T v
  rw [extract, if_pos h, hself, hshifted, hmask]
  refine congrArg some (BitVec.eq_of_getLsbD_eq fun i hi => ?_)
  have h64 : i < 64 := Nat.lt_of_lt_of_le hi T.bits_le
  have hp : i < T.makeUnsigned.promoted.bits :=
    Nat.lt_of_lt_of_le hi T.makeUnsigned.bits_le_promoted
  rw [BitVec.getLsbD_setWidth, BitVec.getLsbD_and, hones i h64, getLsbD_castTo_of_lt _ _ hp h64,
    hbits i hi, BitVec.getLsbD_setWidth, BitVec.getLsbD_extractLsb']
  by_cases hw : i < width
  · have hlt : start + i < T.bits := by omega
    simp [hw, hi, hlt]
  · simp [hw]

theorem sextract_eq (v : Value T) (h : start + width ≤ T.bits) :
    sextract T v start width = some ((v.extractLsb' start width).signExtend T.bits) := by
  rw [sextract, if_pos h]
  split
  next hzero =>
    subst hzero
    refine congrArg some (BitVec.eq_of_getLsbD_eq fun i hi => ?_)
    rw [BitVec.getLsbD_signExtend]
    simp
  next hpos =>
    have hle : T.bits ≤ T.makeUnsigned.promoted.bits := T.makeUnsigned.bits_le_promoted
    have hle' : T.bits ≤ T.makeSigned.promoted.bits := T.makeSigned.bits_le_promoted
    have hpos : 0 < T.bits := T.bits_pos
    obtain ⟨left, hleft, hleftBits⟩ := shl_eq T.makeUnsigned v
      (by omega : T.bits - width - start < T.makeUnsigned.promoted.bits)
    obtain ⟨right, hright, hrightBits⟩ := shr_eq T.makeSigned
      (castTo T.makeUnsigned.promoted left T.makeSigned.bits)
      (by omega : T.bits - width < T.makeSigned.promoted.bits)
    have hself : castTo T v T.makeUnsigned.bits = v := castTo_bits T v
    rw [hself, hleft, Option.bind_eq_bind, Option.bind_some, hright, Option.bind_eq_bind,
      Option.bind_some]
    -- the bits that the first shift leaves in the type
    have hcut : ∀ i, i < T.bits →
        (castTo T.makeUnsigned.promoted left T.makeSigned.bits).getLsbD i =
        (decide (T.bits - width - start ≤ i) && v.getLsbD (i - (T.bits - width - start))) :=
      fun i hi => (getLsbD_castTo_of_lt _ _ (Nat.lt_of_lt_of_le hi hle) hi).trans (hleftBits i hi)
    have hsign : (castTo T.makeUnsigned.promoted left T.makeSigned.bits).msb =
        v.getLsbD (start + (width - 1)) := by
      have hlast : T.bits - 1 - (T.bits - width - start) = start + (width - 1) := by omega
      rw [BitVec.msb_eq_getLsbD_last]
      show BitVec.getLsbD _ (T.bits - 1) = _
      rw [hcut _ (by omega), decide_eq_true (by omega), Bool.true_and, hlast]
    refine congrArg some (BitVec.eq_of_getLsbD_eq fun i (hi : i < T.bits) => ?_)
    rw [getLsbD_castTo_of_lt _ _ (Nat.lt_of_lt_of_le hi hle') hi, hrightBits i hi, hsign,
      BitVec.getLsbD_signExtend, decide_eq_true hi, Bool.true_and, BitVec.msb_eq_getLsbD_last,
      BitVec.getLsbD_extractLsb', BitVec.getLsbD_extractLsb']
    by_cases hw : i < width
    · rw [if_pos hw, if_pos (by omega : T.bits - width + i < T.bits), hcut _ (by omega),
        decide_eq_true (by omega), decide_eq_true hw, Bool.true_and, Bool.true_and]
      congr 1
      omega
    · rw [if_neg hw, if_neg (by omega : ¬ T.bits - width + i < T.bits), decide_eq_true (by omega)]
      rfl

theorem deposit_eq (v : Value T) (x : Value U) (h : start + width ≤ T.bits) :
    deposit T U v start width x = some (splice v start (castTo U x width)) := by
  have hle := T.bits_le_promoted
  obtain ⟨mask, hmask, hones⟩ := bitmask_eq width start
  obtain ⟨moved, hmoved, hmovedBits⟩ : ∃ moved, shifted T U start x = some moved ∧
      ∀ i, i < T.bits → moved.getLsbD i =
        (decide (start ≤ i) && (castTo U x T.bits).getLsbD (i - start)) := by
    unfold shifted
    split
    next hs =>
      obtain ⟨r, hr, hbits⟩ := shl_eq T (castTo U x T.bits) (Nat.lt_of_lt_of_le hs hle)
      rw [hr]
      refine ⟨_, rfl, fun i hi => ?_⟩
      rw [getLsbD_castTo_of_lt _ _ (Nat.lt_of_lt_of_le hi hle) hi, hbits i hi]
    next hs =>
      refine ⟨0, rfl, fun i hi => ?_⟩
      rw [decide_eq_false (by omega)]
      exact BitVec.getLsbD_zero
  rw [deposit, if_pos h, hmask, Option.bind_eq_bind, Option.bind_some, hmoved, Option.bind_eq_bind,
    Option.bind_some]
  refine congrArg some (BitVec.eq_of_getLsbD_eq fun i hi => ?_)
  have hp : i < T.promoted.bits := Nat.lt_of_lt_of_le hi hle
  rw [getLsbD_castTo_of_lt _ _ hp hi, BitVec.getLsbD_or, BitVec.getLsbD_and, BitVec.getLsbD_and,
    BitVec.getLsbD_not, getLsbD_castTo_of_lt _ _ hi hp, getLsbD_castTo_of_lt _ _ hi hp,
    getLsbD_castTo_of_lt _ _ hi hp, BitVec.getLsbD_setWidth,
    hones i (Nat.lt_of_lt_of_le hi T.bits_le), hmovedBits i hi, getLsbD_splice _ _ hi]
  simp only [hi, hp, decide_true, Bool.true_and]
  split
  next hin =>
    have hbit : (castTo U x width).getLsbD (i - start) =
        (castTo U x T.bits).getLsbD (i - start) := by
      rw [getLsbD_castTo, getLsbD_castTo, decide_eq_true (by omega), decide_eq_true (by omega)]
    simp [hin, hbit]
  next hout => simp [hout]

/-! ## Results -/

theorem lt_promoted (hs : start < T.bits) : start < T.promoted.bits :=
  Nat.lt_of_lt_of_le hs T.bits_le_promoted

/-- All functions have a result for the field, and an empty field is `0` and cannot be
changed. -/
structure WellDefined (T : IntType) (start width : Nat) : Prop where
  extract : ∀ v, ∃ r, extract T v start width = some r ∧ (width = 0 → r = 0)
  sextract : ∀ v, ∃ r, sextract T v start width = some r ∧ (width = 0 → r = 0)
  deposit : ∀ U v x, ∃ r, deposit T U v start width x = some r ∧ (width = 0 → r = v)

/-- Of the fields that the assertions admit, only the empty one at the end of a word is a
problem: `extract` shifts by the width of the word, unless it is promoted. -/
theorem wellDefined_iff (h : start + width ≤ T.bits) :
    WellDefined T start width ↔ start < T.bits ∨ T.bits < 32 := by
  constructor
  · intro hdef
    by_contra hend
    obtain ⟨r, hr, -⟩ := hdef.extract 0
    have hpromoted : T.makeUnsigned.promoted.bits ≤ start := by
      rw [bits_promoted_makeUnsigned, bits_promoted]
      omega
    rw [Bitfields.extract, if_pos h, shr, shiftRight, if_neg (Nat.not_lt.2 hpromoted)] at hr
    cases hr
  · intro hlt
    have hs : start < T.promoted.bits := by
      rw [bits_promoted]
      omega
    refine ⟨fun v => ⟨_, extract_eq v h hs, ?_⟩, fun v => ⟨_, sextract_eq v h, ?_⟩,
      fun U v x => ⟨_, deposit_eq v x h, ?_⟩⟩ <;> rintro rfl
    · rw [BitVec.eq_nil (v.extractLsb' start 0)]
      exact BitVec.setWidth_zero _ _
    · rw [BitVec.eq_nil (v.extractLsb' start 0)]
      exact BitVec.signExtend_eq_setWidth_of_msb_false rfl
    · exact splice_empty v start _

/-- The empty field at the end of a word of 32 bits. -/
theorem wellDefined_iff_u32 :
    WellDefined .u32 32 0 ↔ 32 < (IntType.u32).bits ∨ (IntType.u32).bits < 32 :=
  wellDefined_iff (by decide)

/-- `extract(val, 32, 0)` shifts a word of 32 bits by 32. -/
theorem extract_undefined :
    32 + 0 ≤ (IntType.u32).bits ∧ extract .u32 1#32 32 0 = none ∧ ¬ WellDefined .u32 32 0 := by
  refine ⟨by decide, by decide, fun h => ?_⟩
  obtain ⟨r, hr, -⟩ := h.extract 1#32
  cases hr

end Mwr.Bitfields
