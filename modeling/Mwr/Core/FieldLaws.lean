import Mwr.Core.Bitfields

/-!
# The laws of bit fields

What `extract` and `sextract` read after `deposit`, and the same for `get_field` and
`set_field`.

* `Lawful` and `FieldLawful` are the laws for one field.
* `Independent` and `FieldIndependent` are the laws for two fields that do not overlap.
* `bitfields_lawful` proves all of them for fields that start within the word.
-/

namespace Mwr.Bitfields

open Mwr.CodeLib.BitField
open Mwr.CodeLib.CInt
open Mwr.CodeLib.CInt.IntType

variable {T U : IntType} {start width start' width' : Nat}

/-! ## The laws -/

/-- The laws of `extract`, `sextract` and `deposit` for one field. -/
structure Lawful (T : IntType) (start width : Nat) : Prop where
  /-- `extract` reads the value modulo a power of two. -/
  extract_deposit : ∀ U v x, ∃ d e, deposit T U v start width x = some d ∧
    extract T d start width = some e ∧ (BitVec.toNat e : Int) = toInt U x % 2 ^ width
  /-- `sextract` reads the value that is congruent to it and has `width` bits. -/
  sextract_deposit : 0 < width → ∀ U v x, ∃ d e, deposit T U v start width x = some d ∧
    sextract T d start width = some e ∧ BitVec.toInt e = (toInt U x).bmod (2 ^ width)
  deposit_extract : ∀ v, ∃ e, extract T v start width = some e ∧
    deposit T T.makeUnsigned v start width e = some v
  deposit_outside : ∀ U v x, ∃ d, deposit T U v start width x = some d ∧
    ∀ i, i < T.bits → i < start ∨ start + width ≤ i → BitVec.getLsbD d i = BitVec.getLsbD v i

/-- The laws of `extract`, `sextract` and `deposit` for two fields. -/
structure Independent (T : IntType) (start width start' width' : Nat) : Prop where
  commute : ∀ U U' v x y, ∃ d, (deposit T U v start width x).bind
      (fun v => deposit T U' v start' width' y) = some d ∧
    (deposit T U' v start' width' y).bind (fun v => deposit T U v start width x) = some d
  extract_deposit : ∀ U v y, ∃ d e, deposit T U v start' width' y = some d ∧
    extract T d start width = some e ∧ extract T v start width = some e
  sextract_deposit : ∀ U v y, ∃ d e, deposit T U v start' width' y = some d ∧
    sextract T d start width = some e ∧ sextract T v start width = some e

/-- The value that a field of this width and sign reads for a number. -/
def fieldValue (signed : Bool) (width : Nat) (n : Int) : Int :=
  if signed then n.bmod (2 ^ width) else n % 2 ^ width

/-- The laws of `get_field` and `set_field` for one field. -/
structure FieldLawful (F : Field) : Prop where
  get_set : ∀ v x, ∃ s g, setField F v x = some s ∧ getField F s = some g ∧
    toInt F.base g = fieldValue F.base.signed F.len (toInt F.base x)
  set_get : ∀ v, ∃ g, getField F v = some g ∧ setField F v g = some v
  set_outside : ∀ v x, ∃ s, setField F v x = some s ∧ ∀ i, i < F.base.bits →
    i < F.off ∨ F.off + F.len ≤ i → BitVec.getLsbD s i = BitVec.getLsbD v i
  set_ones : ∀ v, ∃ s, setFieldOnes F v = some s ∧ ∀ i, i < F.base.bits →
    BitVec.getLsbD s i = (decide (F.off ≤ i ∧ i < F.off + F.len) || BitVec.getLsbD v i)

/-- The laws of `get_field` and `set_field` for two fields of a type. -/
structure FieldIndependent (T : IntType) (off len off' len' : Nat) : Prop where
  commute : ∀ v x y, ∃ s,
    (setField ⟨off, len, T⟩ v x).bind (fun v => setField ⟨off', len', T⟩ v y) = some s ∧
      (setField ⟨off', len', T⟩ v y).bind (fun v => setField ⟨off, len, T⟩ v x) = some s
  get_set : ∀ v y, ∃ s g, setField ⟨off', len', T⟩ v y = some s ∧
    getField ⟨off, len, T⟩ s = some g ∧ getField ⟨off, len, T⟩ v = some g

/-! ## One field -/

/-- The value that `extract` reads goes back into the field unchanged. -/
theorem castTo_extract (v : Value T) (h : start + width ≤ T.bits) :
    castTo T.makeUnsigned ((v.extractLsb' start width).setWidth T.makeUnsigned.bits) width =
      v.extractLsb' start width := by
  apply BitVec.eq_of_getLsbD_eq
  intro i hi
  have hT : i < T.makeUnsigned.bits := (by omega : i < T.bits)
  rw [getLsbD_castTo_of_lt _ _ hT hi, BitVec.getLsbD_setWidth, decide_eq_true hT, Bool.true_and]

/-- The value that `sextract` reads goes back into the field unchanged. -/
theorem castTo_sextract (v : Value T) (h : start + width ≤ T.bits) :
    castTo T.makeSigned ((v.extractLsb' start width).signExtend T.makeSigned.bits) width =
      v.extractLsb' start width := by
  apply BitVec.eq_of_getLsbD_eq
  intro i hi
  have hT : i < T.makeSigned.bits := (by omega : i < T.bits)
  rw [getLsbD_castTo_of_lt _ _ hT hi, BitVec.getLsbD_signExtend, decide_eq_true hT,
    Bool.true_and, if_pos hi]

theorem lawful (h : start + width ≤ T.bits) (hs : start < T.bits) : Lawful T start width where
  extract_deposit U v x := by
    have hwidth : width ≤ T.bits := by omega
    refine ⟨_, _, deposit_eq v x h, extract_eq _ h (lt_promoted hs), ?_⟩
    rw [extractLsb'_splice v _ h, BitVec.toNat_setWidth_of_le hwidth, toNat_castTo]
  sextract_deposit hpos U v x := by
    have hwidth : width ≤ T.bits := by omega
    refine ⟨_, _, deposit_eq v x h, sextract_eq _ h, ?_⟩
    rw [extractLsb'_splice v _ h, BitVec.toInt_signExtend_of_le hwidth, toInt_castTo]
  deposit_extract v := by
    refine ⟨_, extract_eq v h (lt_promoted hs), ?_⟩
    rw [deposit_eq v _ h, castTo_extract v h, splice_extractLsb']
  deposit_outside U v x :=
    ⟨_, deposit_eq v x h, fun i hi hout => getLsbD_splice_of_outside v _ hi hout⟩

theorem getField_eq (F : Field) (v : Value F.base) (h : F.off + F.len ≤ F.base.bits)
    (hs : F.off < F.base.bits) :
    getField F v = some (if F.base.signed then (v.extractLsb' F.off F.len).signExtend F.base.bits
      else (v.extractLsb' F.off F.len).setWidth F.base.bits) := by
  rw [getField, sextract_eq v h, extract_eq v h (lt_promoted hs)]
  split
  next => rfl
  next => rfl

/-- A field reads as the number modulo a power of two, with its sign if the type has one. -/
theorem get_setField (F : Field) (v : Value F.ubase) (x : Value F.base)
    (h : F.off + F.len ≤ F.base.bits) (hs : F.off < F.base.bits) :
    ∃ s g, setField F v x = some s ∧ getField F s = some g ∧
      toInt F.base g = fieldValue F.base.signed F.len (toInt F.base x) := by
  have hlen : F.len ≤ F.base.bits := by omega
  refine ⟨_, _, deposit_eq v x h, getField_eq F _ h hs, ?_⟩
  rw [extractLsb'_splice v _ h]
  cases hsigned : F.base.signed with
  | true =>
    rw [toInt, if_pos hsigned, if_pos rfl, BitVec.toInt_signExtend_of_le hlen, toInt_castTo]
    rfl
  | false =>
    rw [toInt, if_neg (by rw [hsigned]; exact Bool.false_ne_true), if_neg Bool.false_ne_true,
      BitVec.toNat_setWidth_of_le hlen, toNat_castTo]
    rfl

/-- What a field reads goes back into it unchanged. -/
theorem set_getField (F : Field) (v : Value F.ubase) (h : F.off + F.len ≤ F.base.bits)
    (hs : F.off < F.base.bits) :
    ∃ g, getField F v = some g ∧ setField F v g = some v := by
  refine ⟨_, getField_eq F v h hs, ?_⟩
  obtain ⟨off, len, signed, width⟩ := F
  have hset := fun x => deposit_eq (U := ⟨signed, width⟩) v x h
  cases signed with
  | true =>
    have hcast := castTo_sextract (T := ⟨true, width⟩) v h
    refine (hset _).trans (congrArg some ?_)
    exact (congrArg (splice v off) hcast).trans (splice_extractLsb' v off len)
  | false =>
    have hcast := castTo_extract (T := ⟨false, width⟩) v h
    refine (hset _).trans (congrArg some ?_)
    exact (congrArg (splice v off) hcast).trans (splice_extractLsb' v off len)

theorem fieldLawful (F : Field) (h : F.off + F.len ≤ F.base.bits) (hs : F.off < F.base.bits) :
    FieldLawful F where
  get_set v x := get_setField F v x h hs
  set_get v := set_getField F v h hs
  set_outside v x :=
    ⟨_, deposit_eq v x h, fun i hi hout => getLsbD_splice_of_outside v _ hi hout⟩
  set_ones v := by
    refine ⟨_, deposit_eq v _ h, fun i hi => ?_⟩
    rw [getLsbD_splice v _ hi]
    split
    next hin =>
      have hlen : i - F.off < F.len := by omega
      have hle := F.base.bits_le
      have hword : i - F.off < 64 := by omega
      have hones : (~~~0#64).getLsbD (i - F.off) = true := by
        rw [BitVec.not_zero, BitVec.getLsbD_allOnes, decide_eq_true hword]
      rw [decide_eq_true hin, getLsbD_castTo_of_lt .u64 _ hword hlen, Bool.true_or]
      exact hones
    next hout => rw [decide_eq_false hout, Bool.false_or]

/-! ## Two fields -/

theorem independent (h : start + width ≤ T.bits) (hs : start < T.bits)
    (h' : start' + width' ≤ T.bits) (hapart : Apart start width start' width') :
    Independent T start width start' width' where
  commute U U' v x y := by
    refine ⟨splice (splice v start (castTo U x width)) start' (castTo U' y width'), ?_, ?_⟩
    · rw [deposit_eq v x h, Option.bind_some, deposit_eq _ y h']
    · rw [deposit_eq v y h', Option.bind_some, deposit_eq _ x h, splice_comm v _ _ hapart]
  extract_deposit U v y := by
    refine ⟨_, _, deposit_eq v y h', extract_eq _ h (lt_promoted hs), ?_⟩
    rw [extract_eq v h (lt_promoted hs), extractLsb'_splice_of_apart v _ hapart]
  sextract_deposit U v y := by
    refine ⟨_, _, deposit_eq v y h', sextract_eq _ h, ?_⟩
    rw [sextract_eq v h, extractLsb'_splice_of_apart v _ hapart]

theorem fieldIndependent (h : start + width ≤ T.bits) (hs : start < T.bits)
    (h' : start' + width' ≤ T.bits) (hapart : Apart start width start' width') :
    FieldIndependent T start width start' width' where
  commute v x y := (independent (T := T.makeUnsigned) h hs h' hapart).commute T T v x y
  get_set v y := by
    refine ⟨_, _, deposit_eq v y h', getField_eq ⟨start, width, T⟩ _ h hs, ?_⟩
    rw [getField_eq ⟨start, width, T⟩ v h hs, extractLsb'_splice_of_apart (w := T.bits) v _ hapart]

/-- A field that starts within the word obeys the laws, and so do any two fields that do not
overlap. -/
theorem bitfields_lawful (T : IntType) (start width : Nat) (h : start + width ≤ T.bits)
    (hs : start < T.bits) :
    Lawful T start width ∧ FieldLawful ⟨start, width, T⟩ ∧
      ∀ start' width', start' + width' ≤ T.bits → Apart start width start' width' →
        Independent T start width start' width' ∧ FieldIndependent T start width start' width' :=
  ⟨lawful h hs, fieldLawful ⟨start, width, T⟩ h hs, fun _ _ h' hapart =>
    ⟨independent h hs h' hapart, fieldIndependent h hs h' hapart⟩⟩

/-- The signed field of `3` bits at the bit `4` of a word of `8` bits. -/
theorem bitfields_lawful_i8 :
    Lawful ⟨true, .w8⟩ 4 3 ∧ FieldLawful ⟨4, 3, ⟨true, .w8⟩⟩ ∧
      ∀ start' width', start' + width' ≤ 8 → Apart 4 3 start' width' →
        Independent ⟨true, .w8⟩ 4 3 start' width' ∧
          FieldIndependent ⟨true, .w8⟩ 4 3 start' width' :=
  bitfields_lawful ⟨true, .w8⟩ 4 3 (by decide) (by decide)

end Mwr.Bitfields
