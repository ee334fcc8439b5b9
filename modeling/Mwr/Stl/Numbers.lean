import Mwr.CodeLib.Digits
import Mwr.Core.Fits
import Mwr.Stl.Strings

/-!
# Integers as strings

`to_string` and `from_string` of `include/mwr/stl/strings.h` for the integer types.  The stream that
`from_string` reads from has no base set, so that the text says in which base it is.  `i8` is a
character to the streams, and `u8` has a version of its own that makes it a number.

* `fromString` reads a string: blanks, a sign, the digits of some base, and then anything.
* `Spelled` is a notation of a number with what follows it, and `digits_of_spelled` reads it.
* `extractNumber_spelled` is the result for any notation, and `fromString_toString_iff` says for
  which types a printed number is read back.
-/

namespace Mwr.Numbers

open Mwr.Bitops (InRange inRange_toInt toInt_inj)
open Mwr.CodeLib (Bytes)
open Mwr.CodeLib.CInt
open Mwr.CodeLib.Digits
open Mwr.Strings (isspace)

/-! ## The code -/

/-- The sign of a number that is read, and what follows it. -/
def takeSign (s : Bytes) : Bool × Bytes :=
  if s.head? = some '-'.toUInt8 then (true, s.tail)
  else if s.head? = some '+'.toUInt8 then (false, s.tail)
  else (false, s)

/-- The base of a number, and what follows its mark.  The `0` in front of octal digits is one of
them. -/
def takeBase (s : Bytes) : Nat × Bytes :=
  if s.head? = some '0'.toUInt8 then
    if s.tail.head? = some 'x'.toUInt8 ∨ s.tail.head? = some 'X'.toUInt8 then (16, s.drop 2)
    else (8, s)
  else (10, s)

/-- The number at the begin of a string, if there are digits. -/
def takeDigits (s : Bytes) : Option Nat :=
  let digits := (takeBase s).2.takeWhile (isDigit (takeBase s).1)
  if digits = [] then none else some (value (takeBase s).1 digits)

/-- A number is stored in a variable.  One that is too large becomes the nearest that the type has,
and a sign before an unsigned number negates it. -/
def store (T : IntType) (negative : Bool) (n : Nat) : Value T :=
  let i : Int := if negative then -n else n
  if T.signed then
    if i < -2 ^ (T.bits - 1) then BitVec.intMin T.bits
    else if 2 ^ (T.bits - 1) ≤ i then BitVec.intMax T.bits
    else BitVec.ofInt T.bits i
  else if 2 ^ T.bits ≤ n then BitVec.allOnes T.bits
  else BitVec.ofInt T.bits i

/-- `ss >> val` for a number, which is zero if there is none. -/
def extractNumber (T : IntType) (str : Bytes) : Value T :=
  let (negative, s) := takeSign (str.dropWhile isspace)
  match takeDigits s with
  | none => 0
  | some n => store T negative n

/-- `from_string<T>(str)`. -/
def fromString : (T : IntType) → Bytes → Value T
  | ⟨true, .w8⟩, str => ((str.dropWhile isspace).headD 0).toBitVec
  | ⟨false, .w8⟩, str => (extractNumber .u32 str).setWidth 8
  | T, str => extractNumber T str

/-- `os << i` for a number. -/
def decimal (i : Int) : Bytes :=
  (if i < 0 then ['-'.toUInt8] else []) ++ numeral 10 i.natAbs

/-- `to_string(val)`. -/
def toString : (T : IntType) → Value T → Bytes
  | ⟨true, .w8⟩, val => [⟨val⟩]
  | T, val => decimal (toInt T val)

/-! ## Notations -/

/-- A number in the notation of some base, with text behind it that is not part of it. -/
inductive Spelled : Bytes → Nat → Prop
  | decimal {digits rest : Bytes} (hne : digits ≠ []) (hdigits : ∀ d ∈ digits, isDigit 10 d = true)
      (hfirst : digits.head? ≠ some '0'.toUInt8)
      (hrest : ∀ ch ∈ rest.head?, isDigit 10 ch = false) :
      Spelled (digits ++ rest) (value 10 digits)
  | octal {digits rest : Bytes} (hdigits : ∀ d ∈ digits, isDigit 8 d = true)
      (hrest : ∀ ch ∈ rest.head?, isDigit 8 ch = false)
      (hmark : digits = [] → rest.head? ≠ some 'x'.toUInt8 ∧ rest.head? ≠ some 'X'.toUInt8) :
      Spelled ('0'.toUInt8 :: digits ++ rest) (value 8 digits)
  | hex {mark : UInt8} {digits rest : Bytes} (hmark : mark = 'x'.toUInt8 ∨ mark = 'X'.toUInt8)
      (hne : digits ≠ []) (hdigits : ∀ d ∈ digits, isDigit 16 d = true)
      (hrest : ∀ ch ∈ rest.head?, isDigit 16 ch = false) :
      Spelled ('0'.toUInt8 :: mark :: digits ++ rest) (value 16 digits)

/-- A sign, or none. -/
inductive Sign where
  | none
  | plus
  | minus

def Sign.text : Sign → Bytes
  | none => []
  | plus => ['+'.toUInt8]
  | minus => ['-'.toUInt8]

def Sign.negative : Sign → Bool
  | minus => true
  | _ => false

/-- Digits are neither blanks nor signs nor marks. -/
theorem of_isDigit {ch : UInt8} (h : isDigit 10 ch = true) :
    isspace ch = false ∧ ch ≠ '-'.toUInt8 ∧ ch ≠ '+'.toUInt8 ∧ ch ≠ 'x'.toUInt8 ∧
      ch ≠ 'X'.toUInt8 := by
  have htable : ∀ n < 256, isDigit 10 (UInt8.ofNat n) = true →
      isspace (UInt8.ofNat n) = false := by
    decide +kernel
  have hspace := htable ch.toNat (UInt8.toNat_lt ch)
  rw [UInt8.ofNat_toNat] at hspace
  refine ⟨hspace h, ?_, ?_, ?_, ?_⟩
  all_goals
    rintro rfl
    exact absurd h (by decide)

theorem isDigit_ten {ch : UInt8} (h : isDigit 8 ch = true) : isDigit 10 ch = true := by
  obtain ⟨d, hd, hlt⟩ := (Option.any_eq_true ..).1 h
  refine (Option.any_eq_true ..).2 ⟨d, hd, decide_eq_true ?_⟩
  exact Nat.lt_trans (of_decide_eq_true hlt) (by decide)

/-- The digits of a number end where its notation ends. -/
theorem takeWhile_digits {b : Nat} {digits rest : Bytes}
    (hdigits : ∀ d ∈ digits, isDigit b d = true)
    (hrest : ∀ ch ∈ rest.head?, isDigit b ch = false) :
    (digits ++ rest).takeWhile (isDigit b) = digits := by
  rw [List.takeWhile_append_of_pos hdigits]
  cases rest with
  | nil => exact List.append_nil _
  | cons ch rest =>
    rw [List.takeWhile_cons_of_neg (by rw [hrest ch rfl]; exact Bool.false_ne_true)]
    exact List.append_nil _

theorem value_zero_cons (b : Nat) (digits : Bytes) :
    value b ('0'.toUInt8 :: digits) = value b digits := by
  show List.foldl _ (b * 0 + 0) digits = _
  rw [Nat.mul_zero]
  rfl

/-- A number is read in its notation, whichever that is. -/
theorem digits_of_spelled {s : Bytes} {n : Nat} (h : Spelled s n) : takeDigits s = some n := by
  cases h with
  | @decimal digits rest hne hdigits hfirst hrest =>
    have hbase : takeBase (digits ++ rest) = (10, digits ++ rest) := by
      refine if_neg ?_
      rwa [List.head?_append_of_ne_nil _ hne]
    unfold takeDigits
    simp only [hbase, takeWhile_digits hdigits hrest]
    exact if_neg hne
  | @octal digits rest hdigits hrest hmark =>
    have hnot : ¬ ((digits ++ rest).head? = some 'x'.toUInt8 ∨
        (digits ++ rest).head? = some 'X'.toUInt8) := by
      cases digits with
      | nil => exact fun h => h.elim (hmark rfl).1 (hmark rfl).2
      | cons d digits =>
        have hd := of_isDigit (isDigit_ten (hdigits d List.mem_cons_self))
        rintro (h | h)
        · exact hd.2.2.2.1 (Option.some.inj h)
        · exact hd.2.2.2.2 (Option.some.inj h)
    have hbase : takeBase ('0'.toUInt8 :: digits ++ rest) =
        (8, '0'.toUInt8 :: digits ++ rest) := (if_pos rfl).trans (if_neg hnot)
    have hzero : ∀ d ∈ '0'.toUInt8 :: digits, isDigit 8 d = true := by
      intro d hd
      rcases List.mem_cons.1 hd with rfl | hd
      · rfl
      · exact hdigits d hd
    unfold takeDigits
    simp only [hbase, takeWhile_digits hzero hrest, value_zero_cons]
    exact if_neg (List.cons_ne_nil _ _)
  | @hex mark digits rest hmark hne hdigits hrest =>
    have hbase : takeBase ('0'.toUInt8 :: mark :: digits ++ rest) = (16, digits ++ rest) := by
      refine (if_pos rfl).trans (if_pos ?_)
      exact hmark.imp (congrArg some) (congrArg some)
    unfold takeDigits
    simp only [hbase, takeWhile_digits hdigits hrest]
    exact if_neg hne

/-- A notation begins with a digit. -/
theorem Spelled.head {s : Bytes} {n : Nat} (h : Spelled s n) :
    ∃ ch rest, s = ch :: rest ∧ isDigit 10 ch = true := by
  cases h with
  | @decimal digits rest hne hdigits hfirst hrest =>
    cases digits with
    | nil => exact absurd rfl hne
    | cons d digits => exact ⟨d, digits ++ rest, rfl, hdigits d List.mem_cons_self⟩
  | octal => exact ⟨_, _, rfl, rfl⟩
  | hex => exact ⟨_, _, rfl, rfl⟩

/-- The decimal digits of a number are a notation of it. -/
theorem spelled_numeral (n : Nat) : Spelled (numeral 10 n) n := by
  by_cases hn : n = 0
  · subst hn
    have hzero : numeral 10 0 = '0'.toUInt8 :: [] ++ [] := rfl
    rw [hzero]
    refine .octal (fun d hd => absurd hd List.not_mem_nil) (fun ch hch => ?_) fun _ => ?_
    · cases hch
    · exact ⟨nofun, nofun⟩
  · have h := @Spelled.decimal (numeral 10 n) [] (numeral_ne_nil 10 n)
      (fun d hd => isDigit_of_mem_numeral (by decide) (by decide) hd)
      (head_numeral (by decide) (by decide) hn) (fun ch hch => by cases hch)
    rw [List.append_nil, value_numeral (by decide) (by decide)] at h
    exact h

/-! ## Reading -/

/-- Blanks, a sign and a notation of a number. -/
theorem extractNumber_spelled (T : IntType) {spaces s : Bytes} {n : Nat} (sign : Sign)
    (hspaces : ∀ ch ∈ spaces, isspace ch = true) (h : Spelled s n) :
    extractNumber T (spaces ++ sign.text ++ s) = store T sign.negative n := by
  obtain ⟨ch, rest, rfl, hch⟩ := h.head
  obtain ⟨hspace, hminus, hplus, -⟩ := of_isDigit hch
  have hdrop : (spaces ++ sign.text ++ ch :: rest).dropWhile isspace =
      sign.text ++ ch :: rest := by
    rw [List.append_assoc, List.dropWhile_append_of_pos hspaces]
    cases sign with
    | none => exact List.dropWhile_cons_of_neg (by rw [hspace]; exact Bool.false_ne_true)
    | plus | minus => rfl
  have hsign : takeSign (sign.text ++ ch :: rest) = (sign.negative, ch :: rest) := by
    cases sign with
    | none =>
      have hnot : ∀ c, ch ≠ c → ¬ (ch :: rest).head? = some c :=
        fun c hne h => hne (Option.some.inj h)
      exact (if_neg (hnot _ hminus)).trans (if_neg (hnot _ hplus))
    | plus | minus => rfl
  unfold extractNumber
  rw [hdrop, hsign]
  simp only [digits_of_spelled h]

/-- A number that the type has is stored as it is. -/
theorem store_toInt (T : IntType) (v : Value T) :
    store T (decide (toInt T v < 0)) (toInt T v).natAbs = v := by
  have hrange := inRange_toInt T v
  have hofInt : BitVec.ofInt T.bits (toInt T v) = v := by
    rw [← castTo_eq_ofInt, castTo_bits]
  have hi : (if decide (toInt T v < 0) = true then -((toInt T v).natAbs : Int)
      else ((toInt T v).natAbs : Int)) = toInt T v := by
    split
    next hneg =>
      have hneg := of_decide_eq_true hneg
      omega
    next hpos =>
      have hpos : ¬ toInt T v < 0 := fun h => hpos (decide_eq_true h)
      omega
  unfold store
  unfold InRange at hrange
  simp only [hi]
  split
  next hsigned =>
    rw [if_pos hsigned] at hrange
    rw [if_neg (by omega), if_neg (by omega), hofInt]
  next hsigned =>
    rw [if_neg hsigned] at hrange
    have hlt : ¬ 2 ^ T.bits ≤ (toInt T v).natAbs := by
      have hcast : ((2 ^ T.bits : Nat) : Int) = 2 ^ T.bits := by
        push_cast
        rfl
      omega
    rw [if_neg hlt, hofInt]

theorem extractNumber_decimal (T : IntType) (i : Int) :
    extractNumber T (decimal i) = store T (decide (i < 0)) i.natAbs := by
  have hnil : ∀ ch ∈ ([] : Bytes), isspace ch = true := fun ch h => absurd h List.not_mem_nil
  by_cases hneg : i < 0
  · have h := extractNumber_spelled T .minus hnil (spelled_numeral i.natAbs)
    rw [decide_eq_true hneg, decimal, if_pos hneg]
    exact h
  · have h := extractNumber_spelled T .none hnil (spelled_numeral i.natAbs)
    rw [decide_eq_false hneg, decimal, if_neg hneg]
    exact h

/-- A decimal number is not one blank. -/
theorem decimal_ne_space (i : Int) : ¬ ∃ ch, decimal i = [ch] ∧ isspace ch = true := by
  rintro ⟨ch, hdecimal, hspace⟩
  have hmem : ch ∈ numeral 10 i.natAbs := by
    have hlast : (decimal i).getLast? = (numeral 10 i.natAbs).getLast? := by
      unfold decimal
      rw [List.getLast?_append_of_ne_nil _ (numeral_ne_nil 10 _)]
    rw [hdecimal] at hlast
    exact List.mem_of_getLast? hlast.symm
  have hch := (of_isDigit (isDigit_of_mem_numeral (by decide) (by decide) hmem)).1
  rw [hspace] at hch
  cases hch

/-- Only a value of `i8` is written as a character. -/
theorem toString_of_ne {T : IntType} (hT : T ≠ ⟨true, .w8⟩) (v : Value T) :
    toString T v = decimal (toInt T v) := by
  obtain ⟨signed, width⟩ := T
  cases signed <;> cases width
  case true.w8 => exact absurd rfl hT
  all_goals rfl

/-- `from_string` reads a number in any notation, with blanks before it and any text behind it, and
gives the nearest number that the type has.  It reads what `to_string` writes for every value of
every integer type, but for an `i8` that is the code of a blank. -/
theorem fromString_toString_iff (T : IntType) :
    (T.width ≠ .w8 → ∀ (spaces : Bytes) (sign : Sign) (s : Bytes) (n : Nat),
      (∀ ch ∈ spaces, isspace ch = true) → Spelled s n →
        fromString T (spaces ++ sign.text ++ s) = store T sign.negative n) ∧
    (∀ v : Value T, fromString T (toString T v) = v ↔
      ¬ ∃ ch, toString T v = [ch] ∧ isspace ch = true) ∧
    ∀ v : Value T, (∃ ch, toString T v = [ch] ∧ isspace ch = true) → T = ⟨true, .w8⟩ := by
  have hwide : ∀ v : Value T, (fromString T (toString T v) = fromString T (decimal (toInt T v))) →
      fromString T (decimal (toInt T v)) = v → toString T v = decimal (toInt T v) →
      (fromString T (toString T v) = v ↔ ¬ ∃ ch, toString T v = [ch] ∧ isspace ch = true) := by
    intro v hread hback htext
    rw [hread, hback, htext]
    exact iff_of_true rfl (decimal_ne_space _)
  have hblank : ∀ v : Value T, (∃ ch, toString T v = [ch] ∧ isspace ch = true) →
      T = ⟨true, .w8⟩ := by
    intro v hspace
    by_contra hT
    rw [toString_of_ne hT] at hspace
    exact decimal_ne_space _ hspace
  obtain ⟨signed, width⟩ := T
  refine ⟨?_, ?_, hblank⟩
  · intro hT spaces sign s n hspaces h
    have hread := extractNumber_spelled ⟨signed, width⟩ sign hspaces h
    cases width with
    | w8 => exact absurd rfl hT
    | w16 | w32 | w64 => cases signed <;> exact hread
  · intro v
    have hback := (extractNumber_decimal ⟨signed, width⟩ (toInt ⟨signed, width⟩ v)).trans
      (store_toInt ⟨signed, width⟩ v)
    cases width with
    | w8 =>
      cases signed with
      | true =>
        let ch : UInt8 := ⟨v⟩
        show (([ch].dropWhile isspace).headD 0).toBitVec = v ↔ ¬ ∃ c, [ch] = [c] ∧ _
        cases hspace : isspace ch with
        | true =>
          rw [List.dropWhile_cons_of_pos hspace]
          refine iff_of_false (fun hzero => ?_) fun h => h ⟨ch, rfl, hspace⟩
          have hch : ch = 0 := UInt8.toBitVec_inj.1 hzero.symm
          rw [hch] at hspace
          exact absurd hspace (by decide)
        | false =>
          rw [List.dropWhile_cons_of_neg (by rw [hspace]; exact Bool.false_ne_true)]
          refine iff_of_true rfl ?_
          rintro ⟨c, hc, hblank⟩
          rw [← List.head_eq_of_cons_eq hc, hspace] at hblank
          cases hblank
      | false =>
        refine hwide v rfl ?_ rfl
        let wide : Value .u32 := BitVec.setWidth 32 v
        have hwiden : toInt .u32 wide = toInt ⟨false, .w8⟩ v := by
          show (((BitVec.setWidth 32 v).toNat : Nat) : Int) = (v.toNat : Int)
          rw [BitVec.toNat_setWidth_of_le (by decide)]
        have hread : extractNumber .u32 (decimal (toInt ⟨false, .w8⟩ v)) = wide := by
          rw [extractNumber_decimal, ← hwiden]
          exact store_toInt .u32 wide
        show (extractNumber .u32 (decimal (toInt ⟨false, .w8⟩ v))).setWidth 8 = v
        rw [hread]
        exact BitVec.setWidth_setWidth_of_le v (by decide) |>.trans (BitVec.setWidth_eq v)
    | w16 | w32 | w64 => cases signed <;> exact hwide v rfl hback rfl

end Mwr.Numbers
