import Mathlib.Algebra.Order.Floor.Div
import Mwr.Core.MulDiv

/-!
# Unsigned division

A translation of `udivup`, `udiv128lo` and `umod128` of
`include/mwr/core/muldiv.h`.  A result of `none` is a division that traps: by
zero, or with a quotient that the intrinsic `_udiv128` cannot return.

`toNat_udivup` gives `udivup` over the natural numbers, also where its sum wraps,
and `roundsUp_iff` compares it with the ceiling.  The lemmas `udividesExactly_*`
go through the three paths of the two other functions.
-/

namespace Mwr.MulDiv

/-! ## The code -/

/-- `a / b` of type `u64`. -/
def udiv64 (a b : UInt64) : Option UInt64 :=
  if b = 0 then none else some (a / b)

/-- `a % b` of type `u64`. -/
def umod64 (a b : UInt64) : Option UInt64 :=
  if b = 0 then none else some (a % b)

/-- `udivup(a, b)`. -/
def udivup (a b : UInt64) : Option UInt64 :=
  udiv64 (a + b - 1) b

/-- The intrinsic `_udiv128`: the quotient and the remainder.  The processor's
`div` traps when the quotient does not fit into 64 bits. -/
def udiv128 (hi lo d : UInt64) : Option (UInt64 × UInt64) :=
  let n := hi.toNat * 2 ^ 64 + lo.toNat
  if d ≠ 0 ∧ n / d.toNat < 2 ^ 64 then
    some (UInt64.ofNat (n / d.toNat), UInt64.ofNat (n % d.toNat))
  else
    none

/-- `udiv128lo(hi, lo, d)`. -/
def udiv128lo (compiler : Compiler) (hi lo d : UInt64) : Option UInt64 :=
  if d = 0 then
    some 0
  else if hi = 0 then
    udiv64 lo d
  else
    match compiler with
    | .int128 => some (UInt64.ofBitVec ((dividend hi lo / d.toBitVec.setWidth 128).setWidth 64))
    | .msvc => (udiv128 hi lo d).map Prod.fst

/-- `umod128(hi, lo, d)`. -/
def umod128 (compiler : Compiler) (hi lo d : UInt64) : Option UInt64 :=
  if d = 0 then
    some 0
  else if hi = 0 then
    umod64 lo d
  else
    match compiler with
    | .int128 => some (UInt64.ofBitVec ((dividend hi lo % d.toBitVec.setWidth 128).setWidth 64))
    | .msvc => (udiv128 hi lo d).map Prod.snd

/-! ## What it computes -/

/-- The number of 128 bits with the halves `hi` and `lo`. -/
def unsigned128 (hi lo : UInt64) : Nat :=
  hi.toNat * 2 ^ 64 + lo.toNat

/-- `udivup` returns the least number of `b`s that cover `a`. -/
def RoundsUp (a b : UInt64) : Prop :=
  (udivup a b).map UInt64.toNat = some (a.toNat ⌈/⌉ b.toNat)

instance (a b : UInt64) : Decidable (RoundsUp a b) :=
  inferInstanceAs (Decidable (_ = _))

/-- Both functions return, `udiv128lo` the low 64 bits of the quotient and
`umod128` the remainder. -/
def UdividesExactly (compiler : Compiler) (hi lo d : UInt64) : Prop :=
  (udiv128lo compiler hi lo d).map UInt64.toNat =
      some (unsigned128 hi lo / d.toNat % 2 ^ 64) ∧
    (umod128 compiler hi lo d).map UInt64.toNat = some (unsigned128 hi lo % d.toNat)

instance (compiler : Compiler) (hi lo d : UInt64) :
    Decidable (UdividesExactly compiler hi lo d) :=
  inferInstanceAs (Decidable (_ ∧ _))

theorem toNat_pos {d : UInt64} (hd : d ≠ 0) : 0 < d.toNat :=
  Nat.pos_of_ne_zero fun h => hd (UInt64.toNat_inj.mp h)

/-! ## Rounding up -/

/-- `udivup` over the natural numbers: when the sum wraps, less than `b` is left
of it. -/
theorem toNat_udivup (a : UInt64) {b : UInt64} (hb : b ≠ 0) :
    (udivup a b).map UInt64.toNat =
      some (if a.toNat + b.toNat ≤ 2 ^ 64 then a.toNat ⌈/⌉ b.toNat else 0) := by
  have ha : a.toNat < 2 ^ 64 := UInt64.toNat_lt a
  have hlt : b.toNat < 2 ^ 64 := UInt64.toNat_lt b
  have hpos : 0 < b.toNat := toNat_pos hb
  have hone : (1 : UInt64).toNat = 1 := rfl
  rw [udivup, udiv64, if_neg hb, Option.map_some, UInt64.toNat_div, UInt64.toNat_sub,
    UInt64.toNat_add, hone, Nat.ceilDiv_eq_add_pred_div]
  by_cases hsum : a.toNat + b.toNat ≤ 2 ^ 64
  · have hnum : (2 ^ 64 - 1 + (a.toNat + b.toNat) % 2 ^ 64) % 2 ^ 64 =
        a.toNat + b.toNat - 1 := by
      omega
    rw [if_pos hsum, hnum]
  · have hnum : (2 ^ 64 - 1 + (a.toNat + b.toNat) % 2 ^ 64) % 2 ^ 64 < b.toNat := by
      omega
    rw [if_neg hsum, Nat.div_eq_of_lt hnum]

theorem roundsUp_iff (a : UInt64) {b : UInt64} (hb : b ≠ 0) :
    RoundsUp a b ↔ a.toNat + b.toNat ≤ 2 ^ 64 := by
  have hlt : b.toNat < 2 ^ 64 := UInt64.toNat_lt b
  rw [RoundsUp, toNat_udivup a hb, Option.some_inj]
  by_cases hsum : a.toNat + b.toNat ≤ 2 ^ 64
  · rw [if_pos hsum]
    exact iff_of_true rfl hsum
  · have hceil : 0 < a.toNat ⌈/⌉ b.toNat := by
      rw [Nat.ceilDiv_eq_add_pred_div]
      exact Nat.div_pos (by omega) (toNat_pos hb)
    rw [if_neg hsum]
    exact iff_of_false (by omega) hsum

/-! ## Wide division -/

theorem toNat_dividend (hi lo : UInt64) : (dividend hi lo).toNat = unsigned128 hi lo := by
  rw [dividend_eq_append, BitVec.toNat_append, ← Nat.shiftLeft_add_eq_or_of_lt lo.toBitVec.isLt,
    Nat.shiftLeft_eq]
  rfl

theorem toNat_setWidth_128 (d : UInt64) : (d.toBitVec.setWidth 128).toNat = d.toNat := by
  have hd : d.toNat < 2 ^ 64 := UInt64.toNat_lt d
  rw [BitVec.toNat_setWidth, UInt64.toNat_toBitVec, Nat.mod_eq_of_lt (by omega)]

/-- The remainder of a division by a word is a word. -/
theorem mod_word (n : Nat) {d : UInt64} (hd : d ≠ 0) : n % d.toNat % 2 ^ 64 = n % d.toNat := by
  have hlt : n % d.toNat < d.toNat := Nat.mod_lt _ (toNat_pos hd)
  have hword : d.toNat < 2 ^ 64 := UInt64.toNat_lt d
  rw [Nat.mod_eq_of_lt (by omega)]

/-- The shortcut. -/
theorem udividesExactly_zero (compiler : Compiler) (lo : UInt64) {d : UInt64} (hd : d ≠ 0) :
    UdividesExactly compiler 0 lo d := by
  have hlo : unsigned128 0 lo = lo.toNat := by
    rw [unsigned128, UInt64.toNat_zero, Nat.zero_mul, Nat.zero_add]
  have hquot : lo.toNat / d.toNat < 2 ^ 64 :=
    Nat.lt_of_le_of_lt (Nat.div_le_self _ _) (UInt64.toNat_lt lo)
  rw [UdividesExactly, hlo]
  constructor
  · simp only [udiv128lo, udiv64, if_neg hd, if_pos, Option.map_some, UInt64.toNat_div]
    rw [Nat.mod_eq_of_lt hquot]
  · simp only [umod128, umod64, if_neg hd, if_pos, Option.map_some, UInt64.toNat_mod]

theorem udividesExactly_int128 {hi : UInt64} (lo : UInt64) {d : UInt64} (hd : d ≠ 0)
    (hhi : hi ≠ 0) : UdividesExactly .int128 hi lo d := by
  constructor
  · rw [udiv128lo, if_neg hd, if_neg hhi, Option.map_some, UInt64.toNat_ofBitVec,
      BitVec.toNat_setWidth, BitVec.toNat_udiv, toNat_dividend, toNat_setWidth_128]
  · rw [umod128, if_neg hd, if_neg hhi, Option.map_some, UInt64.toNat_ofBitVec,
      BitVec.toNat_setWidth, BitVec.toNat_umod, toNat_dividend, toNat_setWidth_128,
      mod_word _ hd]

/-- The quotient is a word exactly when the upper half is below the divisor. -/
theorem unsigned128_div_lt_iff (hi lo : UInt64) {d : UInt64} (hd : d ≠ 0) :
    unsigned128 hi lo / d.toNat < 2 ^ 64 ↔ hi < d := by
  have hlo : lo.toNat < 2 ^ 64 := UInt64.toNat_lt lo
  rw [Nat.div_lt_iff_lt_mul (toNat_pos hd), UInt64.lt_iff_toNat_lt, unsigned128]
  omega

theorem udividesExactly_msvc_iff {hi : UInt64} (lo : UInt64) {d : UInt64} (hd : d ≠ 0)
    (hhi : hi ≠ 0) : UdividesExactly .msvc hi lo d ↔ hi < d := by
  rw [← unsigned128_div_lt_iff hi lo hd]
  by_cases hfits : unsigned128 hi lo / d.toNat < 2 ^ 64
  · have hret : udiv128 hi lo d = some (UInt64.ofNat (unsigned128 hi lo / d.toNat),
        UInt64.ofNat (unsigned128 hi lo % d.toNat)) := if_pos ⟨hd, hfits⟩
    refine iff_of_true ⟨?_, ?_⟩ hfits
    · rw [udiv128lo, if_neg hd, if_neg hhi, hret, Option.map_some, Option.map_some,
        UInt64.toNat_ofNat']
    · rw [umod128, if_neg hd, if_neg hhi, hret, Option.map_some, Option.map_some,
        UInt64.toNat_ofNat', mod_word _ hd]
  · have htrap : udiv128 hi lo d = none := if_neg fun h => hfits h.2
    refine iff_of_false (fun h => ?_) hfits
    have hquot := h.1
    rw [udiv128lo, if_neg hd, if_neg hhi, htrap] at hquot
    cases hquot

theorem udividesExactly_iff (compiler : Compiler) (hi lo : UInt64) {d : UInt64} (hd : d ≠ 0) :
    UdividesExactly compiler hi lo d ↔ (hi ≠ 0 → compiler = .msvc → hi < d) := by
  by_cases hhi : hi = 0
  · subst hhi
    exact iff_of_true (udividesExactly_zero compiler lo hd) fun h => absurd rfl h
  · cases compiler with
    | int128 => exact iff_of_true (udividesExactly_int128 lo hd hhi) (by simp)
    | msvc => simp [hhi, udividesExactly_msvc_iff lo hd hhi]

/-! ## The unsigned divisions together -/

/-- `udivup` rounds up exactly when its sum does not wrap, and the wide divisions
are exact except with `_udiv128` and an upper half that is not below the
divisor. -/
theorem unsigned_divisions_iff (compiler : Compiler) (a b hi lo d : UInt64) (hb : b ≠ 0)
    (hd : d ≠ 0) :
    (RoundsUp a b ↔ a.toNat + b.toNat ≤ 2 ^ 64) ∧
      (UdividesExactly compiler hi lo d ↔ (hi ≠ 0 → compiler = .msvc → hi < d)) :=
  ⟨roundsUp_iff a hb, udividesExactly_iff compiler hi lo hd⟩

theorem unsigned_divisions_iff_example :
    (RoundsUp 7 2 ↔ (7 : UInt64).toNat + (2 : UInt64).toNat ≤ 2 ^ 64) ∧
      (UdividesExactly .msvc 1 2 3 ↔
        ((1 : UInt64) ≠ 0 → Compiler.msvc = .msvc → (1 : UInt64) < 3)) :=
  unsigned_divisions_iff .msvc 7 2 1 2 3 (by decide) (by decide)

/-- The sum wraps for the largest word, and a quotient of 65 bits traps with the
intrinsic alone. -/
theorem unsigned_divisions_fail :
    (udivup 0xffffffffffffffff 2 = some 0 ∧ ¬ RoundsUp 0xffffffffffffffff 2) ∧
      (udiv128lo .int128 1 0 1 = some 0 ∧ udiv128lo .msvc 1 0 1 = none ∧
        umod128 .msvc 1 0 1 = none ∧ ¬ UdividesExactly .msvc 1 0 1) := by
  decide

end Mwr.MulDiv
