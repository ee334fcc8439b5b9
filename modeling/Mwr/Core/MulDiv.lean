import Mwr.CodeLib.TruncDiv

/-!
# Division of 128 bits by 64 bits

A translation of `idiv128lo` and `imod128` of `include/mwr/core/muldiv.h`.  Both
take the dividend in two halves.  When the upper half is zero they divide the
lower half alone, and otherwise they divide 128 bits with what the compiler
offers for it.

A result of `none` is a division that traps.
-/

namespace Mwr.MulDiv

open Mwr.CodeLib.TruncDiv

/-! ## The code -/

/-- What the compiler offers for the division of 128 bits. -/
inductive Compiler where
  /-- `__SIZEOF_INT128__` is defined. -/
  | int128
  /-- `MWR_MSVC` is defined. -/
  | msvc
  deriving DecidableEq, Repr

/-- `a / b` of type `i64`. -/
def div64 (a b : Int64) : Option Int64 :=
  (sdiv a.toBitVec b.toBitVec).map Int64.ofBitVec

/-- `a % b` of type `i64`. -/
def mod64 (a b : Int64) : Option Int64 :=
  (srem a.toBitVec b.toBitVec).map Int64.ofBitVec

/-- `__int128 dividend = ((unsigned __int128)hi << 64) | lo`. -/
def dividend (hi lo : UInt64) : BitVec 128 :=
  (hi.toBitVec.setWidth 128 <<< 64) ||| lo.toBitVec.setWidth 128

/-- The intrinsic `_div128`: the quotient and the remainder.  The processor's
`idiv` traps when the quotient does not fit into 64 bits. -/
def div128 (hi lo d : Int64) : Option (Int64 × Int64) :=
  let n := hi.toInt * 2 ^ 64 + lo.toUInt64.toNat
  let q := n.tdiv d.toInt
  if d ≠ 0 ∧ -2 ^ 63 ≤ q ∧ q < 2 ^ 63 then
    some (Int64.ofInt q, Int64.ofInt (n.tmod d.toInt))
  else
    none

/-- `idiv128lo(hi, lo, d)`. -/
def idiv128lo (compiler : Compiler) (hi lo : UInt64) (d : Int64) : Option Int64 :=
  if d = 0 then
    some 0
  else if hi = 0 then
    div64 lo.toInt64 d
  else
    match compiler with
    | .int128 =>
      (sdiv (dividend hi lo) (d.toBitVec.signExtend 128)).map fun q =>
        Int64.ofBitVec (q.setWidth 64)
    | .msvc => (div128 hi.toInt64 lo.toInt64 d).map Prod.fst

/-- `imod128(hi, lo, d)`. -/
def imod128 (compiler : Compiler) (hi lo : UInt64) (d : Int64) : Option Int64 :=
  if d = 0 then
    some 0
  else if hi = 0 then
    mod64 lo.toInt64 d
  else
    match compiler with
    | .int128 =>
      (srem (dividend hi lo) (d.toBitVec.signExtend 128)).map fun r =>
        Int64.ofBitVec (r.setWidth 64)
    | .msvc => (div128 hi.toInt64 lo.toInt64 d).map Prod.snd

/-! ## What it computes -/

/-- The signed integer of 128 bits with the halves `hi` and `lo`. -/
def signed128 (hi lo : UInt64) : Int :=
  hi.toInt64.toInt * 2 ^ 64 + lo.toNat

/-- Both functions return, `idiv128lo` the low 64 bits of the truncated quotient
and `imod128` the remainder. -/
def DividesExactly (compiler : Compiler) (hi lo : UInt64) (d : Int64) : Prop :=
  idiv128lo compiler hi lo d = some (Int64.ofInt ((signed128 hi lo).tdiv d.toInt)) ∧
    (imod128 compiler hi lo d).map Int64.toInt =
      some (signed128 hi lo - d.toInt * (signed128 hi lo).tdiv d.toInt)

instance (compiler : Compiler) (hi lo : UInt64) (d : Int64) :
    Decidable (DividesExactly compiler hi lo d) :=
  inferInstanceAs (Decidable (_ ∧ _))

/-- The lower half alone divides as the whole dividend does. -/
def ShortcutHolds (lo : UInt64) (d : Int64) : Prop :=
  lo < 0x8000000000000000 ∨ d = 1 ∨ (d = -1 ∧ lo ≠ 0x8000000000000000)

instance (lo : UInt64) (d : Int64) : Decidable (ShortcutHolds lo d) :=
  inferInstanceAs (Decidable (_ ∨ _))

/-- The dividend is small enough, next to the divisor, for a quotient of 64
bits. -/
def QuotientFits (n : Int) (d : Int) : Prop :=
  -((2 ^ 63 + 1) * d.natAbs) < n * d.sign ∧ n * d.sign < 2 ^ 63 * d.natAbs

/-! ## The general path -/

theorem dividend_eq_append (hi lo : UInt64) : dividend hi lo = hi.toBitVec ++ lo.toBitVec := by
  apply BitVec.eq_of_toNat_eq
  have hhi : hi.toNat < 2 ^ 64 := UInt64.toNat_lt hi
  have hlo : lo.toNat < 2 ^ 64 := UInt64.toNat_lt lo
  simp only [dividend, BitVec.toNat_or, BitVec.toNat_shiftLeft, BitVec.toNat_setWidth,
    BitVec.toNat_append, UInt64.toNat_toBitVec]
  rw [Nat.mod_eq_of_lt (a := hi.toNat) (by omega), Nat.mod_eq_of_lt (a := lo.toNat) (by omega),
    Nat.mod_eq_of_lt (by omega)]

theorem toInt_dividend (hi lo : UInt64) : (dividend hi lo).toInt = signed128 hi lo := by
  rw [dividend_eq_append, BitVec.toInt_append, signed128, Int.mul_comm]
  rfl

theorem toInt_signExtend (d : Int64) : (d.toBitVec.signExtend 128).toInt = d.toInt := by
  rw [BitVec.toInt_signExtend_of_le (by omega)]
  rfl

/-- Only the operands that the caller rules out trap in 128 bits. -/
theorem not_traps_dividend {hi lo : UInt64} {d : Int64} (hd : d ≠ 0)
    (hn : ¬ (signed128 hi lo = -2 ^ 127 ∧ d = -1)) :
    ¬ Traps (dividend hi lo) (d.toBitVec.signExtend 128) := by
  rw [traps_iff (by omega), toInt_dividend, toInt_signExtend]
  rintro (hzero | ⟨hmin, hone⟩)
  · exact hd (Int64.toInt_inj.mp hzero)
  · exact hn ⟨hmin, Int64.toInt_inj.mp hone⟩

/-- The lower half of a wide word, as a signed word. -/
theorem ofBitVec_setWidth (x : BitVec 128) :
    Int64.ofBitVec (x.setWidth 64) = Int64.ofInt x.toInt := by
  apply Int64.toInt_inj.mp
  rw [Int64.toInt_ofBitVec, BitVec.toInt_setWidth, Int64.toInt_ofInt, BitVec.toInt_eq_toNat_bmod,
    Int64.size, Int.bmod_bmod_of_dvd]
  exact ⟨2 ^ 64, by norm_num⟩

/-- The remainder of a division by a word is a word. -/
theorem toInt_ofInt_tmod (n : Int) {d : Int64} (hd : d ≠ 0) :
    (Int64.ofInt (n.tmod d.toInt)).toInt = n - d.toInt * n.tdiv d.toInt := by
  have hd' : d.toInt ≠ 0 := fun h => hd (Int64.toInt_inj.mp h)
  have hle : -2 ^ 63 ≤ d.toInt := Int64.le_toInt d
  have hlt : d.toInt < 2 ^ 63 := Int64.toInt_lt d
  have habs : (n.tmod d.toInt).natAbs < d.toInt.natAbs := by
    rw [Int.natAbs_tmod]
    exact Nat.mod_lt _ (by omega)
  rw [Int64.toInt_ofInt_of_le (by omega) (by omega)]
  exact Int.tmod_def n d.toInt

theorem dividesExactly_int128 {hi lo : UInt64} {d : Int64} (hd : d ≠ 0) (hhi : hi ≠ 0)
    (hn : ¬ (signed128 hi lo = -2 ^ 127 ∧ d = -1)) : DividesExactly .int128 hi lo d := by
  have htraps := not_traps_dividend hd hn
  rcases sdiv_of_not_traps htraps with ⟨q, hq, hqint⟩
  rcases srem_of_not_traps htraps with ⟨r, hr, hrint⟩
  rw [toInt_dividend, toInt_signExtend] at hqint hrint
  constructor
  · simp only [idiv128lo, if_neg hd, if_neg hhi, hq, Option.map_some, ofBitVec_setWidth, hqint]
  · simp only [imod128, if_neg hd, if_neg hhi, hr, Option.map_some, ofBitVec_setWidth, hrint]
    rw [toInt_ofInt_tmod _ hd]

theorem dividesExactly_msvc_iff {hi lo : UInt64} {d : Int64} (hd : d ≠ 0) (hhi : hi ≠ 0) :
    DividesExactly .msvc hi lo d ↔ QuotientFits (signed128 hi lo) d.toInt := by
  have hd' : d.toInt ≠ 0 := fun h => hd (Int64.toInt_inj.mp h)
  have hn : hi.toInt64.toInt * 2 ^ 64 + lo.toInt64.toUInt64.toNat = signed128 hi lo := rfl
  rw [QuotientFits, ← tdiv_fits_iff hd' (by norm_num)]
  by_cases hfits : -2 ^ 63 ≤ (signed128 hi lo).tdiv d.toInt ∧
      (signed128 hi lo).tdiv d.toInt < 2 ^ 63
  · refine iff_of_true ⟨?_, ?_⟩ hfits
    · simp only [idiv128lo, div128, if_neg hd, if_neg hhi, hn]
      rw [if_pos ⟨hd, hfits⟩]
      rfl
    · simp only [imod128, div128, if_neg hd, if_neg hhi, hn]
      rw [if_pos ⟨hd, hfits⟩]
      exact congrArg some (toInt_ofInt_tmod _ hd)
  · refine iff_of_false (fun h => ?_) hfits
    have hdiv := h.1
    simp only [idiv128lo, div128, if_neg hd, if_neg hhi, hn] at hdiv
    rw [if_neg (fun hc => hfits hc.2)] at hdiv
    cases hdiv

/-! ## The shortcut -/

theorem signed128_zero (lo : UInt64) : signed128 0 lo = lo.toNat := by
  rw [signed128]
  exact Int.zero_add _

/-- The lower half, read as signed. -/
theorem toInt_toInt64 (lo : UInt64) :
    lo.toInt64.toInt =
      if lo.toNat < 2 ^ 63 then (lo.toNat : Int) else (lo.toNat : Int) - 2 ^ 64 := by
  have h : lo.toInt64.toInt = lo.toBitVec.toInt := rfl
  have hlt : lo.toNat < 2 ^ 64 := UInt64.toNat_lt lo
  rw [h, BitVec.toInt_eq_toNat_cond, UInt64.toNat_toBitVec]
  split <;> split <;> omega

theorem traps_toInt64_iff {lo : UInt64} {d : Int64} (hd : d ≠ 0) :
    Traps lo.toInt64.toBitVec d.toBitVec ↔ lo = 0x8000000000000000 ∧ d = -1 := by
  have hzero : d.toInt ≠ 0 := fun h => hd (Int64.toInt_inj.mp h)
  have hlo : lo.toInt64.toInt = -2 ^ 63 ↔ lo = 0x8000000000000000 := by
    have hlt : lo.toNat < 2 ^ 64 := UInt64.toNat_lt lo
    rw [toInt_toInt64, ← UInt64.toNat_inj]
    show _ ↔ lo.toNat = 0x8000000000000000
    split <;> omega
  have hone : d.toInt = -1 ↔ d = -1 := Int64.toInt_inj (y := -1)
  have hiff := traps_iff (by omega) lo.toInt64.toBitVec d.toBitVec
  simp only [Int64.toInt_toBitVec, hzero, hone, false_or] at hiff
  rw [hiff, ← hlo]

/-- Two readings of a word as an integer: `r` is the low half of `n`. -/
theorem eq_ofInt_iff (r : Int64) (n : Int) : r = Int64.ofInt n ↔ (2 ^ 64 : Int) ∣ n - r.toInt := by
  have hle : -2 ^ 63 ≤ r.toInt := Int64.le_toInt r
  have hlt : r.toInt < 2 ^ 63 := Int64.toInt_lt r
  have hr : r.toInt.bmod Int64.size = r.toInt := by
    apply Int.bmod_eq_of_le <;> rw [Int64.size] <;> omega
  rw [← Int64.toInt_inj, Int64.toInt_ofInt, ← hr, eq_comm, Int.bmod_eq_bmod_iff_bmod_sub_eq_zero,
    ← Int.dvd_iff_bmod_eq_zero, hr]
  rfl

/-- The shortcut, for operands that do not trap, in terms of the integer `s` that
it divides. -/
theorem dividesExactly_zero_of_not_traps {lo : UInt64} {d : Int64} (compiler : Compiler)
    (hd : d ≠ 0) (htraps : ¬ Traps lo.toInt64.toBitVec d.toBitVec) :
    DividesExactly compiler 0 lo d ↔
      (lo.toInt64.toInt.tmod d.toInt = (lo.toNat : Int).tmod d.toInt ∧
        (2 ^ 64 : Int) ∣ (lo.toNat : Int).tdiv d.toInt - lo.toInt64.toInt.tdiv d.toInt) := by
  rcases sdiv_of_not_traps htraps with ⟨q, hq, hqint⟩
  rcases srem_of_not_traps htraps with ⟨r, hr, hrint⟩
  have hdiv : idiv128lo compiler 0 lo d = some (Int64.ofBitVec q) := by
    simp only [idiv128lo, if_neg hd, if_pos, div64, hq, Option.map_some]
  have hmod : imod128 compiler 0 lo d = some (Int64.ofBitVec r) := by
    simp only [imod128, if_neg hd, if_pos, mod64, hr, Option.map_some]
  rw [DividesExactly, hdiv, hmod, signed128_zero, Option.some_inj, eq_ofInt_iff,
    Int64.toInt_ofBitVec, hqint, Option.map_some, Option.some_inj, Int64.toInt_ofBitVec, hrint,
    ← Int.tmod_def, and_comm]
  rfl

/-- When the shortcut divides as the whole dividend does. -/
theorem dividesExactly_zero_iff (compiler : Compiler) (lo : UInt64) {d : Int64} (hd : d ≠ 0) :
    DividesExactly compiler 0 lo d ↔ ShortcutHolds lo d := by
  have hword : lo.toNat < 2 ^ 64 := UInt64.toNat_lt lo
  have hone : ∀ e : Int64, d.toInt = e.toInt ↔ d = e := fun e => Int64.toInt_inj
  by_cases hlo : lo < 0x8000000000000000
  · have hnat : lo.toNat < 2 ^ 63 := hlo
    have htraps : ¬ Traps lo.toInt64.toBitVec d.toBitVec := by
      rw [traps_toInt64_iff hd]
      rintro ⟨rfl, -⟩
      exact absurd hlo (by decide)
    rw [dividesExactly_zero_of_not_traps compiler hd htraps, toInt_toInt64, if_pos hnat]
    refine iff_of_true ⟨rfl, ?_⟩ (.inl hlo)
    rw [Int.sub_self]
    exact Int.dvd_zero _
  · have hnat : ¬ lo.toNat < 2 ^ 63 := hlo
    by_cases htraps : Traps lo.toInt64.toBitVec d.toBitVec
    · rw [traps_toInt64_iff hd] at htraps
      rcases htraps with ⟨rfl, rfl⟩
      refine iff_of_false ?_ (by decide)
      cases compiler <;> decide
    · rw [dividesExactly_zero_of_not_traps compiler hd htraps, toInt_toInt64, if_neg hnat,
        tdiv_tmod_sub_iff (by omega) (by omega)]
      have h1 : d.toInt = 1 ↔ d = 1 := hone 1
      have h2 : d.toInt = -1 ↔ d = -1 := hone (-1)
      rw [traps_toInt64_iff hd] at htraps
      rw [h1, h2, ShortcutHolds]
      tauto

/-! ## Both paths -/

/-- `idiv128lo` and `imod128` divide exactly when the upper half is not zero, or
the shortcut may be taken; and with `_div128` only when the quotient fits. -/
theorem dividesExactly_iff (compiler : Compiler) (hi lo : UInt64) (d : Int64) (hd : d ≠ 0)
    (hn : ¬ (signed128 hi lo = -2 ^ 127 ∧ d = -1)) :
    DividesExactly compiler hi lo d ↔
      (hi = 0 → ShortcutHolds lo d) ∧
        (hi ≠ 0 → compiler = .msvc → QuotientFits (signed128 hi lo) d.toInt) := by
  by_cases hhi : hi = 0
  · subst hhi
    rw [dividesExactly_zero_iff compiler lo hd]
    simp
  · cases compiler with
    | int128 => simp [hhi, dividesExactly_int128 hd hhi hn]
    | msvc => simp [hhi, dividesExactly_msvc_iff hd hhi]

theorem dividesExactly_iff_example :
    DividesExactly .int128 1 0x8000000000000000 3 ↔
      ((1 : UInt64) = 0 → ShortcutHolds 0x8000000000000000 3) ∧
        ((1 : UInt64) ≠ 0 → Compiler.int128 = .msvc →
          QuotientFits (signed128 1 0x8000000000000000) (3 : Int64).toInt) :=
  dividesExactly_iff .int128 1 0x8000000000000000 3 (by decide) (by decide)

/-- Half of `2 ^ 63` comes out negative, and `2 ^ 63` divided by `-1` traps. -/
theorem shortcut_loses_sign :
    (idiv128lo .int128 0 0x8000000000000000 2 = some (-0x4000000000000000) ∧
      ¬ DividesExactly .int128 0 0x8000000000000000 2) ∧
    (idiv128lo .int128 0 0x8000000000000000 (-1) = none ∧
      ¬ DividesExactly .int128 0 0x8000000000000000 (-1)) := by
  decide

end Mwr.MulDiv
