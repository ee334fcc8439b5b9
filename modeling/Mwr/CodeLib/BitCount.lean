import Mathlib.Tactic.Common

/-!
# Leading and trailing zeros

The highest and the lowest set bit of a bit vector, and the numbers of zeros on the two
sides of them.

* `IsHighest x i` and `IsLowest x i` name the bits.
* `toNat_clz` and `toNat_ctz` are the numbers of zeros for a given bit, and
  `exists_isHighest` and `exists_isLowest` give a bit for a vector that is not zero.
-/

namespace Mwr.CodeLib.BitCount

variable {w : Nat} {x : BitVec w} {i : Nat}

/-- The highest set bit. -/
def IsHighest (x : BitVec w) (i : Nat) : Prop :=
  x.getLsbD i = true ∧ ∀ j, i < j → x.getLsbD j = false

/-- The lowest set bit. -/
def IsLowest (x : BitVec w) (i : Nat) : Prop :=
  x.getLsbD i = true ∧ ∀ j, j < i → x.getLsbD j = false

theorem IsHighest.lt (h : IsHighest x i) : i < w := BitVec.lt_of_getLsbD h.1

theorem IsLowest.lt (h : IsLowest x i) : i < w := BitVec.lt_of_getLsbD h.1

theorem ne_zero_of_getLsbD (h : x.getLsbD i = true) : x ≠ 0#w := by
  rintro rfl
  rw [BitVec.getLsbD_zero] at h
  exact Bool.false_ne_true h

/-- There is one highest set bit. -/
theorem IsHighest.unique {j : Nat} (hi : IsHighest x i) (hj : IsHighest x j) : i = j := by
  rcases Nat.lt_trichotomy i j with hlt | heq | hlt
  · exact absurd (hi.2 j hlt) (by rw [hj.1]; decide)
  · exact heq
  · exact absurd (hj.2 i hlt) (by rw [hi.1]; decide)

theorem IsLowest.unique {j : Nat} (hi : IsLowest x i) (hj : IsLowest x j) : i = j := by
  rcases Nat.lt_trichotomy i j with hlt | heq | hlt
  · exact absurd (hj.2 i hlt) (by rw [hi.1]; decide)
  · exact heq
  · exact absurd (hi.2 j hlt) (by rw [hj.1]; decide)

/-- Zeros in front of a vector do not change its highest bit. -/
theorem IsHighest.setWidth {n : Nat} (h : IsHighest x i) (hn : w ≤ n) :
    IsHighest (x.setWidth n) i := by
  have hbits : ∀ j, (x.setWidth n).getLsbD j = x.getLsbD j := by
    intro j
    rw [BitVec.getLsbD_setWidth]
    by_cases hj : j < n
    · rw [decide_eq_true hj, Bool.true_and]
    · rw [decide_eq_false hj, Bool.false_and, BitVec.getLsbD_of_ge x j (by omega)]
  refine ⟨(hbits i).trans h.1, fun j hj => ?_⟩
  rw [hbits]
  exact h.2 j hj

/-! ## Leading zeros -/

theorem toNat_clz_zero (w : Nat) : (0#w).clz.toNat = w := by
  rw [BitVec.clz_eq_iff_eq_zero.2 rfl, BitVec.natCast_eq_ofNat, BitVec.toNat_ofNat]
  exact Nat.mod_eq_of_lt Nat.lt_two_pow_self

theorem isHighest_clz (hx : x ≠ 0#w) : IsHighest x (w - 1 - x.clz.toNat) := by
  have hw : 0 < w := Nat.pos_of_ne_zero fun h => hx (BitVec.eq_of_zero_length h)
  refine ⟨BitVec.getLsbD_true_clz_of_ne_zero hw hx, fun j hj => ?_⟩
  have hlt : x.toNat < 2 ^ j :=
    Nat.lt_of_lt_of_le BitVec.toNat_lt_two_pow_sub_clz (Nat.pow_le_pow_right (by decide) (by omega))
  exact Nat.testBit_lt_two_pow hlt

theorem exists_isHighest (hx : x ≠ 0#w) : ∃ i, IsHighest x i :=
  ⟨_, isHighest_clz hx⟩

theorem toNat_clz (h : IsHighest x i) : x.clz.toNat = w - 1 - i := by
  have hx := ne_zero_of_getLsbD h.1
  have hlt : x.clz.toNat < w := by
    have := BitVec.clz_lt_iff_ne_zero.2 hx
    rwa [BitVec.natCast_eq_ofNat, BitVec.lt_def, BitVec.toNat_ofNat,
      Nat.mod_eq_of_lt Nat.lt_two_pow_self] at this
  have heq := h.unique (isHighest_clz hx)
  omega

/-! ## Trailing zeros -/

theorem toNat_ctz_zero (w : Nat) : (0#w).ctz.toNat = w := by
  rw [BitVec.ctz_eq_reverse_clz, BitVec.reverse_eq_zero_iff.2 rfl, toNat_clz_zero]

theorem isLowest_ctz (hx : x ≠ 0#w) : IsLowest x x.ctz.toNat :=
  ⟨BitVec.getLsbD_true_ctz_of_ne_zero hx, fun _ hj => BitVec.getLsbD_false_of_lt_ctz hj⟩

theorem exists_isLowest (hx : x ≠ 0#w) : ∃ i, IsLowest x i :=
  ⟨_, isLowest_ctz hx⟩

theorem toNat_ctz (h : IsLowest x i) : x.ctz.toNat = i :=
  (isLowest_ctz (ne_zero_of_getLsbD h.1)).unique h

end Mwr.CodeLib.BitCount
