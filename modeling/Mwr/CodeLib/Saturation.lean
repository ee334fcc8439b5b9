import Mathlib.Algebra.Order.Group.Defs
import Mathlib.Algebra.Order.Monoid.Unbundled.Basic
import Mathlib.Order.Lattice

/-!
# Saturating sums

The nearest value of a range, and what becomes of a sum that is moved into the
range before the last operand is added.

`clamp_clamp_add` says when the early step does no harm: the last operand points
the way that the sum was cut off.  `outside_clamp_add_iff` is the same for the
flag that reports a cut.
-/

namespace Mwr.CodeLib.Saturation

variable {α : Type*} [LinearOrder α] {lo hi n : α}

/-- The value of the range from `lo` to `hi` that is nearest to `n`. -/
def clamp (lo hi n : α) : α :=
  max lo (min hi n)

/-- `n` does not lie in the range from `lo` to `hi`. -/
def Outside (lo hi n : α) : Prop :=
  n < lo ∨ hi < n

theorem clamp_of_le_lo (hle : lo ≤ hi) (h : n ≤ lo) : clamp lo hi n = lo := by
  rw [clamp, min_eq_right (h.trans hle), max_eq_left h]

theorem clamp_of_hi_le (hle : lo ≤ hi) (h : hi ≤ n) : clamp lo hi n = hi := by
  rw [clamp, min_eq_left h, max_eq_right hle]

theorem clamp_of_not_outside (h : ¬ Outside lo hi n) : clamp lo hi n = n := by
  rw [Outside, not_or, not_lt, not_lt] at h
  rw [clamp, min_eq_right h.2, max_eq_right h.1]

section Sums

variable [AddCommGroup α] [IsOrderedAddMonoid α] {s x a b : α}

/-- A sum above the range has a positive summand, if the other is in the range. -/
theorem pos_of_hi_lt_add (hx : x ≤ hi) (h : hi < x + a) : 0 < a :=
  pos_of_lt_add_right (hx.trans_lt h)

theorem neg_of_add_lt_lo (hx : lo ≤ x) (h : x + a < lo) : a < 0 :=
  neg_of_add_lt_right (h.trans_le hx)

theorem clamp_clamp_add (hle : lo ≤ hi) (hhi : hi < s → 0 ≤ b) (hlo : s < lo → b ≤ 0) :
    clamp lo hi (clamp lo hi s + b) = clamp lo hi (s + b) := by
  by_cases hout : Outside lo hi s
  · rcases hout with hlt | hlt
    · have hb : b ≤ 0 := hlo hlt
      rw [clamp_of_le_lo hle hlt.le, clamp_of_le_lo hle (add_le_of_nonpos_right hb),
        clamp_of_le_lo hle ((add_le_of_nonpos_right hb).trans hlt.le)]
    · have hb : 0 ≤ b := hhi hlt
      rw [clamp_of_hi_le hle hlt.le, clamp_of_hi_le hle (le_add_of_nonneg_right hb),
        clamp_of_hi_le hle (hlt.le.trans (le_add_of_nonneg_right hb))]
  · rw [clamp_of_not_outside hout]

theorem outside_clamp_add_iff (hhi : hi < s → 0 ≤ b) (hlo : s < lo → b ≤ 0) :
    Outside lo hi s ∨ Outside lo hi (clamp lo hi s + b) ↔ Outside lo hi (s + b) := by
  by_cases hout : Outside lo hi s
  · refine iff_of_true (.inl hout) ?_
    rcases hout with hlt | hlt
    · exact .inl ((add_le_of_nonpos_right (hlo hlt)).trans_lt hlt)
    · exact .inr (hlt.trans_le (le_add_of_nonneg_right (hhi hlt)))
  · rw [clamp_of_not_outside hout]
    exact or_iff_right hout

end Sums

end Mwr.CodeLib.Saturation
