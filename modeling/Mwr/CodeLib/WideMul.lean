import Mathlib.Tactic.LinearCombination
import Mathlib.Tactic.Ring
import Mathlib.Tactic.Zify
import Mathlib.Algebra.Ring.Int.Defs
import Mathlib.Algebra.Order.Ring.Int

/-!
# Products of two digits by two

The product of two numbers of two digits, column by column, with the carry of
each column taken along to the next.  The base is arbitrary.

`mulHigh_mulLow` says that nothing is lost.  The lemmas `digit_mul_*` say that a
product of digits and the carries that are added to it fit into two digits: a
machine with words of two digits computes every column without overflow.
-/

namespace Mwr.CodeLib.WideMul

/-! ## The columns -/

/-- The product of the low digits. -/
def column₀ (base a b : Nat) : Nat :=
  (a % base) * (b % base)

/-- The first mixed product, with what the low digits carry. -/
def column₁ (base a b : Nat) : Nat :=
  (a / base) * (b % base) + column₀ base a b / base

/-- The second mixed product, with the low digit of the first. -/
def column₂ (base a b : Nat) : Nat :=
  (a % base) * (b / base) + column₁ base a b % base

/-- The two upper digits of the product. -/
def mulHigh (base a b : Nat) : Nat :=
  (a / base) * (b / base) + column₁ base a b / base + column₂ base a b / base

/-- The two lower digits of the product. -/
def mulLow (base a b : Nat) : Nat :=
  column₂ base a b % base * base + column₀ base a b % base

theorem mulHigh_mulLow (base a b : Nat) :
    mulHigh base a b * (base * base) + mulLow base a b = a * b := by
  have ha : base * (a / base) + a % base = a := Nat.div_add_mod a base
  have hb : base * (b / base) + b % base = b := Nat.div_add_mod b base
  have h₀ := Nat.div_add_mod (column₀ base a b) base
  have h₁ := Nat.div_add_mod (column₁ base a b) base
  have h₂ := Nat.div_add_mod (column₂ base a b) base
  conv at h₀ => rhs; rw [column₀]
  conv at h₁ => rhs; rw [column₁]
  conv at h₂ => rhs; rw [column₂]
  conv_rhs => rw [← ha, ← hb]
  rw [mulHigh, mulLow]
  zify at h₀ h₁ h₂ ⊢
  linear_combination h₀ + base * h₁ + base * h₂

/-! ## What fits into two digits -/

section Bounds

variable {base : Nat}

/-- A product of digits leaves room for two more digits. -/
theorem digit_mul_add_add_lt {x y c d : Nat} (hx : x < base) (hy : y < base) (hc : c < base)
    (hd : d < base) : x * y + c + d < base * base := by
  obtain ⟨n, rfl⟩ : ∃ n, base = n + 1 := ⟨base - 1, by omega⟩
  have hmul : x * y ≤ n * n := Nat.mul_le_mul (by omega) (by omega)
  have hsq : (n + 1) * (n + 1) = n * n + n + n + 1 := by ring
  omega

theorem digit_mul_add_lt {x y c : Nat} (hx : x < base) (hy : y < base) (hc : c < base) :
    x * y + c < base * base := by
  have h := digit_mul_add_add_lt hx hy hc (Nat.zero_lt_of_lt hx)
  omega

theorem digit_mul_lt {x y : Nat} (hx : x < base) (hy : y < base) : x * y < base * base :=
  Nat.mul_lt_mul'' hx hy

theorem high_digit_lt {a : Nat} (ha : a < base * base) : a / base < base :=
  Nat.div_lt_of_lt_mul ha

theorem low_digit_lt {a : Nat} (ha : a < base * base) : a % base < base :=
  Nat.mod_lt _ (Nat.pos_of_ne_zero fun h => by simp [h] at ha)

end Bounds

end Mwr.CodeLib.WideMul
