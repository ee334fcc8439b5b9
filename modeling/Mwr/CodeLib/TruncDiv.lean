import Mathlib.Algebra.Group.Int.Units
import Mathlib.Algebra.Order.Group.Int
import Mathlib.Tactic.Linarith
import Mathlib.Tactic.Ring

/-!
# Truncated division of machine words

Signed `/` and `%` of C++ on words of one width, and the integer facts behind
reading a word in two ways.  A word `n` with its top bit set is the negative
number `n - b` when it is read as signed, where `b` is the number of words.

* `sdiv` and `srem` are undefined where the processor traps, and compute
  `Int.tdiv` and `Int.tmod` elsewhere.
* `tdiv_fits_iff` bounds a quotient by bounds on the dividend.
* `tdiv_tmod_sub_iff` says which divisors do not see the sign of a word.
-/

namespace Mwr.CodeLib.TruncDiv

/-! ## Division that traps -/

variable {w : Nat}

/-- The operands for which signed division has no result: the divisor is zero,
or the quotient is one above the largest signed word. -/
def Traps (x y : BitVec w) : Prop :=
  y = 0#w ∨ (x = BitVec.intMin w ∧ y = -1#w)

instance (x y : BitVec w) : Decidable (Traps x y) :=
  inferInstanceAs (Decidable (_ ∨ _))

/-- The signed quotient `x / y`. -/
def sdiv (x y : BitVec w) : Option (BitVec w) :=
  if Traps x y then none else some (x.sdiv y)

/-- The signed remainder `x % y`. -/
def srem (x y : BitVec w) : Option (BitVec w) :=
  if Traps x y then none else some (x.srem y)

theorem traps_iff (hw : 1 < w) (x y : BitVec w) :
    Traps x y ↔ y.toInt = 0 ∨ (x.toInt = -2 ^ (w - 1) ∧ y.toInt = -1) := by
  have hzero : y = 0#w ↔ y.toInt = 0 := by
    rw [← BitVec.toInt_inj, BitVec.toInt_zero]
  have hmin : x = BitVec.intMin w ↔ x.toInt = -2 ^ (w - 1) := by
    rw [← BitVec.toInt_inj, BitVec.toInt_intMin_of_pos (by omega)]
  have hone : y = -1#w ↔ y.toInt = -1 := by
    have hneg : (-1#w).toInt = -1 := by
      rw [BitVec.neg_one_eq_allOnes, BitVec.toInt_allOnes, if_pos (by omega)]
    rw [← BitVec.toInt_inj, hneg]
  rw [Traps, hzero, hmin, hone]

theorem sdiv_of_not_traps {x y : BitVec w} (h : ¬ Traps x y) :
    ∃ q, sdiv x y = some q ∧ q.toInt = x.toInt.tdiv y.toInt := by
  refine ⟨x.sdiv y, if_neg h, BitVec.toInt_sdiv_of_ne_or_ne x y ?_⟩
  by_contra hne
  exact h (.inr (by tauto))

theorem srem_of_not_traps {x y : BitVec w} (h : ¬ Traps x y) :
    ∃ r, srem x y = some r ∧ r.toInt = x.toInt.tmod y.toInt :=
  ⟨x.srem y, if_neg h, BitVec.toInt_srem x y⟩

/-! ## Bounds on a quotient -/

/-- For a positive divisor, a quotient is below a positive bound when the dividend
is below the multiple. -/
theorem tdiv_lt_iff {n d m : Int} (hd : 0 < d) (hm : 0 < m) : n.tdiv d < m ↔ n < m * d := by
  constructor
  · exact Int.lt_mul_of_tdiv_lt hd
  · intro h
    have heq : d * n.tdiv d + n.tmod d = n := Int.mul_tdiv_add_tmod n d
    have hlt : -d < n.tmod d := Int.lt_tmod_of_pos n hd
    by_contra hge
    rcases Int.le_total 0 n with hn | hn
    · have hmod : 0 ≤ n.tmod d := Int.tmod_nonneg d hn
      nlinarith
    · have hq : 0 ≤ (-n).tdiv d := Int.tdiv_nonneg (by omega) (by omega)
      rw [Int.neg_tdiv] at hq
      omega

/-- A quotient lies in `[-m, m)` when the dividend, with the sign of the divisor
moved over to it, lies between the multiples of the divisor. -/
theorem tdiv_fits_iff {n d m : Int} (hd : d ≠ 0) (hm : 0 < m) :
    (-m ≤ n.tdiv d ∧ n.tdiv d < m) ↔
      (-((m + 1) * d.natAbs) < n * d.sign ∧ n * d.sign < m * d.natAbs) := by
  have hpos : ∀ n d : Int, 0 < d →
      ((-m ≤ n.tdiv d ∧ n.tdiv d < m) ↔ (-((m + 1) * d) < n ∧ n < m * d)) := by
    intro n d hd
    have hlow : (-n).tdiv d < m + 1 ↔ -n < (m + 1) * d := tdiv_lt_iff hd (by omega)
    rw [Int.neg_tdiv] at hlow
    rw [← tdiv_lt_iff hd hm]
    omega
  rcases Int.lt_or_gt_of_ne hd with hneg | hgt
  · rw [Int.sign_eq_neg_one_of_neg hneg, Int.ofNat_natAbs_of_nonpos (by omega),
      show n * -1 = -n by omega, ← hpos (-n) (-d) (by omega), Int.neg_tdiv, Int.tdiv_neg,
      Int.neg_neg]
  · rw [Int.sign_eq_one_of_pos hgt, Int.natAbs_of_nonneg (by omega), Int.mul_one, hpos n d hgt]

/-! ## The sign of a word -/

/-- The divisors that do not see whether a word is read as `n` or as `n - b`:
only a divisor of size one has the same remainder and the same quotient
modulo `b` for both. -/
theorem tdiv_tmod_sub_iff {n b d : Int} (hn : 0 ≤ n) (hb : n < b) :
    ((n - b).tmod d = n.tmod d ∧ b ∣ n.tdiv d - (n - b).tdiv d) ↔ d = 1 ∨ d = -1 := by
  constructor
  · rintro ⟨hmod, k, hk⟩
    have hge : 0 ≤ n.tmod d := Int.tmod_nonneg d hn
    have hle : (n - b).tmod d ≤ 0 := by
      have h : 0 ≤ (-(n - b)).tmod d := Int.tmod_nonneg d (by omega)
      rw [Int.neg_tmod] at h
      omega
    have hn' : d * n.tdiv d + n.tmod d = n := Int.mul_tdiv_add_tmod n d
    have hnb : d * (n - b).tdiv d + (n - b).tmod d = n - b := Int.mul_tdiv_add_tmod (n - b) d
    have hdk : b * (d * k) = b * 1 := by
      calc b * (d * k) = d * (n.tdiv d - (n - b).tdiv d) := by rw [hk]; ring
        _ = b * 1 := by rw [Int.mul_sub]; omega
    have hone : d * k = 1 := Int.eq_of_mul_eq_mul_left (by omega) hdk
    rcases Int.mul_eq_one_iff_eq_one_or_neg_one.mp hone with h | h
    · exact .inl h.1
    · exact .inr h.1
  · rintro (rfl | rfl)
    · simp
    · simp only [Int.tmod_neg, Int.tmod_one, Int.tdiv_neg, Int.tdiv_one, true_and]
      exact ⟨-1, by ring⟩

end Mwr.CodeLib.TruncDiv
