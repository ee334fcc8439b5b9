import Mathlib.Tactic.Common

/-!
# Rotations

The bits of `BitVec.rotateLeft` and `BitVec.rotateRight` in terms of remainders, and how two
rotations compose.

* `getLsbD_rotateLeft_add` says where a bit goes, and `eq_of_getLsbD_add` that it is enough
  to compare two vectors there.
* `rotateRight_rotateLeft` and `rotateLeft_rotateLeft` are the laws.
-/

namespace Mwr.CodeLib.Rotation

variable {w : Nat} {x y : BitVec w} {i n : Nat}

/-- The remainder of a sum, for a first operand that is a remainder itself. -/
theorem add_mod_cases (hi : i < w) (n : Nat) :
    i + n % w < w ∧ (i + n) % w = i + n % w ∨ w ≤ i + n % w ∧ (i + n) % w = i + n % w - w := by
  have hr : n % w < w := Nat.mod_lt n (Nat.zero_lt_of_lt hi)
  have hmod : (i + n) % w = (i + n % w) % w := (Nat.add_mod_mod i n w).symm
  by_cases h : i + n % w < w
  · exact .inl ⟨h, hmod.trans (Nat.mod_eq_of_lt h)⟩
  · have hle : w ≤ i + n % w := Nat.le_of_not_lt h
    refine .inr ⟨hle, hmod.trans ?_⟩
    rw [Nat.mod_eq_sub_mod hle, Nat.mod_eq_of_lt (by omega)]

/-- A rotation to the left moves the bit `i` up by `n` places, and around. -/
theorem getLsbD_rotateLeft_add (x : BitVec w) (hi : i < w) (n : Nat) :
    (x.rotateLeft n).getLsbD ((i + n) % w) = x.getLsbD i := by
  have hlt : (i + n) % w < w := Nat.mod_lt _ (Nat.zero_lt_of_lt hi)
  have hr : n % w < w := Nat.mod_lt n (Nat.zero_lt_of_lt hi)
  rw [BitVec.getLsbD_rotateLeft, decide_eq_true hlt, Bool.true_and]
  rcases add_mod_cases hi n with ⟨h, heq⟩ | ⟨h, heq⟩
  · rw [heq, decide_eq_false (by omega), cond_false, Nat.add_sub_cancel]
  · rw [heq, decide_eq_true (by omega), cond_true]
    congr 1
    omega

/-- A rotation to the right takes the bit from there. -/
theorem getLsbD_rotateRight (x : BitVec w) (hi : i < w) (n : Nat) :
    (x.rotateRight n).getLsbD i = x.getLsbD ((i + n) % w) := by
  have hr : n % w < w := Nat.mod_lt n (Nat.zero_lt_of_lt hi)
  rw [BitVec.getLsbD_rotateRight, decide_eq_true hi, Bool.true_and]
  rcases add_mod_cases hi n with ⟨h, heq⟩ | ⟨h, heq⟩
  · rw [heq, decide_eq_true (by omega), cond_true, Nat.add_comm]
  · rw [heq, decide_eq_false (by omega), cond_false]
    congr 1
    omega

/-- Every bit is moved to some place. -/
theorem eq_of_getLsbD_add (n : Nat)
    (h : ∀ i, i < w → x.getLsbD ((i + n) % w) = y.getLsbD ((i + n) % w)) : x = y := by
  apply BitVec.eq_of_getLsbD_eq
  intro j hj
  have hr : n % w < w := Nat.mod_lt n (Nat.zero_lt_of_lt hj)
  have hi : (j + (w - n % w)) % w < w := Nat.mod_lt _ (Nat.zero_lt_of_lt hj)
  have hback : ((j + (w - n % w)) % w + n) % w = j := by
    rw [Nat.mod_add_mod, ← Nat.add_mod_mod, Nat.add_assoc, Nat.sub_add_cancel (Nat.le_of_lt hr),
      Nat.add_mod_right, Nat.mod_eq_of_lt hj]
  have hj := h _ hi
  rwa [hback] at hj

/-- A rotation to the left, by the places that are left for one to the right. -/
theorem rotateLeft_eq_rotateRight (x : BitVec w) (n : Nat) :
    x.rotateLeft n = x.rotateRight (w - n % w) := by
  refine eq_of_getLsbD_add n fun i hi => ?_
  have hlt : (i + n) % w < w := Nat.mod_lt _ (Nat.zero_lt_of_lt hi)
  have hr : n % w ≤ w := Nat.le_of_lt (Nat.mod_lt n (Nat.zero_lt_of_lt hi))
  have hback : ((i + n) % w + (w - n % w)) % w = i := by
    rw [← Nat.add_mod_mod i n, Nat.mod_add_mod, Nat.add_assoc, Nat.add_sub_cancel' hr,
      Nat.add_mod_right, Nat.mod_eq_of_lt hi]
  rw [getLsbD_rotateLeft_add x hi, getLsbD_rotateRight x hlt, hback]

theorem rotateRight_of_mod_eq_zero (x : BitVec w) (h : n % w = 0) : x.rotateRight n = x := by
  apply BitVec.eq_of_getLsbD_eq
  intro i hi
  rw [getLsbD_rotateRight x hi, ← Nat.add_mod_mod, h, Nat.add_zero, Nat.mod_eq_of_lt hi]

theorem rotateLeft_of_mod_eq_zero (x : BitVec w) (h : n % w = 0) : x.rotateLeft n = x := by
  rw [rotateLeft_eq_rotateRight, h]
  exact rotateRight_of_mod_eq_zero x (Nat.mod_self w)

theorem rotateRight_rotateLeft (x : BitVec w) (n : Nat) : (x.rotateLeft n).rotateRight n = x := by
  apply BitVec.eq_of_getLsbD_eq
  intro i hi
  rw [getLsbD_rotateRight _ hi, getLsbD_rotateLeft_add x hi]

theorem rotateLeft_rotateLeft (x : BitVec w) (n m : Nat) :
    (x.rotateLeft n).rotateLeft m = x.rotateLeft (n + m) := by
  refine eq_of_getLsbD_add (n + m) fun i hi => ?_
  have hmod : (i + n) % w < w := Nat.mod_lt _ (Nat.zero_lt_of_lt hi)
  rw [getLsbD_rotateLeft_add x hi]
  calc ((x.rotateLeft n).rotateLeft m).getLsbD ((i + (n + m)) % w)
      = ((x.rotateLeft n).rotateLeft m).getLsbD (((i + n) % w + m) % w) := by
        rw [Nat.mod_add_mod, Nat.add_assoc]
    _ = (x.rotateLeft n).getLsbD ((i + n) % w) := getLsbD_rotateLeft_add _ hmod m
    _ = x.getLsbD i := getLsbD_rotateLeft_add x hi n

end Mwr.CodeLib.Rotation
