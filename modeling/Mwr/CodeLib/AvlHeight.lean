import Mathlib.Algebra.Order.Ring.Nat
import Mathlib.Data.Nat.Fib.Basic
import Mathlib.Data.Nat.Log
import Mwr.CodeLib.AvlTree

/-!
# The height of a balanced tree

A balanced tree of a given height has at least as many nodes as a Fibonacci tree, so that its
height is at most logarithmic in the number of its nodes.

* `fib_height_le` is the number of nodes, by induction on the tree.
* `height_le_clog` is the bound on the height.
-/

namespace Mwr.CodeLib.AvlTree

open BinaryTree

variable {α : Type*} {t : BinaryTree α}

/-- A tree is one higher than the higher subtree, and the other one is at most one lower. -/
theorem fib_height_le (h : Balanced t) : Nat.fib (t.height + 2) ≤ t.numNodes + 1 := by
  induction t with
  | nil => exact Nat.le_refl 1
  | node a l r ihl ihr =>
    obtain ⟨hl, hr, hlr, hrl⟩ := balanced_node.1 h
    have hfibl := ihl hl
    have hfibr := ihr hr
    have hsum : Nat.fib (max l.height r.height + 3) =
        Nat.fib (max l.height r.height + 1) + Nat.fib (max l.height r.height + 2) :=
      Nat.fib_add_two
    rw [height, numNodes, Nat.add_right_comm, hsum]
    rcases Nat.le_total l.height r.height with hle | hle
    · have hmono : Nat.fib (r.height + 1) ≤ Nat.fib (l.height + 2) := Nat.fib_mono (by omega)
      rw [max_eq_right hle]
      omega
    · have hmono : Nat.fib (l.height + 1) ≤ Nat.fib (r.height + 2) := Nat.fib_mono (by omega)
      rw [max_eq_left hle]
      omega

/-- Two steps double a Fibonacci number. -/
theorem two_pow_le_fib_sq (n : Nat) : 2 ^ n ≤ Nat.fib (n + 2) ^ 2 := by
  induction n using Nat.twoStepInduction with
  | zero => decide
  | one => decide
  | more n ih _ =>
    have hmono : Nat.fib (n + 2) ≤ Nat.fib (n + 3) := Nat.fib_mono (Nat.le_succ _)
    have hsum : Nat.fib (n + 4) = Nat.fib (n + 2) + Nat.fib (n + 3) := Nat.fib_add_two
    have hdouble : 2 * Nat.fib (n + 2) ≤ Nat.fib (n + 4) := by omega
    calc 2 ^ (n + 2) = 2 ^ 2 * 2 ^ n := by rw [Nat.pow_add, Nat.mul_comm]
      _ ≤ 2 ^ 2 * Nat.fib (n + 2) ^ 2 := Nat.mul_le_mul_left _ ih
      _ = (2 * Nat.fib (n + 2)) ^ 2 := (Nat.mul_pow 2 _ 2).symm
      _ ≤ Nat.fib (n + 4) ^ 2 := Nat.pow_le_pow_left hdouble 2

theorem height_le_clog (h : Balanced t) : t.height ≤ 2 * Nat.clog 2 (t.numNodes + 1) := by
  refine (Nat.pow_le_pow_iff_right (by decide : 1 < 2)).1 ?_
  calc 2 ^ t.height ≤ Nat.fib (t.height + 2) ^ 2 := two_pow_le_fib_sq t.height
    _ ≤ (t.numNodes + 1) ^ 2 := Nat.pow_le_pow_left (fib_height_le h) 2
    _ ≤ (2 ^ Nat.clog 2 (t.numNodes + 1)) ^ 2 :=
      Nat.pow_le_pow_left (Nat.le_pow_clog (by decide) _) 2
    _ = 2 ^ (2 * Nat.clog 2 (t.numNodes + 1)) := by rw [← Nat.pow_mul, Nat.mul_comm]

end Mwr.CodeLib.AvlTree
