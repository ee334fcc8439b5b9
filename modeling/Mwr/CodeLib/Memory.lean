import Mathlib.Logic.Function.Basic
import Mwr.CodeLib.Bytes

/-!
# Bytes in memory

A memory is a function from addresses to bytes.

* `window mem a n` reads `n` bytes from address `a`, and `overlay mem a xs` is the
  memory with `xs` stored there.
* `window_overlay` and `overlay_of_outside` say what a store changes and what it
  leaves alone.
* `overlay_set` is a store of one byte.  `overlay_append` and `overlay_append_right` split a
  store, and `window_add` splits what is read.
-/

namespace Mwr.CodeLib

/-- The bytes at all addresses. -/
abbrev Memory := Nat → UInt8

namespace Memory

/-- The `n` bytes from address `a` on. -/
def window (mem : Memory) (a n : Nat) : Bytes := (List.range n).map fun i => mem (a + i)

/-- The memory with the bytes `xs` from address `a` on. -/
def overlay (mem : Memory) (a : Nat) (xs : Bytes) : Memory := fun x =>
  if a ≤ x then xs[x - a]?.getD (mem x) else mem x

@[simp] theorem length_window (mem : Memory) (a n : Nat) : (window mem a n).length = n := by
  rw [window, List.length_map, List.length_range]

theorem window_overlay (mem : Memory) (a : Nat) (xs : Bytes) :
    window (overlay mem a xs) a xs.length = xs := by
  apply List.ext_getElem
  · rw [length_window]
  · intro i h₁ h₂
    simp only [window, List.getElem_map, List.getElem_range]
    rw [overlay, if_pos (Nat.le_add_right a i), Nat.add_sub_cancel_left,
      List.getElem?_eq_getElem h₂, Option.getD_some]

theorem overlay_of_outside (mem : Memory) {a x : Nat} {xs : Bytes}
    (h : x < a ∨ a + xs.length ≤ x) : overlay mem a xs x = mem x := by
  rw [overlay]
  split
  next hle => rw [List.getElem?_eq_none (by omega), Option.getD_none]
  next => rfl

theorem overlay_of_inside (mem : Memory) {a x : Nat} {xs : Bytes} (hle : a ≤ x)
    (hlt : x - a < xs.length) : overlay mem a xs x = xs[x - a] := by
  rw [overlay, if_pos hle, List.getElem?_eq_getElem hlt, Option.getD_some]

theorem overlay_append (mem : Memory) (a : Nat) (xs ys : Bytes) :
    overlay mem a (xs ++ ys) = overlay (overlay mem (a + xs.length) ys) a xs := by
  funext x
  by_cases hin : a ≤ x ∧ x < a + xs.length
  · have hlt : x - a < xs.length := by omega
    rw [overlay_of_inside _ hin.1 hlt, overlay, if_pos hin.1, List.getElem?_append_left hlt,
      List.getElem?_eq_getElem hlt, Option.getD_some]
  · have houter : overlay (overlay mem (a + xs.length) ys) a xs x =
        overlay mem (a + xs.length) ys x := overlay_of_outside _ (by omega)
    rw [houter, overlay, overlay]
    by_cases hle : a + xs.length ≤ x
    · rw [if_pos (by omega), if_pos hle, List.getElem?_append_right (by omega), Nat.sub_sub]
    · rw [if_neg (by omega), if_neg hle]

/-- A store of two pieces, the first one first. -/
theorem overlay_append_right (mem : Memory) (a : Nat) (xs ys : Bytes) :
    overlay mem a (xs ++ ys) = overlay (overlay mem a xs) (a + xs.length) ys := by
  funext x
  by_cases hin : a + xs.length ≤ x ∧ x < a + xs.length + ys.length
  · have hlt : x - (a + xs.length) < ys.length := by omega
    rw [overlay_of_inside _ hin.1 hlt, overlay, if_pos (by omega), List.getElem?_append_right
      (by omega), Nat.sub_sub, List.getElem?_eq_getElem hlt, Option.getD_some]
  · have houter : overlay (overlay mem a xs) (a + xs.length) ys x = overlay mem a xs x :=
      overlay_of_outside _ (by omega)
    rw [houter, overlay, overlay]
    by_cases hlt : x - a < xs.length
    · rw [List.getElem?_append_left hlt]
    · split
      next hle => rw [List.getElem?_eq_none (by rw [List.length_append]; omega),
          List.getElem?_eq_none (by omega)]
      next => rfl

theorem overlay_nil (mem : Memory) (a : Nat) : overlay mem a [] = mem := by
  funext x
  exact overlay_of_outside mem (by rw [List.length_nil]; omega)

theorem window_congr {mem mem' : Memory} {a n : Nat} (h : ∀ i < n, mem' (a + i) = mem (a + i)) :
    window mem' a n = window mem a n :=
  List.map_congr_left fun i hi => h i (List.mem_range.1 hi)

theorem window_zero (mem : Memory) (a : Nat) : window mem a 0 = [] := rfl

theorem window_add (mem : Memory) (a m n : Nat) :
    window mem a (m + n) = window mem a m ++ window mem (a + m) n := by
  rw [window, List.range_add, List.map_append, List.map_map]
  refine congrArg _ (List.map_congr_left fun i _ => ?_)
  rw [Function.comp_apply, Nat.add_assoc]

/-- Storing what stands there already. -/
theorem overlay_window (mem : Memory) (a n : Nat) : overlay mem a (window mem a n) = mem := by
  funext x
  by_cases hin : a ≤ x ∧ x < a + n
  · have hlt : x - a < (window mem a n).length := by
      rw [length_window]
      omega
    rw [overlay_of_inside mem hin.1 hlt]
    simp only [window, List.getElem_map, List.getElem_range]
    rw [Nat.add_sub_cancel' hin.1]
  · exact overlay_of_outside mem (by rw [length_window]; omega)

theorem drop_window (mem : Memory) (a n k : Nat) :
    (window mem a n).drop k = window mem (a + k) (n - k) := by
  apply List.ext_getElem
  · rw [List.length_drop, length_window, length_window]
  · intro i h₁ h₂
    simp only [window, List.getElem_drop, List.getElem_map, List.getElem_range, Nat.add_assoc]

/-- A store of one byte into a range that is stored already. -/
theorem overlay_set (mem : Memory) {a i : Nat} {xs : Bytes} (h : i < xs.length) (b : UInt8) :
    overlay mem a (xs.set i b) = Function.update (overlay mem a xs) (a + i) b := by
  funext x
  by_cases hx : x = a + i
  · have hlt : i < (xs.set i b).length := by rwa [List.length_set]
    rw [hx, Function.update_self, overlay, if_pos (Nat.le_add_right a i), Nat.add_sub_cancel_left,
      List.getElem?_eq_getElem hlt, List.getElem_set_self, Option.getD_some]
  · rw [Function.update_of_ne hx, overlay, overlay]
    split
    next hle => rw [List.getElem?_set_ne (by omega)]
    next => rfl

end Memory

end Mwr.CodeLib
