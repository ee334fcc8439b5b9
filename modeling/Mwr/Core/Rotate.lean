import Mwr.CodeLib.Rotation
import Mwr.Core.BitCount

/-!
# Rotating words

A translation of `rol` and `ror` of `include/mwr/core/bitops.h`.  A call that shifts by too
much has no result.

* `rol_eq` and `ror_eq` reduce the functions to the rotations of `Mwr.CodeLib.Rotation`, for
  every type and every number of places.
* `rol_ror_laws` is what they have in common.
-/

namespace Mwr.Bitops

open Mwr.CodeLib.CInt
open Mwr.CodeLib.Rotation

variable {T : IntType} {v : Value T}

/-! ## The code -/

/-- `rol(val, n)`. -/
def rol (T : IntType) (val : Value T) (n : BitVec 64) : Option (Value T) :=
  let n := n &&& (widthOf T - 1)
  if n ≠ 0 then do
    let left ← shl T.makeUnsigned (castTo T val T.makeUnsigned.bits) n.toNat
    let right ← shr T.makeUnsigned (castTo T val T.makeUnsigned.bits) (widthOf T - n).toNat
    some (castTo T.makeUnsigned.promoted (left ||| right) T.bits)
  else some val

/-- `ror(val, n)`. -/
def ror (T : IntType) (val : Value T) (n : BitVec 64) : Option (Value T) :=
  let n := n &&& (widthOf T - 1)
  if n = 0 then some val
  else if n ≠ 0 then do
    let right ← shr T.makeUnsigned (castTo T val T.makeUnsigned.bits) n.toNat
    let left ← shl T.makeUnsigned (castTo T val T.makeUnsigned.bits) (widthOf T - n).toNat
    some (castTo T.makeUnsigned.promoted (right ||| left) T.bits)
  else some val

/-! ## The number of places -/

theorem bits_eq_two_pow (T : IntType) : ∃ k, k ≤ 64 ∧ T.bits = 2 ^ k := by
  obtain ⟨_, width⟩ := T
  cases width with
  | w8 => exact ⟨3, by decide, rfl⟩
  | w16 => exact ⟨4, by decide, rfl⟩
  | w32 => exact ⟨5, by decide, rfl⟩
  | w64 => exact ⟨6, by decide, rfl⟩

/-- A sum of numbers of places may wrap around. -/
theorem bits_dvd (T : IntType) : T.bits ∣ 2 ^ 64 := by
  obtain ⟨k, hk, hbits⟩ := bits_eq_two_pow T
  rw [hbits]
  exact Nat.pow_dvd_pow 2 hk

theorem toNat_widthOf_sub {n : BitVec 64} (h : n.toNat ≤ T.bits) :
    (widthOf T - n).toNat = T.bits - n.toNat := by
  have hle : n ≤ widthOf T := by
    rw [BitVec.le_def, toNat_widthOf]
    exact h
  rw [BitVec.toNat_sub_of_le hle, toNat_widthOf]

/-- The mask leaves a remainder, since the width is a power of two. -/
theorem toNat_and_widthOf (T : IntType) (n : BitVec 64) :
    (n &&& (widthOf T - 1)).toNat = n.toNat % T.bits := by
  obtain ⟨k, -, hbits⟩ := bits_eq_two_pow T
  have hmask : (widthOf T - 1).toNat = T.bits - 1 := toNat_widthOf_sub T.bits_pos
  rw [BitVec.toNat_and, hmask, hbits, Nat.and_two_pow_sub_one_eq_mod]

theorem and_widthOf_eq_zero_iff (T : IntType) (n : BitVec 64) :
    n &&& (widthOf T - 1) = 0 ↔ n.toNat % T.bits = 0 := by
  rw [← toNat_and_widthOf T n]
  exact ⟨fun h => by rw [h]; rfl, fun h => BitVec.eq_of_toNat_eq h⟩

/-- The places that are left. -/
theorem toNat_widthOf_sub_and (T : IntType) (n : BitVec 64) :
    (widthOf T - (n &&& (widthOf T - 1))).toNat = T.bits - n.toNat % T.bits := by
  have hn := toNat_and_widthOf T n
  have hlt : n.toNat % T.bits < T.bits := Nat.mod_lt _ T.bits_pos
  rw [toNat_widthOf_sub (by omega), hn]

/-! ## The shifts -/

/-- A shift of the unsigned operand to the left, below the width of its type. -/
theorem shl_makeUnsigned (T : IntType) (v : Value T) {n : Nat} (hn : n < T.bits) :
    ∃ r, shl T.makeUnsigned (castTo T v T.makeUnsigned.bits) n = some r ∧
      ∀ i, i < T.bits → r.getLsbD i = (decide (n ≤ i) && v.getLsbD (i - n)) := by
  rw [castTo_bits T v]
  exact shl_eq T.makeUnsigned v (Nat.lt_of_lt_of_le hn T.makeUnsigned.bits_le_promoted)

/-- A shift to the right.  There is no sign. -/
theorem shr_makeUnsigned (T : IntType) (v : Value T) {n : Nat} (hn : n < T.bits) :
    ∃ r, shr T.makeUnsigned (castTo T v T.makeUnsigned.bits) n = some r ∧
      ∀ i, i < T.bits → r.getLsbD i = v.getLsbD (n + i) := by
  rw [castTo_bits T v]
  obtain ⟨r, hr, hbits⟩ :=
    shr_eq T.makeUnsigned v (Nat.lt_of_lt_of_le hn T.makeUnsigned.bits_le_promoted)
  refine ⟨r, hr, fun i hi => ?_⟩
  rw [hbits i hi]
  split
  next => rfl
  next h => rw [Bool.false_and, BitVec.getLsbD_of_ge v _ (Nat.le_of_not_lt h)]

/-- The two shifts put every bit of the operand in a place of its own. -/
theorem castTo_or_shifts (T : IntType) (v : Value T) {n : Nat} (hpos : 0 < n) (hn : n < T.bits) :
    ∃ left right, shl T.makeUnsigned (castTo T v T.makeUnsigned.bits) (T.bits - n) = some left ∧
      shr T.makeUnsigned (castTo T v T.makeUnsigned.bits) n = some right ∧
      castTo T.makeUnsigned.promoted (left ||| right) T.bits = BitVec.rotateRight v n := by
  obtain ⟨left, hleft, hlow⟩ := shl_makeUnsigned T v (Nat.sub_lt T.bits_pos hpos)
  obtain ⟨right, hright, hhigh⟩ := shr_makeUnsigned T v hn
  refine ⟨left, right, hleft, hright, BitVec.eq_of_getLsbD_eq fun i hi => ?_⟩
  have hwide : i < T.makeUnsigned.promoted.bits :=
    Nat.lt_of_lt_of_le hi T.makeUnsigned.bits_le_promoted
  rw [getLsbD_castTo_of_lt _ _ hwide hi, BitVec.getLsbD_or, hlow i hi, hhigh i hi,
    getLsbD_rotateRight v hi]
  by_cases hle : T.bits - n ≤ i
  · have hmod : (i + n) % T.bits = i - (T.bits - n) := by
      rw [Nat.mod_eq_sub_mod (by omega), Nat.mod_eq_of_lt (by omega)]
      omega
    rw [hmod, decide_eq_true hle, Bool.true_and, BitVec.getLsbD_of_ge v (n + i) (by omega),
      Bool.or_false]
  · rw [Nat.mod_eq_of_lt (by omega), decide_eq_false hle, Bool.false_and, Bool.false_or,
      Nat.add_comm]

/-! ## Results -/

theorem rol_eq (T : IntType) (v : Value T) (n : BitVec 64) :
    rol T v n = some (BitVec.rotateLeft v n.toNat) := by
  have hlt : n.toNat % T.bits < T.bits := Nat.mod_lt _ T.bits_pos
  unfold rol
  by_cases hzero : n.toNat % T.bits = 0
  · rw [rotateLeft_of_mod_eq_zero v hzero]
    exact if_neg (not_not.2 ((and_widthOf_eq_zero_iff T n).2 hzero))
  · have hpos : 0 < n.toNat % T.bits := Nat.pos_of_ne_zero hzero
    obtain ⟨left, right, hleft, hright, hcast⟩ :=
      castTo_or_shifts T v (Nat.sub_pos_of_lt hlt) (Nat.sub_lt T.bits_pos hpos)
    rw [Nat.sub_sub_self (Nat.le_of_lt hlt)] at hleft
    rw [rotateLeft_eq_rotateRight, ← hcast]
    simp only [ne_eq, and_widthOf_eq_zero_iff, hzero, not_false_eq_true, if_true,
      toNat_and_widthOf, toNat_widthOf_sub_and, hleft, hright, Option.bind_eq_bind,
      Option.bind_some]

theorem ror_eq (T : IntType) (v : Value T) (n : BitVec 64) :
    ror T v n = some (BitVec.rotateRight v n.toNat) := by
  have hlt : n.toNat % T.bits < T.bits := Nat.mod_lt _ T.bits_pos
  unfold ror
  by_cases hzero : n.toNat % T.bits = 0
  · rw [rotateRight_of_mod_eq_zero v hzero]
    exact if_pos ((and_widthOf_eq_zero_iff T n).2 hzero)
  · obtain ⟨left, right, hleft, hright, hcast⟩ :=
      castTo_or_shifts T v (Nat.pos_of_ne_zero hzero) hlt
    rw [← BitVec.rotateRight_mod_eq_rotateRight, ← hcast, BitVec.or_comm]
    simp only [ne_eq, and_widthOf_eq_zero_iff, hzero, not_false_eq_true, if_true, if_false,
      toNat_and_widthOf, toNat_widthOf_sub_and, hleft, hright, Option.bind_eq_bind,
      Option.bind_some]

/-- A sum of numbers of places that wraps around is a sum of places all the same. -/
theorem rotateLeft_toNat_add (v : Value T) (n m : BitVec 64) :
    BitVec.rotateLeft v (n + m).toNat = BitVec.rotateLeft v (n.toNat + m.toNat) := by
  rw [← BitVec.rotateLeft_mod_eq_rotateLeft, BitVec.toNat_add, Nat.mod_mod_of_dvd _ (bits_dvd T),
    BitVec.rotateLeft_mod_eq_rotateLeft]

/-- `rol` moves every bit up and around, `ror` takes it back, and two calls of `rol` are one
by the sum of the places. -/
theorem rol_ror_laws (T : IntType) (v : Value T) (n : BitVec 64) :
    ∃ r, rol T v n = some r ∧
      (∀ i, i < T.bits → r.getLsbD ((i + n.toNat) % T.bits) = v.getLsbD i) ∧
      ror T r n = some v ∧ ∀ m, rol T r m = rol T v (n + m) := by
  refine ⟨_, rol_eq T v n, fun i hi => getLsbD_rotateLeft_add v hi n.toNat, ?_, fun m => ?_⟩
  · rw [ror_eq, rotateRight_rotateLeft]
  · rw [rol_eq, rol_eq, rotateLeft_toNat_add, rotateLeft_rotateLeft]

/-- A negative byte, by more places than it has bits. -/
example : rol ⟨true, .w8⟩ (0x81#8) 9#64 = some (0x03#8) ∧
    ror ⟨true, .w8⟩ (0x03#8) 9#64 = some (0x81#8) := ⟨rfl, rfl⟩

end Mwr.Bitops
