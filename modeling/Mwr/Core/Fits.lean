import Mwr.CodeLib.CInt

/-!
# How many bits a value needs

`fits` and `encode_size` of `include/mwr/core/bitops.h`, for any pair of integer types.

* `wrap` is a conversion as an operation on integers, and `wrap_eq_self` says which integers it
  keeps.
* `fits_iff` says what `fits` decides.  The range of the second type is that of a type with the
  width of the first one, but with its own sign.
* `encodeSize_minimal` is the result: no smaller size is enough.
-/

namespace Mwr.Bitops

open Mwr.CodeLib.CInt

/-! ## The code -/

/-- `fits<T1, T2>(val)`. -/
def fits (T₁ T₂ : IntType) (val : Value T₁) : Bool :=
  val == castTo T₂ (castTo T₁ val T₂.bits) T₁.bits

/-- `encode_size(val)`; `encode_traits` has the four types of the sign of `T`. -/
def encodeSize (T : IntType) (val : Value T) : Nat :=
  if fits T ⟨T.signed, .w8⟩ val then 8
  else if fits T ⟨T.signed, .w16⟩ val then 16
  else if fits T ⟨T.signed, .w32⟩ val then 32
  else if fits T ⟨T.signed, .w64⟩ val then 64
  else T.bits

/-! ## Ranges -/

/-- The numbers of an integer type. -/
def InRange (T : IntType) (n : Int) : Prop :=
  if T.signed then -2 ^ (T.bits - 1) ≤ n ∧ n < 2 ^ (T.bits - 1) else 0 ≤ n ∧ n < 2 ^ T.bits

/-- The conversion of a number to a type. -/
def wrap (T : IntType) (n : Int) : Int :=
  if T.signed then n.bmod (2 ^ T.bits) else n % 2 ^ T.bits

theorem toInt_castTo_eq_wrap (T S : IntType) (v : Value T) :
    toInt S (castTo T v S.bits) = wrap S (toInt T v) := by
  unfold wrap
  cases hsigned : S.signed with
  | true =>
    rw [if_pos rfl, ← toInt_castTo, toInt, hsigned, if_pos rfl]
  | false =>
    rw [if_neg Bool.false_ne_true, ← toNat_castTo, toInt, hsigned, if_neg Bool.false_ne_true]

theorem wrap_eq_self (T : IntType) (n : Int) : wrap T n = n ↔ InRange T n := by
  obtain ⟨signed, width⟩ := T
  unfold wrap InRange
  cases signed with
  | true =>
    rw [if_pos rfl, if_pos rfl]
    cases width <;> simp only [IntType.bits, Width.bits, Int.bmod] <;> omega
  | false =>
    rw [if_neg Bool.false_ne_true, if_neg Bool.false_ne_true]
    cases width <;> simp only [IntType.bits, Width.bits] <;> omega

/-- A conversion through a narrower type of the same sign. -/
theorem wrap_wrap {signed : Bool} {w w' : Width} (h : w'.bits ≤ w.bits) (n : Int) :
    wrap ⟨signed, w⟩ (wrap ⟨signed, w'⟩ n) = wrap ⟨signed, w'⟩ n := by
  rw [wrap_eq_self]
  unfold wrap InRange
  cases signed with
  | true =>
    rw [if_pos rfl, if_pos rfl]
    cases w <;> cases w' <;> simp only [IntType.bits, Width.bits, Int.bmod] at h ⊢ <;> omega
  | false =>
    rw [if_neg Bool.false_ne_true, if_neg Bool.false_ne_true]
    cases w <;> cases w' <;> simp only [IntType.bits, Width.bits] at h ⊢ <;> omega

/-- A conversion to a narrower type sees the low bits only. -/
theorem wrap_wrap_of_le {T : IntType} {signed : Bool} {w : Width} (h : T.bits ≤ w.bits) (n : Int) :
    wrap T (wrap ⟨signed, w⟩ n) = wrap T n := by
  obtain ⟨signed', w'⟩ := T
  unfold wrap
  cases signed <;> cases signed' <;> cases w <;> cases w' <;>
    simp only [IntType.bits, Width.bits, Int.bmod, Bool.false_eq_true, if_true, if_false] at h ⊢ <;>
    omega

theorem InRange.mono {signed : Bool} {w w' : Width} {n : Int} (h : InRange ⟨signed, w⟩ n)
    (hle : w.bits ≤ w'.bits) : InRange ⟨signed, w'⟩ n := by
  unfold InRange at h ⊢
  cases signed <;> cases w <;> cases w' <;>
    simp only [IntType.bits, Width.bits, Bool.false_eq_true, if_true, if_false] at h hle ⊢ <;>
    omega

theorem toInt_inj {T : IntType} {v v' : Value T} (h : toInt T v = toInt T v') : v = v' := by
  unfold toInt at h
  split at h
  next => exact BitVec.eq_of_toInt_eq h
  next => exact BitVec.eq_of_toNat_eq (Int.natCast_inj.1 h)

/-- A value is in the range of its type. -/
theorem inRange_toInt (T : IntType) (v : Value T) : InRange T (toInt T v) := by
  rw [← wrap_eq_self, ← toInt_castTo_eq_wrap, castTo_bits]

/-! ## What the functions decide -/

/-- A value fits exactly if the other type is at least as wide, or has the number that the value
stands for with the sign of the other type. -/
theorem fits_iff (T₁ T₂ : IntType) (val : Value T₁) :
    fits T₁ T₂ val = true ↔
      T₁.bits ≤ T₂.bits ∨ InRange T₂ (toInt ⟨T₂.signed, T₁.width⟩ val) := by
  have hread : toInt ⟨T₂.signed, T₁.width⟩ val = wrap ⟨T₂.signed, T₁.width⟩ (toInt T₁ val) := by
    rw [← toInt_castTo_eq_wrap]
    show _ = toInt ⟨T₂.signed, T₁.width⟩ (castTo T₁ val T₁.bits)
    rw [castTo_bits]
  have hback : toInt ⟨T₂.signed, T₁.width⟩ (castTo T₂ (castTo T₁ val T₂.bits) T₁.bits) =
      wrap ⟨T₂.signed, T₁.width⟩ (wrap T₂ (toInt T₁ val)) := by
    rw [← toInt_castTo_eq_wrap T₁ T₂]
    exact toInt_castTo_eq_wrap T₂ ⟨T₂.signed, T₁.width⟩ _
  have hfits : fits T₁ T₂ val = true ↔ wrap ⟨T₂.signed, T₁.width⟩ (toInt T₁ val) =
      wrap ⟨T₂.signed, T₁.width⟩ (wrap T₂ (toInt T₁ val)) := by
    rw [← hread, ← hback, fits, beq_iff_eq]
    exact ⟨fun heq => congrArg (toInt ⟨T₂.signed, T₁.width⟩) heq,
      fun heq => toInt_inj (T := ⟨T₂.signed, T₁.width⟩) heq⟩
  rw [hfits]
  by_cases hle : T₁.bits ≤ T₂.bits
  · refine ⟨fun _ => .inl hle, fun _ => ?_⟩
    exact (wrap_wrap_of_le (T := ⟨T₂.signed, T₁.width⟩) (w := T₂.width) hle _).symm
  · have hlt : T₂.bits ≤ T₁.bits := Nat.le_of_not_le hle
    have hnarrow : wrap T₂ (wrap ⟨T₂.signed, T₁.width⟩ (toInt T₁ val)) = wrap T₂ (toInt T₁ val) :=
      wrap_wrap_of_le hlt _
    have hwide : wrap ⟨T₂.signed, T₁.width⟩ (wrap T₂ (toInt T₁ val)) = wrap T₂ (toInt T₁ val) :=
      wrap_wrap hlt _
    rw [hwide, ← hnarrow, hread, ← wrap_eq_self, eq_comm]
    exact ⟨.inr, fun h => h.resolve_left hle⟩

/-- A type of the same sign. -/
theorem fits_iff_inRange (T : IntType) (w : Width) (val : Value T) :
    fits T ⟨T.signed, w⟩ val = true ↔ InRange ⟨T.signed, w⟩ (toInt T val) := by
  rw [fits_iff]
  refine ⟨fun h => ?_, .inr⟩
  rcases h with hle | hrange
  · exact (inRange_toInt T val).mono hle
  · exact hrange

/-- `encode_size` finds a width that has the number and from which the value comes back, and there
is no smaller one that has it. -/
theorem encodeSize_minimal (T : IntType) (val : Value T) :
    ∃ w : Width, encodeSize T val = w.bits ∧ InRange ⟨T.signed, w⟩ (toInt T val) ∧
      castTo ⟨T.signed, w⟩ (castTo T val w.bits) T.bits = val ∧
      ∀ w' : Width, InRange ⟨T.signed, w'⟩ (toInt T val) → w.bits ≤ w'.bits := by
  have hfound : ∀ w : Width, fits T ⟨T.signed, w⟩ val = true → encodeSize T val = w.bits →
      (∀ w' : Width, fits T ⟨T.signed, w'⟩ val = true → w.bits ≤ w'.bits) →
      ∃ w : Width, encodeSize T val = w.bits ∧ InRange ⟨T.signed, w⟩ (toInt T val) ∧
        castTo ⟨T.signed, w⟩ (castTo T val w.bits) T.bits = val ∧
        ∀ w' : Width, InRange ⟨T.signed, w'⟩ (toInt T val) → w.bits ≤ w'.bits := by
    intro w hfits heq hleast
    exact ⟨w, heq, (fits_iff_inRange T w val).1 hfits, (eq_of_beq hfits).symm,
      fun w' hrange => hleast w' ((fits_iff_inRange T w' val).2 hrange)⟩
  by_cases h8 : fits T ⟨T.signed, .w8⟩ val = true
  · refine hfound .w8 h8 (if_pos h8) fun w' _ => ?_
    cases w' <;> decide
  · by_cases h16 : fits T ⟨T.signed, .w16⟩ val = true
    · refine hfound .w16 h16 ?_ fun w' hw' => ?_
      · rw [encodeSize, if_neg h8, if_pos h16]
        rfl
      · cases w' with
        | w8 => exact absurd hw' h8
        | w16 | w32 | w64 => decide
    · by_cases h32 : fits T ⟨T.signed, .w32⟩ val = true
      · refine hfound .w32 h32 ?_ fun w' hw' => ?_
        · rw [encodeSize, if_neg h8, if_neg h16, if_pos h32]
          rfl
        · cases w' with
          | w8 => exact absurd hw' h8
          | w16 => exact absurd hw' h16
          | w32 | w64 => decide
      · -- every value has 64 bits at most
        have h64 : fits T ⟨T.signed, .w64⟩ val = true := (fits_iff T _ val).2 (.inl T.bits_le)
        refine hfound .w64 h64 ?_ fun w' hw' => ?_
        · rw [encodeSize, if_neg h8, if_neg h16, if_neg h32, if_pos h64]
          rfl
        · cases w' with
          | w8 => exact absurd hw' h8
          | w16 => exact absurd hw' h16
          | w32 => exact absurd hw' h32
          | w64 => decide

/-- The number `2 ^ 32 - 1` fits a type that does not have it. -/
example : fits .u32 ⟨true, .w8⟩ 0xffffffff = true := by decide

end Mwr.Bitops
