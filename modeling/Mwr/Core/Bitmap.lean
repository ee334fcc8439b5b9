import Mathlib.Logic.Function.Basic
import Mwr.CodeLib.CInt

/-!
# Bitmaps

`get_bit` and `set_bit` of `include/mwr/core/bitfields.h` on an array of words of any integer type,
and `bit` of `include/mwr/core/bitops.h`.  The words are converted to `u64` and back, with their
sign if they have one.  A call that reads outside of the array has no result.

* `bitAt` is the bit at a position, and `getBit_eq` and `setBit_eq` say what one call does to it.
* `bitmap_refines` is the result for any series of calls.
-/

namespace Mwr.Bitmap

open Mwr.CodeLib.CInt

/-- `bit(offset)`. -/
def bit (offset : Nat) : Option (BitVec 64) := shiftLeft 1#64 offset

/-- `get_bit(bitmask, pos)`. -/
def getBit (T : IntType) (bitmask : List (Value T)) (pos : Nat) : Option Bool := do
  let word ← bitmask[pos / T.bits]?
  let b ← bit (pos % T.bits)
  some (decide (castTo T word 64 &&& b ≠ 0))

/-- `set_bit(bitmask, pos, set)`. -/
def setBit (T : IntType) (bitmask : List (Value T)) (pos : Nat) (set : Bool) :
    Option (List (Value T)) := do
  let word ← bitmask[pos / T.bits]?
  let b ← bit (pos % T.bits)
  let word := if set then castTo T word 64 ||| b else castTo T word 64 &&& ~~~b
  some (bitmask.set (pos / T.bits) (word.setWidth T.bits))

/-! ## One call -/

/-- The bit at a position. -/
def bitAt (T : IntType) (bitmask : List (Value T)) (pos : Nat) : Bool :=
  (bitmask.getD (pos / T.bits) 0).getLsbD (pos % T.bits)

variable {T : IntType} {bitmask : List (Value T)} {pos : Nat}

theorem bit_eq (T : IntType) (pos : Nat) :
    pos % T.bits < 64 ∧ bit (pos % T.bits) = some (BitVec.twoPow 64 (pos % T.bits)) := by
  have hlt : pos % T.bits < 64 := Nat.lt_of_lt_of_le (Nat.mod_lt _ T.bits_pos) T.bits_le
  refine ⟨hlt, ?_⟩
  rw [bit, shiftLeft, if_pos hlt, BitVec.twoPow_eq]

theorem div_lt_iff : pos / T.bits < bitmask.length ↔ pos < T.bits * bitmask.length := by
  rw [Nat.div_lt_iff_lt_mul T.bits_pos, Nat.mul_comm]

/-- `get_bit` reads the bit if the array has it. -/
theorem getBit_eq : getBit T bitmask pos =
    if pos < T.bits * bitmask.length then some (bitAt T bitmask pos) else none := by
  obtain ⟨hlt, hbit⟩ := bit_eq T pos
  unfold getBit bitAt
  split
  next hpos =>
    have hindex := div_lt_iff.2 hpos
    rw [List.getElem?_eq_getElem hindex, hbit, List.getD_eq_getElem?_getD,
      List.getElem?_eq_getElem hindex, Option.getD_some]
    show some (decide
      (castTo T bitmask[pos / T.bits] 64 &&& BitVec.twoPow 64 (pos % T.bits) ≠ 0)) = _
    have hcast := getLsbD_castTo_of_lt T bitmask[pos / T.bits] (Nat.mod_lt pos T.bits_pos) hlt
    have hpow : BitVec.twoPow 64 (pos % T.bits) ≠ 0 := by
      intro hzero
      have htrue := BitVec.getLsbD_twoPow (w := 64) (pos % T.bits) (pos % T.bits)
      rw [hzero] at htrue
      simp [hlt] at htrue
    rw [BitVec.and_twoPow, hcast]
    cases bitmask[pos / T.bits].getLsbD (pos % T.bits) with
    | true => rw [if_pos rfl, decide_eq_true hpow]
    | false => rfl
  next hpos =>
    rw [List.getElem?_eq_none (Nat.le_of_not_lt fun h => hpos (div_lt_iff.1 h))]
    rfl

/-- `set_bit` changes the bit if the array has it, and nothing else. -/
theorem setBit_eq (hpos : pos < T.bits * bitmask.length) (set : Bool) :
    ∃ bitmask', setBit T bitmask pos set = some bitmask' ∧
      bitmask'.length = bitmask.length ∧
      bitAt T bitmask' = Function.update (bitAt T bitmask) pos set := by
  obtain ⟨hlt, hbit⟩ := bit_eq T pos
  have hindex := div_lt_iff.2 hpos
  let word := bitmask[pos / T.bits]
  let b := BitVec.twoPow 64 (pos % T.bits)
  let wide := if set then castTo T word 64 ||| b else castTo T word 64 &&& ~~~b
  have hwide : ∀ i, i < T.bits → (wide.setWidth T.bits).getLsbD i =
      if i = pos % T.bits then set else word.getLsbD i := by
    intro i hi
    have hi64 : i < 64 := Nat.lt_of_lt_of_le hi T.bits_le
    have hcast := getLsbD_castTo_of_lt T word hi hi64
    have hb : b.getLsbD i = decide (i = pos % T.bits) := by
      rw [BitVec.getLsbD_twoPow, decide_eq_true hlt, Bool.true_and]
      exact decide_eq_decide.2 eq_comm
    rw [BitVec.getLsbD_setWidth, decide_eq_true hi, Bool.true_and]
    show (if set then castTo T word 64 ||| b else castTo T word 64 &&& ~~~b).getLsbD i = _
    cases set with
    | true =>
      rw [if_pos rfl, BitVec.getLsbD_or, hcast, hb]
      split
      next h => rw [decide_eq_true h, Bool.or_true]
      next h => rw [decide_eq_false h, Bool.or_false]
    | false =>
      rw [if_neg Bool.false_ne_true, BitVec.getLsbD_and, BitVec.getLsbD_not, hcast, hb,
        decide_eq_true hi64, Bool.true_and]
      split
      next h => rw [decide_eq_true h, Bool.not_true, Bool.and_false]
      next h => rw [decide_eq_false h, Bool.not_false, Bool.and_true]
  refine ⟨bitmask.set (pos / T.bits) (wide.setWidth T.bits), ?_, List.length_set, ?_⟩
  · unfold setBit
    rw [List.getElem?_eq_getElem hindex, hbit]
    rfl
  · funext other
    have hother : other % T.bits < T.bits := Nat.mod_lt _ T.bits_pos
    unfold bitAt
    rw [List.getD_eq_getElem?_getD]
    by_cases heq : other / T.bits = pos / T.bits
    · rw [heq, List.getElem?_set_self hindex, Option.getD_some, hwide _ hother]
      by_cases hsame : other = pos
      · subst hsame
        rw [if_pos rfl, Function.update_self]
      · have hmod : other % T.bits ≠ pos % T.bits := by
          intro hmod
          apply hsame
          rw [← Nat.div_add_mod other T.bits, ← Nat.div_add_mod pos T.bits, heq, hmod]
        rw [if_neg hmod, Function.update_of_ne hsame]
        show word.getLsbD _ = (bitmask.getD (other / T.bits) 0).getLsbD _
        rw [heq, List.getD_eq_getElem?_getD, List.getElem?_eq_getElem hindex]
        rfl
    · have hsame : other ≠ pos := by
        rintro rfl
        exact heq rfl
      rw [List.getElem?_set_ne (Ne.symm heq), Function.update_of_ne hsame,
        List.getD_eq_getElem?_getD]

theorem setBit_eq_none (hpos : ¬ pos < T.bits * bitmask.length) (set : Bool) :
    setBit T bitmask pos set = none := by
  unfold setBit
  rw [List.getElem?_eq_none (Nat.le_of_not_lt fun h => hpos (div_lt_iff.1 h))]
  rfl

/-! ## A series of calls -/

/-- An array of words behaves like a map from its positions to bits: after any series of calls of
`set_bit` inside of it, `get_bit` gives what was set last, or the bit that was there.  A call has a
result exactly if the array has the position. -/
theorem bitmap_refines (T : IntType) (bitmask : List (Value T)) (sets : List (Nat × Bool)) :
    ((∃ bitmask', sets.foldlM (fun bitmask s => setBit T bitmask s.1 s.2) bitmask =
        some bitmask') ↔ ∀ s ∈ sets, s.1 < T.bits * bitmask.length) ∧
    ∀ bitmask', sets.foldlM (fun bitmask s => setBit T bitmask s.1 s.2) bitmask =
        some bitmask' → ∀ pos, getBit T bitmask' pos =
      if pos < T.bits * bitmask.length then
        some (sets.foldl (fun bits s => Function.update bits s.1 s.2) (bitAt T bitmask) pos)
      else none := by
  induction sets generalizing bitmask with
  | nil =>
    refine ⟨iff_of_true ⟨bitmask, rfl⟩ fun s hs => absurd hs List.not_mem_nil, ?_⟩
    intro bitmask' h pos
    cases h
    exact getBit_eq
  | cons s sets ih =>
    rw [List.foldlM_cons, List.forall_mem_cons, List.foldl_cons]
    by_cases hpos : s.1 < T.bits * bitmask.length
    · obtain ⟨bitmask₁, hset, hlength, hbits⟩ := setBit_eq hpos s.2
      have hrest := ih bitmask₁
      rw [hlength, hbits] at hrest
      rw [hset, Option.bind_eq_bind, Option.bind_some, and_iff_right hpos]
      exact hrest
    · rw [setBit_eq_none hpos, Option.bind_eq_bind, Option.bind_none]
      refine ⟨iff_of_false (fun ⟨_, h⟩ => ?_) fun h => hpos h.1, fun _ h => ?_⟩
      · cases h
      · cases h

end Mwr.Bitmap
