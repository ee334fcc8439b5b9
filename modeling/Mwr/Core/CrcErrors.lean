import Mwr.CodeLib.CrcErrors
import Mwr.Core.Crc

/-!
# The errors that the checks find

What `crc7`, `crc16` and `crc32` of `src/mwr/core/bitops.cpp` are good for: a buffer goes over
a line with its check behind it, and the receiver computes the check of all that arrives.

* `crc7Codeword`, `crc16Codeword` and `crc32Codeword` are what is sent.
* `crc_detects` says that the receiver gets zero for them, and something else if a burst of
  errors that is not longer than the check has hit any part.  `crc16` finds an odd number of
  errors, too.
-/

namespace Mwr.Crc

open Mwr.CodeLib.Crc
open Polynomial

/-! ## Codewords -/

/-- The buffer with the byte of `crc7` behind it. -/
def crc7Codeword (buffer : List (BitVec 8)) (crc : BitVec 8) : List (BitVec 8) :=
  buffer ++ [crc7 buffer crc]

/-- The bytes of a check of 16 bits, the highest first. -/
def crc16Bytes (c : BitVec 16) : List (BitVec 8) := [c.extractLsb' 8 8, c.extractLsb' 0 8]

def crc16Codeword (buffer : List (BitVec 8)) (crc : BitVec 16) : List (BitVec 8) :=
  buffer ++ crc16Bytes (crc16 buffer crc)

/-- The bytes of a check of 32 bits, the highest first. -/
def crc32Bytes (c : BitVec 32) : List (BitVec 8) :=
  [c.extractLsb' 24 8, c.extractLsb' 16 8, c.extractLsb' 8 8, c.extractLsb' 0 8]

/-- `crc32` takes the bits of a byte from the lowest to the highest, so that the bytes of the
check are reversed. -/
def crc32Codeword (buffer : List (BitVec 8)) (crc : BitVec 32) : List (BitVec 8) :=
  buffer ++ (crc32Bytes (crc32 buffer crc)).map bitrev8

theorem msbFirst_append {m n : Nat} (x : BitVec m) (y : BitVec n) :
    msbFirst (x ++ y) = msbFirst x ++ msbFirst y := by
  unfold msbFirst
  rw [List.range_add, List.map_append, List.map_map]
  congr 1
  · apply List.map_congr_left
    intro i hi
    rw [BitVec.getMsbD_append, if_neg (Nat.not_le.2 (List.mem_range.1 hi))]
  · apply List.map_congr_left
    intro i _
    show (x ++ y).getMsbD (m + i) = y.getMsbD i
    rw [BitVec.getMsbD_append, if_pos (Nat.le_add_right m i), Nat.add_sub_cancel_left]

theorem flatMap_crc16Bytes (c : BitVec 16) : (crc16Bytes c).flatMap msbFirst = msbFirst c := by
  have hsplit : c.extractLsb' 8 8 ++ c.extractLsb' 0 8 = c := by
    apply BitVec.eq_of_getLsbD_eq
    intro i hi
    rw [BitVec.getLsbD_append, BitVec.getLsbD_extractLsb', BitVec.getLsbD_extractLsb']
    split
    next h => simp [h]
    next h => simp [(by omega : i - 8 < 8), (by omega : 8 + (i - 8) = i)]
  have happend := msbFirst_append (c.extractLsb' 8 8) (c.extractLsb' 0 8)
  rw [hsplit] at happend
  rw [happend]
  simp [crc16Bytes]

theorem flatMap_crc32Bytes (c : BitVec 32) : (crc32Bytes c).flatMap msbFirst = msbFirst c := by
  have hsplit : (c.extractLsb' 24 8 ++ c.extractLsb' 16 8) ++
      (c.extractLsb' 8 8 ++ c.extractLsb' 0 8) = c := by
    apply BitVec.eq_of_getLsbD_eq
    intro i hi
    simp only [BitVec.getLsbD_append, BitVec.getLsbD_extractLsb']
    by_cases h₁ : i < 8
    · simp [h₁, (by omega : i < 8 + 8)]
    · by_cases h₂ : i < 8 + 8
      · simp [h₁, h₂, (by omega : i - 8 < 8), (by omega : 8 + (i - 8) = i)]
      · by_cases h₃ : i - (8 + 8) < 8
        · simp [h₂, h₃, (by omega : 16 + (i - (8 + 8)) = i)]
        · simp [h₂, h₃, (by omega : i - (8 + 8) - 8 < 8),
            (by omega : 24 + (i - (8 + 8) - 8) = i)]
  have happend := msbFirst_append (c.extractLsb' 24 8 ++ c.extractLsb' 16 8)
    (c.extractLsb' 8 8 ++ c.extractLsb' 0 8)
  rw [hsplit, msbFirst_append, msbFirst_append] at happend
  rw [happend]
  simp [crc32Bytes]

/-- A byte that is reversed goes into `crc32` with its highest bit first. -/
theorem flatMap_map_bitrev8 (bytes : List (BitVec 8)) :
    (bytes.map bitrev8).flatMap lsbFirst = bytes.flatMap msbFirst := by
  rw [List.flatMap_map]
  congr 1
  funext x
  rw [bitrev8_eq, ← msbFirst_reverse, BitVec.reverse_reverse_eq]

theorem crc7_crc7Codeword (buffer : List (BitVec 8)) (crc : BitVec 8) :
    crc7 (crc7Codeword buffer crc) crc = 0#8 := by
  have hlast : crc7 (crc7Codeword buffer crc) crc =
      entry crc7Table (crc7 buffer crc ^^^ crc7 buffer crc) := List.foldl_append
  rw [hlast, BitVec.xor_self]
  decide

theorem crc16_crc16Codeword (buffer : List (BitVec 8)) (crc : BitVec 16) :
    crc16 (crc16Codeword buffer crc) crc = 0#16 := by
  rw [crc16_eq_divide, crc16Codeword, List.flatMap_append, flatMap_crc16Bytes, divide_append,
    ← crc16_eq_divide, divide_msbFirst_self]

theorem crc32_crc32Codeword (buffer : List (BitVec 8)) (crc : BitVec 32) :
    crc32 (crc32Codeword buffer crc) crc = 0#32 := by
  rw [crc32_eq_divide, crc32Codeword, List.flatMap_append, flatMap_map_bitrev8,
    flatMap_crc32Bytes, divide_append, ← crc32_eq_divide, divide_msbFirst_self]

/-! ## Errors -/

/-- Bursts in whole bytes leave the number of bytes as it is. -/
theorem length_eq_of_flatMap {f : BitVec 8 → List Bool} (hf : ∀ x, (f x).length = 8)
    {a b : List (BitVec 8)} (h : (a.flatMap f).length = (b.flatMap f).length) :
    a.length = b.length := by
  have hlength : ∀ xs : List (BitVec 8), (xs.flatMap f).length = 8 * xs.length := by
    intro xs
    induction xs with
    | nil => rfl
    | cons x xs ih => rw [List.flatMap_cons, List.length_append, hf, ih, List.length_cons]; omega
  rw [hlength, hlength] at h
  omega

theorem length_lsbFirst {n : Nat} (x : BitVec n) : (lsbFirst x).length = n := by
  rw [← msbFirst_reverse, length_msbFirst]

variable {a b : List (BitVec 8)}

theorem crc7_ne_of_burst (crc : BitVec 8)
    (h : Burst 7 (a.flatMap msbFirst) (b.flatMap msbFirst)) (hne : a ≠ b) :
    crc7 a crc ≠ crc7 b crc := by
  have hlen := length_eq_of_flatMap length_msbFirst h.length
  have hbits := mt (flatMap_injective msbFirst_injective length_msbFirst hlen) hne
  have hdivide : ∀ buffer crc, crc7 buffer crc = divide 0x12#8 crc (buffer.flatMap msbFirst) := by
    intro buffer
    induction buffer with
    | nil => exact fun _ => rfl
    | cons x buffer ih =>
      intro crc
      rw [List.flatMap_cons, divide_append, ← ih]
      exact congrArg (crc7 buffer) (crc7_byte crc x)
  intro heq
  -- the register does not matter, and a register whose lowest bit is clear has 7 bits
  rw [hdivide, hdivide] at heq
  have hzero := divide_eq_of_divide_eq (0#7 ++ 0#1) h.length heq
  rw [← hdivide, ← hdivide, crc7_eq_divide, crc7_eq_divide] at hzero
  have hupper := congrArg (BitVec.extractLsb' 1 7) hzero
  rw [BitVec.extractLsb'_append_eq_left, BitVec.extractLsb'_append_eq_left] at hupper
  exact divide_ne_of_burst (by decide) h hbits hupper

theorem crc16_ne_of_burst (crc : BitVec 16)
    (h : Burst 16 (a.flatMap msbFirst) (b.flatMap msbFirst)) (hne : a ≠ b) :
    crc16 a crc ≠ crc16 b crc := by
  have hlen := length_eq_of_flatMap length_msbFirst h.length
  have hbits := mt (flatMap_injective msbFirst_injective length_msbFirst hlen) hne
  rw [crc16_eq_divide, crc16_eq_divide]
  exact divide_ne_of_burst (by decide) h hbits

theorem crc32_ne_of_burst (crc : BitVec 32)
    (h : Burst 32 (a.flatMap lsbFirst) (b.flatMap lsbFirst)) (hne : a ≠ b) :
    crc32 a crc ≠ crc32 b crc := by
  have hlen := length_eq_of_flatMap length_lsbFirst h.length
  have hbits := mt (flatMap_injective lsbFirst_injective length_lsbFirst hlen) hne
  rw [crc32_eq_divide, crc32_eq_divide]
  exact divide_ne_of_burst (by decide) h hbits

theorem crc16_ne_of_odd (crc : BitVec 16) (hlen : a.length = b.length)
    (hodd : (a.flatMap msbFirst).count true % 2 ≠ (b.flatMap msbFirst).count true % 2) :
    crc16 a crc ≠ crc16 b crc := by
  have hroot : (generator 0x1021#16).eval 1 = 0 := by
    rw [generator_crc16]
    simp only [eval_add, eval_pow, eval_X, eval_one, one_pow]
    decide
  rw [crc16_eq_divide, crc16_eq_divide]
  exact divide_ne_of_odd hroot (by rw [length_flatMap_msbFirst, length_flatMap_msbFirst, hlen])
    hodd

/-- The receiver gets zero for what has been sent.  It gets something else if what has arrived
differs from that in a burst that is not longer than the check, or, for `crc16`, in an odd
number of bits. -/
theorem crc_detects (buffer received : List (BitVec 8)) (crc : BitVec 8) (crc' : BitVec 16)
    (crc'' : BitVec 32) :
    (crc7 (crc7Codeword buffer crc) crc = 0#8 ∧
      (received ≠ crc7Codeword buffer crc →
        Burst 7 (received.flatMap msbFirst) ((crc7Codeword buffer crc).flatMap msbFirst) →
        crc7 received crc ≠ 0#8)) ∧
    (crc16 (crc16Codeword buffer crc') crc' = 0#16 ∧
      (received ≠ crc16Codeword buffer crc' →
        Burst 16 (received.flatMap msbFirst) ((crc16Codeword buffer crc').flatMap msbFirst) →
        crc16 received crc' ≠ 0#16) ∧
      (received.length = (crc16Codeword buffer crc').length →
        (received.flatMap msbFirst).count true % 2 ≠
          ((crc16Codeword buffer crc').flatMap msbFirst).count true % 2 →
        crc16 received crc' ≠ 0#16)) ∧
    (crc32 (crc32Codeword buffer crc'') crc'' = 0#32 ∧
      (received ≠ crc32Codeword buffer crc'' →
        Burst 32 (received.flatMap lsbFirst) ((crc32Codeword buffer crc'').flatMap lsbFirst) →
        crc32 received crc'' ≠ 0#32)) := by
  refine ⟨⟨crc7_crc7Codeword buffer crc, fun hne h => ?_⟩,
    ⟨crc16_crc16Codeword buffer crc', fun hne h => ?_, fun hlen hodd => ?_⟩,
    crc32_crc32Codeword buffer crc'', fun hne h => ?_⟩
  · rw [← crc7_crc7Codeword buffer crc]
    exact crc7_ne_of_burst crc h hne
  · rw [← crc16_crc16Codeword buffer crc']
    exact crc16_ne_of_burst crc' h hne
  · rw [← crc16_crc16Codeword buffer crc']
    exact crc16_ne_of_odd crc' hlen hodd
  · rw [← crc32_crc32Codeword buffer crc'']
    exact crc32_ne_of_burst crc'' h hne

/-- A command that gets two more bits on the way. -/
theorem crc_detects_cmd :
    crc16 [0x51#8, 0#8, 0#8, 0x60#8, 0x03#8, 0x8f#8] 0#16 ≠ 0#16 := by
  refine ((crc_detects [0x51#8, 0#8, 0#8, 0#8] [0x51#8, 0#8, 0#8, 0x60#8, 0x03#8, 0x8f#8]
    0#8 0#16 0#32).2.1.2.1) (by decide +kernel) ?_
  exact ⟨([0x51#8, 0#8, 0#8].flatMap msbFirst), msbFirst 0x60#8, msbFirst 0#8,
    [0x03#8, 0x8f#8].flatMap msbFirst, by decide, by decide, by decide, by decide +kernel⟩

end Mwr.Crc
