import Mwr.CodeLib.ByteOrder

/-!
# Swapping bytes

A translation of `bswap` and `memswap` of `include/mwr/core/bitops.h`.  An access outside the
buffer has no result.

* `Swapped` is the invariant of the loop in `memswap`, which goes from the two ends to the
  middle, and `memswap_eq` what the loop does.
* `bswap16_reverses` and its like say that `bswap` puts the bytes of a word in the other order.
* `memswap_bswap` is the result for both functions.
-/

namespace Mwr.Bitops

open Mwr.CodeLib (Bytes ByteOrder)
open Mwr.CodeLib.ByteOrder

/-! ## The code -/

/-- `bswap(u8)`. -/
def bswap8 (val : BitVec 8) : BitVec 8 := val

/-- `bswap(u16)`.  The operand is promoted to `int`. -/
def bswap16 (val : BitVec 16) : BitVec 16 :=
  let val := val.setWidth 32
  (((val &&& 0xff00#32) >>> 8) ||| ((val &&& 0x00ff#32) <<< 8)).setWidth 16

/-- `bswap(u32)`. -/
def bswap32 (val : BitVec 32) : BitVec 32 :=
  ((val &&& 0xff000000#32) >>> 24) ||| ((val &&& 0x00ff0000#32) >>> 8) |||
    ((val &&& 0x0000ff00#32) <<< 8) ||| ((val &&& 0x000000ff#32) <<< 24)

/-- `bswap(u64)`. -/
def bswap64 (val : BitVec 64) : BitVec 64 :=
  ((val &&& 0xff00000000000000#64) >>> 56) |||
    ((val &&& 0x00ff000000000000#64) >>> 40) |||
    ((val &&& 0x0000ff0000000000#64) >>> 24) |||
    ((val &&& 0x000000ff00000000#64) >>> 8) |||
    ((val &&& 0x00000000ff000000#64) <<< 8) |||
    ((val &&& 0x0000000000ff0000#64) <<< 24) |||
    ((val &&& 0x000000000000ff00#64) <<< 40) |||
    ((val &&& 0x00000000000000ff#64) <<< 56)

/-- The body of the loop in `memswap`. -/
def swapEnds (size : BitVec 32) (v : Bytes) (i : BitVec 32) : Option Bytes := do
  let tmp ← v[i.toNat]?
  let byte ← v[(size - i - 1).toNat]?
  let v := v.set i.toNat byte
  return v.set (size - i - 1).toNat tmp

/-- `memswap(ptr, size)`. -/
def memswap (ptr : Bytes) (size : BitVec 32) : Option Bytes :=
  (List.range (size / 2).toNat).foldlM (fun v i => swapEnds size v (BitVec.ofNat 32 i)) ptr

/-! ## The loop -/

section Loop

variable {buf v : Bytes} {size : BitVec 32} {k : Nat}

/-- The place that the byte at `p` comes from when `k` bytes have been swapped at each end. -/
def source (size k p : Nat) : Nat :=
  if p < k ∨ size - k ≤ p ∧ p < size then size - 1 - p else p

/-- The buffer after `k` rounds. -/
structure Swapped (buf : Bytes) (size k : Nat) (v : Bytes) : Prop where
  length : v.length = buf.length
  get : ∀ p, v[p]? = buf[source size k p]?

theorem swapped_zero (buf : Bytes) (size : Nat) : Swapped buf size 0 buf where
  length := rfl
  get := by
    intro p
    rw [source, if_neg (by omega)]

/-- The two places of a round, which do not wrap around. -/
theorem toNat_ends (hk : k < size.toNat) :
    (BitVec.ofNat 32 k).toNat = k ∧
      (size - BitVec.ofNat 32 k - 1).toNat = size.toNat - 1 - k := by
  have hi : (BitVec.ofNat 32 k).toNat = k := by
    rw [BitVec.toNat_ofNat]
    exact Nat.mod_eq_of_lt (Nat.lt_trans hk size.isLt)
  have hle : BitVec.ofNat 32 k ≤ size := by
    rw [BitVec.le_def, hi]
    exact Nat.le_of_lt hk
  have hsub := BitVec.toNat_sub_of_le hle
  rw [hi] at hsub
  have hone : (1 : BitVec 32) ≤ size - BitVec.ofNat 32 k := by
    rw [BitVec.le_def, hsub]
    show 1 ≤ size.toNat - k
    omega
  refine ⟨hi, ?_⟩
  rw [BitVec.toNat_sub_of_le hone, hsub]
  exact Nat.sub_right_comm _ _ _

theorem Swapped.swapEnds (h : Swapped buf size.toNat k v) (hk : k < size.toNat / 2)
    (hsize : size.toNat ≤ buf.length) :
    ∃ v', swapEnds size v (BitVec.ofNat 32 k) = some v' ∧ Swapped buf size.toNat (k + 1) v' := by
  have hlt : k < size.toNat := by omega
  obtain ⟨hi, hend⟩ := toNat_ends hlt
  -- both places still have their first byte
  have hlow : k < buf.length := by omega
  have hhigh : size.toNat - 1 - k < buf.length := by omega
  have hfirst : v[k]? = some buf[k] := by
    rw [h.get, source, if_neg (by omega), List.getElem?_eq_getElem]
  have hlast : v[size.toNat - 1 - k]? = some buf[size.toNat - 1 - k] := by
    rw [h.get, source, if_neg (by omega), List.getElem?_eq_getElem]
  refine ⟨(v.set k buf[size.toNat - 1 - k]).set (size.toNat - 1 - k) buf[k], ?_, ?_, ?_⟩
  · rw [Bitops.swapEnds, hi, hend, hfirst, hlast]
    rfl
  · rw [List.length_set, List.length_set, h.length]
  · intro p
    rw [List.getElem?_set, List.getElem?_set, List.length_set, h.length, h.get]
    by_cases hp : size.toNat - 1 - k = p
    · have hsource : source size.toNat (k + 1) p = k := by
        rw [source, if_pos (by omega)]
        omega
      rw [if_pos hp, if_pos (by omega), hsource, List.getElem?_eq_getElem]
    · rw [if_neg hp]
      by_cases hkp : k = p
      · have hsource : source size.toNat (k + 1) p = size.toNat - 1 - k := by
          rw [source, if_pos (by omega), hkp]
        rw [if_pos hkp, if_pos (by omega), hsource, List.getElem?_eq_getElem]
      · have hsource : source size.toNat (k + 1) p = source size.toNat k p := by
          unfold source
          exact if_congr (by omega) rfl rfl
        rw [if_neg hkp, hsource]

/-- The rounds up to the middle. -/
theorem foldlM_swapEnds (hsize : size.toNat ≤ buf.length) (hk : k ≤ size.toNat / 2) :
    ∃ v, (List.range k).foldlM (fun v i => Bitops.swapEnds size v (BitVec.ofNat 32 i)) buf =
      some v ∧ Swapped buf size.toNat k v := by
  induction k with
  | zero => exact ⟨buf, rfl, swapped_zero buf size.toNat⟩
  | succ k ih =>
    obtain ⟨v, hv, hswapped⟩ := ih (by omega)
    obtain ⟨v', hv', hswapped'⟩ := hswapped.swapEnds (by omega) hsize
    refine ⟨v', ?_, hswapped'⟩
    rw [List.range_succ, List.foldlM_append, hv, Option.bind_eq_bind, Option.bind_some,
      List.foldlM_cons, hv']
    rfl

/-- In the middle of an odd number of bytes there is one that stays where it is. -/
theorem Swapped.eq (h : Swapped buf size.toNat (size.toNat / 2) v)
    (hsize : size.toNat ≤ buf.length) :
    v = (buf.take size.toNat).reverse ++ buf.drop size.toNat := by
  have htake : (buf.take size.toNat).length = size.toNat := List.length_take_of_le hsize
  have hlen : (buf.take size.toNat).reverse.length = size.toNat :=
    List.length_reverse.trans htake
  apply List.ext_getElem?
  intro p
  rw [h.get, source]
  by_cases hp : p < size.toNat
  · rw [List.getElem?_append_left (by omega), List.getElem?_reverse (htake.symm ▸ hp), htake,
      List.getElem?_take_of_lt (by omega)]
    split
    next => rfl
    next hmid =>
      congr 1
      omega
  · rw [if_neg (by omega), List.getElem?_append_right (by omega), hlen, List.getElem?_drop,
      Nat.add_sub_cancel' (Nat.le_of_not_lt hp)]

theorem memswap_eq (hsize : size.toNat ≤ buf.length) :
    memswap buf size = some ((buf.take size.toNat).reverse ++ buf.drop size.toNat) := by
  obtain ⟨v, hv, hswapped⟩ := foldlM_swapEnds hsize (Nat.le_refl (size.toNat / 2))
  rw [← hswapped.eq hsize, memswap, BitVec.toNat_udiv]
  exact hv

theorem memswap_memswap (hsize : size.toNat ≤ buf.length) :
    memswap ((buf.take size.toNat).reverse ++ buf.drop size.toNat) size = some buf := by
  have hlen : (buf.take size.toNat).reverse.length = size.toNat :=
    List.length_reverse.trans (List.length_take_of_le hsize)
  have hle : size.toNat ≤ ((buf.take size.toNat).reverse ++ buf.drop size.toNat).length := by
    rw [List.length_append, hlen]
    exact Nat.le_add_right _ _
  rw [memswap_eq hle, List.take_left' hlen, List.drop_left' hlen, List.reverse_reverse,
    List.take_append_drop]

end Loop

/-! ## The words -/

section Words

variable {w : Nat}

/-- The mask of the byte `a` of a word. -/
def byteMask (w a : Nat) : BitVec w := 0xff#w <<< (8 * a)

theorem getLsbD_byteMask (w a i : Nat) :
    (byteMask w a).getLsbD i = decide (i < w ∧ 8 * a ≤ i ∧ i < 8 * a + 8) := by
  rw [byteMask, BitVec.getLsbD_shiftLeft, BitVec.getLsbD_ofNat, show 0xff = 2 ^ 8 - 1 from rfl,
    Nat.testBit_two_pow_sub_one]
  by_cases hi : i < w ∧ 8 * a ≤ i ∧ i < 8 * a + 8
  · rw [decide_eq_true hi, decide_eq_true hi.1, decide_eq_false (by omega),
      decide_eq_true (by omega), decide_eq_true (by omega)]
    rfl
  · rw [decide_eq_false hi]
    by_cases hw : i < w
    · by_cases hlow : i < 8 * a
      · rw [decide_eq_true hlow, Bool.not_true, Bool.and_false, Bool.false_and]
      · rw [decide_eq_false (by omega : ¬ i - 8 * a < 8), Bool.and_false, Bool.and_false]
    · rw [decide_eq_false hw, Bool.false_and, Bool.false_and]

/-- A byte that is cut out and shifted down. -/
theorem byteAt_shiftRight (v : BitVec w) {a : Nat} (ha : a < w / 8) (s k : Nat) :
    byteAt ((v &&& byteMask w a) >>> (8 * s)) k = if k + s = a then byteAt v a else 0 := by
  apply UInt8.toBitVec_inj.1
  apply BitVec.eq_of_getLsbD_eq
  intro j hj
  rw [getLsbD_byteAt _ _ hj, BitVec.getLsbD_ushiftRight, BitVec.getLsbD_and, getLsbD_byteMask]
  split
  next h =>
    rw [getLsbD_byteAt _ _ hj, decide_eq_true (by omega), Bool.and_true]
    congr 1
    omega
  next h =>
    rw [decide_eq_false (by omega), Bool.and_false]
    exact BitVec.getLsbD_zero.symm

/-- A byte that is cut out and shifted up. -/
theorem byteAt_shiftLeft (v : BitVec w) {k : Nat} (hk : k < w / 8) (a s : Nat) :
    byteAt ((v &&& byteMask w a) <<< (8 * s)) k = if k = a + s then byteAt v a else 0 := by
  apply UInt8.toBitVec_inj.1
  apply BitVec.eq_of_getLsbD_eq
  intro j hj
  rw [getLsbD_byteAt _ _ hj, BitVec.getLsbD_shiftLeft, BitVec.getLsbD_and, getLsbD_byteMask,
    decide_eq_true (by omega), Bool.true_and]
  by_cases hlow : 8 * k + j < 8 * s
  · rw [decide_eq_true hlow, if_neg (by omega)]
    exact BitVec.getLsbD_zero.symm
  · rw [decide_eq_false hlow, Bool.not_false, Bool.true_and]
    split
    next h =>
      have hplace : 8 * k + j - 8 * s = 8 * a + j := by omega
      rw [getLsbD_byteAt _ _ hj, hplace, decide_eq_true (by omega), Bool.and_true]
    next h =>
      rw [decide_eq_false (by omega), Bool.and_false]
      exact BitVec.getLsbD_zero.symm

theorem byteAt_setWidth (v : BitVec w) {n k : Nat} (hk : k < n / 8) :
    byteAt (v.setWidth n) k = byteAt v k := by
  apply UInt8.toBitVec_inj.1
  apply BitVec.eq_of_getLsbD_eq
  intro j hj
  rw [getLsbD_byteAt _ _ hj, getLsbD_byteAt _ _ hj, BitVec.getLsbD_setWidth,
    decide_eq_true (by omega), Bool.true_and]

end Words

theorem bswap8_reverses (val : BitVec 8) : Reverses val (bswap8 val) := by
  intro k hk
  have hzero : k = 0 := by omega
  rw [hzero]
  rfl

theorem bswap16_reverses (val : BitVec 16) : Reverses val (bswap16 val) := by
  have hbswap : bswap16 val = (((val.setWidth 32 &&& byteMask 32 1) >>> (8 * 1)) |||
      ((val.setWidth 32 &&& byteMask 32 0) <<< (8 * 1))).setWidth 16 := rfl
  intro k hk
  rw [hbswap, byteAt_setWidth _ hk, byteAt_or, byteAt_shiftRight _ (by decide),
    byteAt_shiftLeft _ (by omega), byteAt_setWidth _ (by decide), byteAt_setWidth _ (by decide)]
  rcases (by omega : k = 0 ∨ k = 1) with rfl | rfl <;> simp

theorem bswap32_reverses (val : BitVec 32) : Reverses val (bswap32 val) := by
  have hbswap : bswap32 val =
      ((val &&& byteMask 32 3) >>> (8 * 3)) ||| ((val &&& byteMask 32 2) >>> (8 * 1)) |||
        ((val &&& byteMask 32 1) <<< (8 * 1)) ||| ((val &&& byteMask 32 0) <<< (8 * 3)) := rfl
  intro k hk
  rw [hbswap, byteAt_or, byteAt_or, byteAt_or, byteAt_shiftRight _ (by decide),
    byteAt_shiftRight _ (by decide), byteAt_shiftLeft _ hk, byteAt_shiftLeft _ hk]
  rcases (by omega : k = 0 ∨ k = 1 ∨ k = 2 ∨ k = 3) with rfl | rfl | rfl | rfl <;> simp

theorem bswap64_reverses (val : BitVec 64) : Reverses val (bswap64 val) := by
  have hbswap : bswap64 val =
      ((val &&& byteMask 64 7) >>> (8 * 7)) ||| ((val &&& byteMask 64 6) >>> (8 * 5)) |||
        ((val &&& byteMask 64 5) >>> (8 * 3)) ||| ((val &&& byteMask 64 4) >>> (8 * 1)) |||
        ((val &&& byteMask 64 3) <<< (8 * 1)) ||| ((val &&& byteMask 64 2) <<< (8 * 3)) |||
        ((val &&& byteMask 64 1) <<< (8 * 5)) ||| ((val &&& byteMask 64 0) <<< (8 * 7)) := rfl
  intro k hk
  simp only [hbswap, byteAt_or, byteAt_shiftLeft _ hk]
  rw [byteAt_shiftRight _ (by decide), byteAt_shiftRight _ (by decide),
    byteAt_shiftRight _ (by decide), byteAt_shiftRight _ (by decide)]
  rcases (by omega : k = 0 ∨ k = 1 ∨ k = 2 ∨ k = 3 ∨ k = 4 ∨ k = 5 ∨ k = 6 ∨ k = 7) with
    rfl | rfl | rfl | rfl | rfl | rfl | rfl | rfl <;> simp

/-! ## Results -/

/-- A swap of words is one of their bytes in memory, whatever the byte order, and its own
inverse. -/
def SwapsWords {w : Nat} (bswap : BitVec w → BitVec w) : Prop :=
  ∀ val, bswap (bswap val) = val ∧
    ∀ order : ByteOrder,
      memswap (order.bytes val) (BitVec.ofNat 32 (w / 8)) = some (order.bytes (bswap val))

theorem swapsWords_of_reverses {w : Nat} {bswap : BitVec w → BitVec w}
    (h : ∀ val, Reverses val (bswap val)) (hw : w = 8 * (w / 8)) (hlt : w / 8 < 2 ^ 32) :
    SwapsWords bswap := by
  intro val
  refine ⟨(h (bswap val)).unique (h val).symm hw, fun order => ?_⟩
  have hsize : (BitVec.ofNat 32 (w / 8)).toNat = (order.bytes val).length := by
    rw [length_bytes, BitVec.toNat_ofNat, Nat.mod_eq_of_lt hlt]
  rw [memswap_eq (Nat.le_of_eq hsize), hsize, List.take_length, List.drop_length,
    List.append_nil, (h val).bytes]

/-- `memswap` reverses the first bytes of a buffer and is its own inverse, and on the bytes of
a word it is `bswap`. -/
theorem memswap_bswap {buf : Bytes} {size : BitVec 32} (hsize : size.toNat ≤ buf.length) :
    (∃ v, memswap buf size = some v ∧ memswap v size = some buf ∧
      v = (buf.take size.toNat).reverse ++ buf.drop size.toNat) ∧
    SwapsWords bswap8 ∧ SwapsWords bswap16 ∧ SwapsWords bswap32 ∧ SwapsWords bswap64 :=
  ⟨⟨_, memswap_eq hsize, memswap_memswap hsize, rfl⟩,
    swapsWords_of_reverses bswap8_reverses rfl (by decide),
    swapsWords_of_reverses bswap16_reverses rfl (by decide),
    swapsWords_of_reverses bswap32_reverses rfl (by decide),
    swapsWords_of_reverses bswap64_reverses rfl (by decide)⟩

/-- Five bytes of six, and the word `0x12345678` in the memory of a little-endian host. -/
theorem memswap_bswap_sample :
    memswap [1, 2, 3, 4, 5, 6] 5#32 = some [5, 4, 3, 2, 1, 6] ∧
      memswap [5, 4, 3, 2, 1, 6] 5#32 = some [1, 2, 3, 4, 5, 6] ∧
      memswap [0x78, 0x56, 0x34, 0x12] 4#32 = some [0x12, 0x34, 0x56, 0x78] := by
  have hsize : (5#32).toNat ≤ ([1, 2, 3, 4, 5, 6] : Bytes).length := by decide
  obtain ⟨⟨v, hv, hback, heq⟩, -, -, hword, -⟩ := memswap_bswap hsize
  rw [heq] at hv hback
  exact ⟨hv, hback, (hword 0x12345678#32).2 .little⟩

end Mwr.Bitops
