import Mathlib.Algebra.Ring.Nat
import Mwr.CodeLib.Bytes

/-!
# Byte order

The numbers in the fields of a binary record, in either byte order.

* `ByteOrder.value order bs` is the number with the bytes `bs`.
* `ByteOrder.field order bs off w` is the field of `w` bits at the offset `off`
  of a record.
* `ByteOrder.bytes order v` are the bytes of a word in memory, and `value_bytes` reads
  them back.  `Reverses v v'` relates two words that have the same bytes in the two orders.
-/

namespace Mwr.CodeLib

inductive ByteOrder where
  | little
  | big
  deriving DecidableEq, Repr

namespace ByteOrder

/-- The number with the bytes `bs`, least significant byte first. -/
def littleValue : Bytes → Nat
  | [] => 0
  | b :: bs => b.toNat + 256 * littleValue bs

/-- The number with the bytes `bs`. -/
def value : ByteOrder → Bytes → Nat
  | little, bs => littleValue bs
  | big, bs => littleValue bs.reverse

/-- The field of `w` bits at the offset `off` of a record. -/
def field (order : ByteOrder) (bs : Bytes) (off w : Nat) : BitVec w :=
  BitVec.ofNat w (order.value ((bs.drop off).take (w / 8)))

theorem littleValue_lt (bs : Bytes) : littleValue bs < 2 ^ (8 * bs.length) := by
  induction bs with
  | nil => decide
  | cons b bs ih =>
    have hb : b.toNat < 256 := UInt8.toNat_lt b
    have hpow : 2 ^ (8 * (bs.length + 1)) = 256 * 2 ^ (8 * bs.length) := by
      rw [Nat.mul_add, Nat.pow_add, Nat.mul_comm]
    rw [littleValue, List.length_cons, hpow]
    omega

theorem value_lt (order : ByteOrder) (bs : Bytes) : order.value bs < 2 ^ (8 * bs.length) := by
  cases order with
  | little => exact littleValue_lt bs
  | big =>
    have h := littleValue_lt bs.reverse
    rw [List.length_reverse] at h
    exact h

theorem value_big_append (bs : Bytes) (b : UInt8) :
    big.value (bs ++ [b]) = 256 * big.value bs + b.toNat := by
  rw [value, value, List.reverse_append, List.reverse_singleton, List.singleton_append,
    littleValue]
  omega

/-- Strings of one length are told apart by their values. -/
theorem littleValue_inj {bs bs' : Bytes} (hlen : bs.length = bs'.length)
    (h : littleValue bs = littleValue bs') : bs = bs' := by
  induction bs generalizing bs' with
  | nil => exact (List.length_eq_zero_iff.mp hlen.symm).symm
  | cons b bs ih =>
    cases bs' with
    | nil => cases hlen
    | cons b' bs' =>
      have hb : b.toNat < 256 := UInt8.toNat_lt b
      have hb' : b'.toNat < 256 := UInt8.toNat_lt b'
      rw [littleValue, littleValue] at h
      have hhead : b = b' := UInt8.toNat_inj.mp (by omega)
      rw [hhead, ih (Nat.succ.inj hlen) (by omega)]

theorem eq_of_value {order : ByteOrder} {bs bs' : Bytes} (hlen : bs.length = bs'.length)
    (h : order.value bs = order.value bs') : bs = bs' := by
  cases order with
  | little => exact littleValue_inj hlen h
  | big =>
    apply List.reverse_injective
    refine littleValue_inj ?_ h
    rw [List.length_reverse, List.length_reverse, hlen]

theorem value_replicate (order : ByteOrder) (n : Nat) (b : UInt8) :
    order.value (List.replicate n b) = littleValue (List.replicate n b) := by
  cases order with
  | little => rfl
  | big => rw [value, List.reverse_replicate]

/-- A string that reads as one repeated byte in one order is that string. -/
theorem eq_replicate_of_value {order : ByteOrder} {bs : Bytes} {b : UInt8}
    (h : order.value bs = littleValue (List.replicate bs.length b)) :
    bs = List.replicate bs.length b := by
  cases order with
  | little => exact littleValue_inj List.length_replicate.symm h
  | big =>
    have hrev : bs.reverse = List.replicate bs.length b := by
      refine littleValue_inj ?_ h
      rw [List.length_reverse, List.length_replicate]
    rw [← List.reverse_reverse bs, hrev, List.reverse_replicate, List.length_replicate]

/-- A field with one repeated byte reads the same in both orders. -/
theorem field_of_replicate {order : ByteOrder} (order' : ByteOrder) {bs : Bytes} {off w n : Nat}
    {b : UInt8} (hw : w = 8 * n) (hle : off + n ≤ bs.length)
    (h : order.field bs off w = BitVec.ofNat w (littleValue (List.replicate n b))) :
    order'.field bs off w = BitVec.ofNat w (littleValue (List.replicate n b)) := by
  have hdiv : w / 8 = n := by omega
  have hlen : ((bs.drop off).take n).length = n := by
    rw [List.length_take, List.length_drop]
    omega
  have hlt := value_lt order ((bs.drop off).take n)
  have hlt' := littleValue_lt (List.replicate n b)
  rw [hlen, ← hw] at hlt
  rw [List.length_replicate, ← hw] at hlt'
  rw [field, hdiv] at h ⊢
  have hvalue := congrArg BitVec.toNat h
  rw [BitVec.toNat_ofNat, BitVec.toNat_ofNat, Nat.mod_eq_of_lt hlt, Nat.mod_eq_of_lt hlt'] at hvalue
  have hbytes := eq_replicate_of_value (b := b) (by rw [hlen]; exact hvalue)
  rw [hbytes, hlen, value_replicate]

/-! ## The bytes of a word -/

section Words

variable {w : Nat} {v v' : BitVec w}

/-- The byte `k` of a word, from the least significant one. -/
def byteAt (v : BitVec w) (k : Nat) : UInt8 := ⟨v.extractLsb' (8 * k) 8⟩

/-- The bytes of a word. -/
def bytes (order : ByteOrder) (v : BitVec w) : Bytes :=
  match order with
  | little => (List.range (w / 8)).map (byteAt v)
  | big => ((List.range (w / 8)).map (byteAt v)).reverse

/-- The byte order that a swap leads to. -/
def other : ByteOrder → ByteOrder
  | little => big
  | big => little

/-- The bytes of the two words are the same in the two orders. -/
def Reverses (v v' : BitVec w) : Prop :=
  ∀ k, k < w / 8 → byteAt v' k = byteAt v (w / 8 - 1 - k)

theorem length_bytes (order : ByteOrder) (v : BitVec w) : (order.bytes v).length = w / 8 := by
  cases order with
  | little => rw [bytes, List.length_map, List.length_range]
  | big => rw [bytes, List.length_reverse, List.length_map, List.length_range]

theorem getLsbD_byteAt (v : BitVec w) (k : Nat) {j : Nat} (hj : j < 8) :
    (byteAt v k).toBitVec.getLsbD j = v.getLsbD (8 * k + j) := by
  rw [byteAt, BitVec.getLsbD_extractLsb', decide_eq_true hj, Bool.true_and]

theorem byteAt_or (v v' : BitVec w) (k : Nat) :
    byteAt (v ||| v') k = byteAt v k ||| byteAt v' k := by
  apply UInt8.toBitVec_inj.1
  apply BitVec.eq_of_getLsbD_eq
  intro j hj
  rw [UInt8.toBitVec_or, BitVec.getLsbD_or, getLsbD_byteAt _ _ hj, getLsbD_byteAt _ _ hj,
    getLsbD_byteAt _ _ hj, BitVec.getLsbD_or]

/-- The bit `i` of a number is one of the byte `i / 8`. -/
theorem testBit_littleValue (bs : Bytes) (i : Nat) :
    (littleValue bs).testBit i = (bs.getD (i / 8) 0).toNat.testBit (i % 8) := by
  induction bs generalizing i with
  | nil => rw [littleValue, Nat.zero_testBit, List.getD_nil, UInt8.toNat_zero, Nat.zero_testBit]
  | cons b bs ih =>
    have hb : b.toNat < 2 ^ 8 := UInt8.toNat_lt b
    rw [littleValue, Nat.add_comm, show 256 = 2 ^ 8 from rfl, Nat.testBit_two_pow_mul_add _ hb]
    split
    next hlt => rw [Nat.div_eq_of_lt hlt, List.getD_cons_zero, Nat.mod_eq_of_lt hlt]
    next hge =>
      have hdiv : i / 8 = (i - 8) / 8 + 1 := by omega
      have hmod : i % 8 = (i - 8) % 8 := by omega
      rw [ih, hdiv, hmod, List.getD_cons_succ]

theorem value_bytes (order : ByteOrder) (hw : w = 8 * (w / 8)) (v : BitVec w) :
    order.value (order.bytes v) = v.toNat := by
  have hlittle : littleValue ((List.range (w / 8)).map (byteAt v)) = v.toNat := by
    apply Nat.eq_of_testBit_eq
    intro i
    rw [testBit_littleValue, BitVec.testBit_toNat]
    by_cases hi : i < w
    · have hk : i / 8 < w / 8 := by omega
      have hget : ((List.range (w / 8)).map (byteAt v)).getD (i / 8) 0 = byteAt v (i / 8) := by
        rw [List.getD_eq_getElem?_getD, List.getElem?_map, List.getElem?_range hk]
        rfl
      have hj : i % 8 < 8 := Nat.mod_lt i (by decide)
      rw [hget, ← UInt8.toNat_toBitVec, BitVec.testBit_toNat, getLsbD_byteAt v _ hj,
        Nat.div_add_mod]
    · have hk : ((List.range (w / 8)).map (byteAt v)).length ≤ i / 8 := by
        rw [List.length_map, List.length_range]
        omega
      rw [List.getD_eq_getElem?_getD, List.getElem?_eq_none hk, Option.getD_none,
        UInt8.toNat_zero, Nat.zero_testBit, BitVec.getLsbD_of_ge v i (Nat.le_of_not_lt hi)]
  cases order with
  | little => exact hlittle
  | big =>
    rw [value, bytes, List.reverse_reverse]
    exact hlittle

theorem bytes_other (order : ByteOrder) (v : BitVec w) :
    order.other.bytes v = (order.bytes v).reverse := by
  cases order with
  | little => rfl
  | big => exact (List.reverse_reverse _).symm

/-- A word with its bytes in the other order. -/
theorem Reverses.bytes (h : Reverses v v') (order : ByteOrder) :
    order.bytes v' = (order.bytes v).reverse := by
  have hlittle : ByteOrder.little.bytes v' = (ByteOrder.little.bytes v).reverse := by
    apply List.ext_getElem
    · rw [List.length_reverse, length_bytes, length_bytes]
    · intro k hk _
      rw [length_bytes] at hk
      rw [List.getElem_reverse]
      simp only [ByteOrder.bytes, List.getElem_map, List.getElem_range, List.length_map,
        List.length_range]
      exact h k hk
  cases order with
  | little => exact hlittle
  | big =>
    rw [← List.reverse_reverse (big.bytes v), ← bytes_other, ← bytes_other]
    exact congrArg List.reverse hlittle

theorem Reverses.symm (h : Reverses v v') : Reverses v' v := by
  intro k hk
  rw [h _ (by omega)]
  congr 1
  omega

/-- What has been written in one byte order is read in the other. -/
theorem Reverses.value_bytes (h : Reverses v v') (hw : w = 8 * (w / 8)) (order : ByteOrder) :
    order.other.value (order.bytes v) = v'.toNat := by
  rw [← ByteOrder.value_bytes order.other hw v', bytes_other, h.bytes, List.reverse_reverse]

/-- There is one such word. -/
theorem Reverses.unique {u : BitVec w} (h : Reverses v v') (hu : Reverses v u)
    (hw : w = 8 * (w / 8)) : v' = u := by
  apply BitVec.eq_of_toNat_eq
  rw [← h.value_bytes hw .little, hu.value_bytes hw]

end Words

end ByteOrder

end Mwr.CodeLib
