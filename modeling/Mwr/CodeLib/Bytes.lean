import Mathlib.Data.List.Basic
import Mathlib.Data.List.TakeDrop

/-!
# Byte strings and the data in them

A string and the content of a buffer are lists of bytes.  This module has what
a binary format needs to speak about the content of a buffer.

* `At buf p xs` says that the bytes `xs` stand at position `p`.  It splits over
  `++`, so a reader that goes through a buffer is followed by taking the
  content of the buffer apart.
* `patch buf p xs` writes `xs` over the bytes at position `p`.
* `pad n` is the number of bytes that align `n` to four.
* `bigEndian` and `ofBigEndian` convert a word of 32 bits to its four bytes and
  back.
-/

namespace Mwr.CodeLib

/-- A string or the content of a buffer. -/
abbrev Bytes := List UInt8

namespace Bytes

/-- The bytes of an ASCII literal. -/
def str (s : String) : Bytes := s.toList.map fun c => UInt8.ofNat c.toNat

/-- The text of a byte string, one character for each byte. -/
def text (s : Bytes) : String := String.ofList (s.map fun b => Char.ofNat b.toNat)

/-! ## Positions -/

/-- The bytes `xs` stand at position `p`. -/
def At (buf : Bytes) (p : Nat) (xs : Bytes) : Prop := xs <+: buf.drop p

theorem at_nil (buf : Bytes) (p : Nat) : At buf p [] := List.nil_prefix

theorem at_append {buf : Bytes} {p : Nat} {xs ys : Bytes} :
    At buf p (xs ++ ys) ↔ At buf p xs ∧ At buf (p + xs.length) ys := by
  rw [At, At, At, ← List.drop_drop]
  constructor
  · rintro ⟨zs, h⟩
    rw [← h]
    constructor
    · rw [List.append_assoc]
      exact List.prefix_append xs (ys ++ zs)
    · rw [List.append_assoc, List.drop_left]
      exact List.prefix_append ys zs
  · rintro ⟨⟨zs, h⟩, hys⟩
    rw [← h, List.drop_left] at hys
    rw [← h]
    exact (List.prefix_append_right_inj xs).2 hys

theorem at_cons {buf : Bytes} {p : Nat} {x : UInt8} {xs : Bytes} :
    At buf p (x :: xs) ↔ buf[p]? = some x ∧ At buf (p + 1) xs := by
  have hhead : At buf p [x] ↔ buf[p]? = some x := by
    rw [At, ← List.head?_drop]
    cases buf.drop p with
    | nil => simp
    | cons y ys => simp [eq_comm]
  rw [← hhead]
  exact (at_append : At buf p ([x] ++ xs) ↔ _)

/-- What stands in a part of a buffer stands in the buffer. -/
theorem At.trans {buf xs ys : Bytes} {p k : Nat} (h : At buf p xs) (hk : At xs k ys) :
    At buf (p + k) ys := by
  obtain ⟨zs, hzs⟩ := h
  rw [At, ← List.drop_drop, ← hzs, List.drop_append]
  exact List.IsPrefix.trans hk (List.prefix_append _ _)

theorem At.add_length_le {buf : Bytes} {p : Nat} {xs : Bytes} (h : At buf p xs)
    (hp : p ≤ buf.length) : p + xs.length ≤ buf.length := by
  have hle := List.IsPrefix.length_le h
  rw [List.length_drop] at hle
  omega

theorem At.length_le {buf : Bytes} {p : Nat} {xs : Bytes} (h : At buf p xs) (hxs : xs ≠ []) :
    p + xs.length ≤ buf.length := by
  have hle := List.IsPrefix.length_le h
  have hpos := List.length_pos_iff.2 hxs
  rw [List.length_drop] at hle
  omega

theorem at_of_eq (pre xs post : Bytes) : At (pre ++ xs ++ post) pre.length xs := by
  rw [At, List.append_assoc, List.drop_left]
  exact List.prefix_append xs post

/-! ## Writing over a buffer -/

/-- The buffer with `xs` over the bytes at position `p`. -/
def patch (buf : Bytes) (p : Nat) (xs : Bytes) : Bytes :=
  buf.take p ++ xs ++ buf.drop (p + xs.length)

theorem patch_append {pre old post xs : Bytes} (h : old.length = xs.length) :
    patch (pre ++ (old ++ post)) pre.length xs = pre ++ (xs ++ post) := by
  rw [patch, List.take_left, ← h, ← List.drop_drop, List.drop_left, List.drop_left,
    List.append_assoc]

/-- Writing a byte and then the rest behind it. -/
theorem patch_cons {buf : Bytes} {p : Nat} {x : UInt8} {xs : Bytes} (h : p < buf.length) :
    patch (buf.set p x) (p + 1) xs = patch buf p (x :: xs) := by
  have htake : (buf.set p x).take (p + 1) = buf.take p ++ [x] := by
    rw [List.take_set, List.take_succ_eq_append_getElem h,
      List.set_append_right _ _ (List.length_take_le p buf)]
    rw [List.length_take, Nat.min_eq_left (Nat.le_of_lt h), Nat.sub_self]
    rfl
  have hdrop : (buf.set p x).drop (p + 1 + xs.length) = buf.drop (p + 1 + xs.length) :=
    List.drop_set_of_lt (by omega)
  rw [patch, patch, htake, hdrop, List.length_cons]
  simp [Nat.add_comm, Nat.add_left_comm]

/-! ## Alignment -/

/-- The number of bytes that align `n` to four. -/
def pad (n : Nat) : Nat := (4 - n % 4) % 4

theorem add_pad_mod (n : Nat) : (n + pad n) % 4 = 0 := by
  unfold pad
  omega

theorem pad_lt (n : Nat) : pad n < 4 := Nat.mod_lt _ (by decide)

theorem pad_of_mod {n : Nat} (h : n % 4 = 0) : pad n = 0 := by
  unfold pad
  omega

theorem pad_of_not_mod {n : Nat} (h : n % 4 ≠ 0) : pad n = pad (n + 1) + 1 := by
  unfold pad
  omega

theorem pad_add_of_mod {m n : Nat} (h : m % 4 = 0) : pad (m + n) = pad n := by
  unfold pad
  omega

/-! ## Words of 32 bits -/

/-- The four bytes of a word, most significant byte first. -/
def bigEndian (x : UInt32) : Bytes :=
  [(x >>> 24).toUInt8, (x >>> 16).toUInt8, (x >>> 8).toUInt8, (x >>> 0).toUInt8]

/-- The word with these four bytes, most significant byte first. -/
def ofBigEndian (a b c d : UInt8) : UInt32 :=
  a.toUInt32 <<< 24 ||| b.toUInt32 <<< 16 ||| c.toUInt32 <<< 8 ||| d.toUInt32

theorem ofBigEndian_bigEndian (x : UInt32) :
    ofBigEndian (x >>> 24).toUInt8 (x >>> 16).toUInt8 (x >>> 8).toUInt8 (x >>> 0).toUInt8 = x := by
  apply UInt32.toBitVec_inj.1
  apply BitVec.eq_of_getLsbD_eq
  intro i hi
  simp [ofBigEndian, -UInt32.toUInt32_toUInt8]
  grind

theorem bigEndian_ofBigEndian (a b c d : UInt8) :
    bigEndian (ofBigEndian a b c d) = [a, b, c, d] := by
  have hbyte : ∀ (x y : UInt8), (∀ i < 8, x.toBitVec.getLsbD i = y.toBitVec.getLsbD i) → x = y :=
    fun x y h => UInt8.toBitVec_inj.1 (BitVec.eq_of_getLsbD_eq h)
  have ha : (ofBigEndian a b c d >>> 24).toUInt8 = a := by
    refine hbyte _ _ fun i hi => ?_
    simp [ofBigEndian]
    grind
  have hb : (ofBigEndian a b c d >>> 16).toUInt8 = b := by
    refine hbyte _ _ fun i hi => ?_
    simp [ofBigEndian]
    grind
  have hc : (ofBigEndian a b c d >>> 8).toUInt8 = c := by
    refine hbyte _ _ fun i hi => ?_
    simp [ofBigEndian]
    grind
  have hd : (ofBigEndian a b c d >>> 0).toUInt8 = d := by
    refine hbyte _ _ fun i hi => ?_
    simp [ofBigEndian]
  rw [bigEndian, ha, hb, hc, hd]

end Bytes

end Mwr.CodeLib
