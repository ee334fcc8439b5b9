import Mathlib.Data.UInt
import Mwr.CodeLib.ByteOrder
import Mwr.CodeLib.Exec
import Mwr.Core.Report
import Mwr.Stl.Strings

/-!
# Lines of hexadecimal digits

What the readers of Intel HEX files and of S-records share: the lines of a file,
the bytes that a line spells with two digits each, and the numbers that bytes
stand for.

`Spells digits bytes` says what a run of digits means, in upper or in lower case, and
`taken` is what the readers make of any characters.  `hexByte_taken`,
`readBytes_taken` and `readBytes_of_spells` are the rules by which a reader gets at
these bytes.
-/

namespace Mwr.HexFile

open Mwr.CodeLib (Bytes ByteOrder)
open Mwr.CodeLib.Exec
open Mwr.Strings

/-! ## The lines of a file -/

/-- The loop of `getline` behind the characters `line` of the current line.  A
last line without a newline counts if it has a character. -/
def linesLoop (line : Bytes) : Bytes → List Bytes
  | [] => if line = [] then [] else [line]
  | ch :: rest =>
    if ch = '\n'.toUInt8 then line :: linesLoop [] rest else linesLoop (line ++ [ch]) rest

/-- The lines that `while (getline(file, line))` sees. -/
def getlines (content : Bytes) : List Bytes := linesLoop [] content

/-! ## Reading bytes -/

/-- `ihex_byte(line, off)` and `srec_byte(line, off)`. -/
def hexByte (line : Bytes) (off : Nat) : Except Fault UInt8 :=
  if off + 1 ≥ line.length then
    .error (.error "reading beyond srec line")
  else
    .ok ((fromHexAscii (line.getD off 0) <<< 4) ||| fromHexAscii (line.getD (off + 1) 0)).toUInt8

/-- The values of `pos` in `for (pos = start; pos < stop; pos += 2)`. -/
def positions (start stop : Nat) : List Nat :=
  List.range' start ((stop + 1 - start) / 2) 2

/-- The bytes that such a loop reads. -/
def readBytes (line : Bytes) (start stop : Nat) : Except Fault Bytes :=
  (positions start stop).mapM (hexByte line)

/-- The byte that two characters are taken for. -/
def hexPair (hi lo : UInt8) : UInt8 :=
  ((fromHexAscii hi <<< 4) ||| fromHexAscii lo).toUInt8

/-- The bytes that a run of characters is taken for, digits or not. -/
def taken : Bytes → Bytes
  | hi :: lo :: chars => hexPair hi lo :: taken chars
  | _ => []

/-- `result = (result << 8) | byte` for each byte, in a word of `w` bits. -/
def accumulate (w : Nat) (bytes : Bytes) : BitVec w :=
  bytes.foldl (fun result byte => (result <<< 8) ||| byte.toBitVec.setWidth w) 0

/-! ## What digits mean -/

/-- The value of a hexadecimal digit. -/
def hexVal (ch : UInt8) : Option Nat :=
  if '0'.toUInt8 ≤ ch ∧ ch ≤ '9'.toUInt8 then
    some (ch.toNat - 48)
  else if 'a'.toUInt8 ≤ ch ∧ ch ≤ 'f'.toUInt8 then
    some (ch.toNat - 87)
  else if 'A'.toUInt8 ≤ ch ∧ ch ≤ 'F'.toUInt8 then
    some (ch.toNat - 55)
  else
    none

/-- The digits spell the bytes, two digits for each byte. -/
inductive Spells : Bytes → Bytes → Prop where
  | nil : Spells [] []
  | cons {hi lo : UInt8} {x y : Nat} {digits bytes : Bytes} (hx : hexVal hi = some x)
      (hy : hexVal lo = some y) (tail : Spells digits bytes) :
      Spells (hi :: lo :: digits) (UInt8.ofNat (16 * x + y) :: bytes)

/-- The bytes that a run of digits spells. -/
def spelled : Bytes → Option Bytes
  | [] => some []
  | [_] => none
  | hi :: lo :: digits => do
    let x ← hexVal hi
    let y ← hexVal lo
    let bytes ← spelled digits
    some (UInt8.ofNat (16 * x + y) :: bytes)

theorem spelled_eq_some_iff {digits bytes : Bytes} :
    spelled digits = some bytes ↔ Spells digits bytes := by
  constructor
  · intro h
    induction digits using spelled.induct generalizing bytes with
    | case1 =>
      cases h
      exact .nil
    | case2 ch => cases h
    | case3 hi lo digits ih =>
      simp only [spelled, Option.bind_eq_bind, Option.bind_eq_some_iff, Option.some_inj] at h
      rcases h with ⟨x, hx, y, hy, tail, htail, rfl⟩
      exact .cons hx hy (ih htail)
  · intro h
    induction h with
    | nil => rfl
    | cons hx hy tail ih => rw [spelled, hx, hy, ih]; rfl

instance (digits bytes : Bytes) : Decidable (Spells digits bytes) :=
  decidable_of_iff _ spelled_eq_some_iff

theorem Spells.length_eq {digits bytes : Bytes} (h : Spells digits bytes) :
    digits.length = 2 * bytes.length := by
  induction h with
  | nil => rfl
  | cons hx hy tail ih =>
    simp only [List.length_cons, ih]
    omega

/-- Digits that spell two strings of bytes one after the other. -/
theorem spells_append {digits xs ys : Bytes} (h : Spells digits (xs ++ ys)) :
    ∃ ds es, digits = ds ++ es ∧ Spells ds xs ∧ Spells es ys := by
  induction xs generalizing digits with
  | nil => exact ⟨[], digits, rfl, .nil, h⟩
  | cons x xs ih =>
    cases h with
    | @cons hi lo a b digits bytes hx hy tail =>
      rcases ih tail with ⟨ds, es, rfl, hds, hes⟩
      exact ⟨hi :: lo :: ds, es, rfl, .cons hx hy hds, hes⟩

/-- What `from_hex_ascii` and `nospace` make of the digits. -/
theorem hexVal_table : ∀ n < 256, (hexVal (UInt8.ofNat n)).all fun x =>
    decide (x < 16) && fromHexAscii (UInt8.ofNat n) == UInt32.ofNat x &&
      nospace (UInt8.ofNat n) := by
  decide +kernel

theorem of_hexVal {ch : UInt8} {x : Nat} (h : hexVal ch = some x) :
    x < 16 ∧ fromHexAscii ch = UInt32.ofNat x ∧ nospace ch = true := by
  have htable := hexVal_table ch.toNat (UInt8.toNat_lt ch)
  rw [UInt8.ofNat_toNat, h, Option.all_some, Bool.and_eq_true, Bool.and_eq_true,
    decide_eq_true_iff, beq_iff_eq] at htable
  exact ⟨htable.1.1, htable.1.2, htable.2⟩

/-- Two digits make a byte. -/
theorem digits_toUInt8 {x y : Nat} (hx : x < 16) (hy : y < 16) :
    ((UInt32.ofNat x <<< 4) ||| UInt32.ofNat y).toUInt8 = UInt8.ofNat (16 * x + y) := by
  have htable : ∀ x < 16, ∀ y < 16,
      ((UInt32.ofNat x <<< 4) ||| UInt32.ofNat y).toUInt8 = UInt8.ofNat (16 * x + y) := by
    decide +kernel
  exact htable x hx y hy

/-! ## Characters in a line -/

theorem taken_short {chars : Bytes} (h : ∀ hi lo rest, chars = hi :: lo :: rest → False) :
    taken chars = [] := by
  cases chars with
  | nil => rfl
  | cons hi rest =>
    cases rest with
    | nil => rfl
    | cons lo rest => exact absurd rfl (h hi lo rest)

theorem length_taken (chars : Bytes) : (taken chars).length = chars.length / 2 := by
  induction chars using taken.induct with
  | case1 hi lo chars ih =>
    rw [taken, List.length_cons, ih, List.length_cons, List.length_cons]
    omega
  | case2 chars hshort =>
    rw [taken_short hshort]
    match chars with
    | [] => rfl
    | [_] => simp
    | hi :: lo :: rest => exact absurd rfl (hshort hi lo rest)

theorem at_getD {line : Bytes} {p : Nat} {ch d : UInt8} {rest : Bytes}
    (h : Bytes.At line p (ch :: rest)) : line.getD p d = ch ∧ p < line.length := by
  have hget := (Bytes.at_cons.mp h).1
  rcases List.getElem?_eq_some_iff.mp hget with ⟨hlt, _⟩
  exact ⟨by rw [List.getD_eq_getElem?_getD, hget, Option.getD_some], hlt⟩

/-- A byte of a line that reads `chars` from the position `p` on. -/
theorem hexByte_taken {line chars : Bytes} {p : Nat} (h : Bytes.At line p chars) {i : Nat}
    (hi : i < (taken chars).length) : hexByte line (p + 2 * i) = .ok (taken chars)[i] := by
  induction chars using taken.induct generalizing p i with
  | case1 hi lo chars ih =>
    have hrest : Bytes.At line (p + 1 + 1) chars := (Bytes.at_cons.mp (Bytes.at_cons.mp h).2).2
    cases i with
    | zero =>
      have hhi := at_getD (d := 0) h
      have hlo := at_getD (d := 0) (Bytes.at_cons.mp h).2
      rw [Nat.mul_zero, Nat.add_zero, hexByte, if_neg (by omega), hhi.1, hlo.1]
      rfl
    | succ i =>
      have hstep := ih hrest (Nat.lt_of_succ_lt_succ hi)
      rw [show p + 2 * (i + 1) = p + 1 + 1 + 2 * i by omega]
      exact hstep
  | case2 chars hshort =>
    rw [taken_short hshort] at hi
    cases hi

/-- A loop reads the bytes that are found at its positions. -/
theorem readBytes_eq {line bytes : Bytes} {p : Nat}
    (h : ∀ (i : Nat) (hi : i < bytes.length), hexByte line (p + 2 * i) = .ok bytes[i]) :
    readBytes line p (p + 2 * bytes.length) = .ok bytes := by
  have hcount : (p + 2 * bytes.length + 1 - p) / 2 = bytes.length := by omega
  rw [readBytes, positions, hcount]
  clear hcount
  induction bytes generalizing p with
  | nil => rfl
  | cons b bytes ih =>
    have hhead : hexByte line p = .ok b := h 0 (Nat.zero_lt_succ _)
    have htail := ih (p := p + 2) fun i hi => by
      have hstep := h (i + 1) (Nat.succ_lt_succ hi)
      rw [show p + 2 * (i + 1) = p + 2 + 2 * i by omega] at hstep
      exact hstep
    rw [List.length_cons, List.range'_succ, List.mapM_cons, hhead, ok_bind, htail, ok_bind]
    rfl

theorem readBytes_taken {line chars : Bytes} {p : Nat} (h : Bytes.At line p chars) :
    readBytes line p (p + 2 * (taken chars).length) = .ok (taken chars) :=
  readBytes_eq fun _ hi => hexByte_taken h hi

/-- A loop that stays in the line reads the characters at its positions.  The last of
them may be at `stop`. -/
theorem readBytes_ok {line : Bytes} {start stop n : Nat} (hn : n = (stop + 1 - start) / 2)
    (h : start + 2 * n ≤ line.length) :
    readBytes line start stop = .ok (taken ((line.drop start).take (2 * n))) := by
  have hread := readBytes_taken (p := start) (List.take_prefix (2 * n) (line.drop start))
  have hlen : (taken ((line.drop start).take (2 * n))).length = n := by
    rw [length_taken, List.length_take, List.length_drop]
    omega
  rw [hlen, readBytes, positions] at hread
  rw [readBytes, positions, ← hn, ← hread]
  congr 2
  omega

/-- Digits are taken for the bytes that they spell. -/
theorem taken_of_spells {digits bytes : Bytes} (h : Spells digits bytes) :
    taken digits = bytes := by
  induction h with
  | nil => rfl
  | cons hx hy tail ih =>
    rcases of_hexVal hx with ⟨hx16, hxval, _⟩
    rcases of_hexVal hy with ⟨hy16, hyval, _⟩
    rw [taken, ih, hexPair, hxval, hyval, digits_toUInt8 hx16 hy16]

theorem readBytes_of_spells {line digits bytes : Bytes} {p : Nat} (h : Bytes.At line p digits)
    (hs : Spells digits bytes) : readBytes line p (p + 2 * bytes.length) = .ok bytes := by
  have hread := readBytes_taken h
  rwa [taken_of_spells hs] at hread

/-! ## Numbers -/

/-- Shifting bytes into a word that has room for them reads them as a number. -/
theorem toNat_accumulate {w : Nat} {bytes : Bytes} (h : 8 * bytes.length ≤ w) :
    (accumulate w bytes).toNat = ByteOrder.big.value bytes := by
  induction bytes using List.reverseRecOn with
  | nil => rfl
  | append_singleton bytes b ih =>
    rw [List.length_append, List.length_singleton] at h
    have ih := ih (by omega)
    have hb : b.toNat < 2 ^ 8 := UInt8.toNat_lt b
    have hpow : 2 ^ (8 * bytes.length + 8) ≤ 2 ^ w := Nat.pow_le_pow_right (by decide) (by omega)
    have hlt := ByteOrder.value_lt .big bytes
    rw [Nat.pow_add] at hpow
    have hbw : b.toNat < 2 ^ w := by
      have hpos : 0 < 2 ^ (8 * bytes.length) := Nat.pow_pos (by decide)
      omega
    have hacc : (accumulate w (bytes ++ [b])) =
        (accumulate w bytes <<< 8) ||| b.toBitVec.setWidth w := by
      rw [accumulate, List.foldl_append]
      rfl
    rw [hacc, BitVec.toNat_or, BitVec.toNat_shiftLeft, BitVec.toNat_setWidth, ih,
      UInt8.toNat_toBitVec, Nat.mod_eq_of_lt hbw, Nat.shiftLeft_eq, Nat.mod_eq_of_lt (by omega),
      ← Nat.shiftLeft_eq, ← Nat.shiftLeft_add_eq_or_of_lt hb, Nat.shiftLeft_eq,
      ByteOrder.value_big_append]
    omega

/-! ## Trimming -/

theorem getLast_of_spells {digits bytes : Bytes} (h : Spells digits bytes) (hne : bytes ≠ []) :
    ∃ last, digits.getLast? = some last ∧ nospace last = true := by
  induction h with
  | nil => exact absurd rfl hne
  | @cons hi lo x y digits bytes hx hy tail ih =>
    cases tail with
    | nil => exact ⟨lo, rfl, (of_hexVal hy).2.2⟩
    | cons hx' hy' tail' =>
      rcases ih (List.cons_ne_nil _ _) with ⟨last, hlast, hnospace⟩
      refine ⟨last, ?_, hnospace⟩
      rw [List.getLast?_cons_cons, List.getLast?_cons_cons]
      exact hlast

theorem nospace_of_isspace {ch : UInt8} (h : isspace ch) : nospace ch = false := by
  rw [nospace, h, Bool.not_true, Bool.and_false]

theorem rtrim_isspace {post : Bytes} (hpost : ∀ ch ∈ post, isspace ch) : rtrim post = [] := by
  rw [rtrim, List.rdropWhile_eq_nil_iff]
  intro ch hch
  rw [nospace_of_isspace (hpost ch hch), Bool.not_false]

theorem rtrim_append {body : Bytes} {last : UInt8} (post : Bytes)
    (hlast : body.getLast? = some last) (hl : nospace last = true) :
    rtrim (body ++ post) = body ++ rtrim post := by
  induction post using List.reverseRecOn with
  | nil =>
    rw [List.append_nil, rtrim, rtrim, List.rdropWhile_nil, List.append_nil,
      List.rdropWhile_eq_self_iff]
    intro hne
    rw [List.getLast?_eq_some_getLast hne, Option.some_inj] at hlast
    simp [hlast, hl]
  | append_singleton post ch ih =>
    rw [rtrim, rtrim] at ih
    rw [← List.append_assoc, rtrim, rtrim, List.rdropWhile_concat, List.rdropWhile_concat]
    split
    · exact ih
    · exact List.append_assoc body post [ch]

/-- Trimming stops at the first and at the last character of a text in the middle of
a line. -/
theorem trim_append {pre body : Bytes} {first last : UInt8} (post : Bytes)
    (hpre : ∀ ch ∈ pre, nospace ch = false) (hfirst : body.head? = some first)
    (hlast : body.getLast? = some last) (hf : nospace first = true) (hl : nospace last = true) :
    trim (pre ++ body ++ post) = body ++ rtrim post := by
  have hltrim : ltrim (pre ++ body ++ post) = body ++ post := by
    rw [ltrim, List.append_assoc, List.dropWhile_append_of_pos (by simpa using hpre)]
    cases body with
    | nil => cases hfirst
    | cons ch body =>
      cases hfirst
      rw [List.cons_append, List.dropWhile_cons_of_neg (by simp [hf])]
  rw [trim, hltrim, rtrim_append post hlast hl]

/-! ## The last record of a kind -/

theorem getLast?_filter_concat {α : Type} (p : α → Bool) (xs : List α) (x : α) :
    ((xs ++ [x]).filter p).getLast? = if p x then some x else (xs.filter p).getLast? := by
  rw [List.filter_append]
  cases h : p x with
  | true => rw [List.filter_cons_of_pos h, List.filter_nil, List.getLast?_concat, if_pos rfl]
  | false =>
    have hneg : ¬ p x = true := by rw [h]; exact Bool.false_ne_true
    rw [List.filter_cons_of_neg hneg, List.filter_nil, List.append_nil, if_neg Bool.false_ne_true]

end Mwr.HexFile
