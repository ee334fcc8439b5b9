import Mwr.HexFile.IhexLoad

/-!
# What counts as an Intel HEX record

The lines that `process_line` accepts.  `TakenFor` says that the characters of a
line are taken for a record, and `processLine_cases` that nothing else is accepted.
A line that is `Spelled` is taken for its record.  The converse needs digits: a
stray character is not refused but read as part of a byte.
-/

namespace Mwr.HexFile

open Mwr.CodeLib (Bytes ByteOrder)
open Mwr.CodeLib.Exec

/-- The types from `00` to `05`, as opposed to the reasons to refuse a line. -/
def IhexType.IsRecord (type : IhexType) : Prop :=
  type ∈ [.data, .eof, .exSeg, .startSeg, .exLinAddr, .startLinAddr]

instance (type : IhexType) : Decidable type.IsRecord := inferInstanceAs (Decidable (type ∈ _))

/-- A colon and the digits of the record at the beginning of the line.  The bytes of
a `Rec` sum to zero. -/
def Spelled (line : Bytes) (r : Rec) : Prop :=
  r.Legal ∧ ∃ digits rest, line = ':'.toUInt8 :: digits ++ rest ∧ Spells digits r.bytes

/-- A colon and characters that are taken for the record. -/
def TakenFor (line chars : Bytes) (r : Rec) : Prop :=
  r.Legal ∧ chars.length = 2 * r.bytes.length ∧ taken chars = r.bytes ∧
    ∃ rest, line = ':'.toUInt8 :: chars ++ rest

/-! ## The checks -/

theorem taken_take (chars : Bytes) (n : Nat) :
    taken (chars.take (2 * n)) = (taken chars).take n := by
  induction chars using taken.induct generalizing n with
  | case1 hi lo chars ih =>
    cases n with
    | zero => rfl
    | succ n =>
      rw [Nat.mul_succ, List.take_succ_cons, List.take_succ_cons, taken, ih, taken,
        List.take_succ_cons]
  | case2 chars hshort =>
    have hnil : taken (chars.take (2 * n)) = [] := by
      have hlen := length_taken chars
      have hlen' := length_taken (chars.take (2 * n))
      rw [taken_short hshort, List.length_nil] at hlen
      rw [List.length_take] at hlen'
      exact List.length_eq_zero_iff.mp (by omega)
    rw [hnil, taken_short hshort, List.take_nil]

theorem accumulate_eq_zero {hi lo : UInt8} (h : accumulate 16 [hi, lo] = 0) :
    hi = 0 ∧ lo = 0 := by
  have hvalue : (accumulate 16 [hi, lo]).toNat = ByteOrder.big.value [hi, lo] :=
    toNat_accumulate (by simp)
  rw [h] at hvalue
  have hbytes : [lo, hi] = [0, 0] := ByteOrder.littleValue_inj rfl hvalue.symm
  cases hbytes
  exact ⟨rfl, rfl⟩

/-- The count and the address that the `switch` asks for. -/
theorem fields_of_isRecord {c n hi lo : UInt8} {type : IhexType}
    (h : (if c ≠ n ∨ accumulate 16 [hi, lo] ≠ 0 then .invalidDescriptor else type).IsRecord) :
    c = n ∧ hi = 0 ∧ lo = 0 := by
  split at h
  · exact absurd h (by decide)
  next hok =>
    rw [not_or, not_not, not_not] at hok
    exact ⟨hok.1, accumulate_eq_zero hok.2⟩

/-- A type that passes the checks of the `switch` makes a legal record. -/
theorem legal_of_ihexType {t c hi lo : UInt8} {data : Bytes} (hlen : data.length = c.toNat)
    (h : (ihexType t c (accumulate 16 [hi, lo])).IsRecord) :
    ∃ type : RecType, t = type.code ∧ Rec.Legal ⟨type, hi, lo, data⟩ := by
  have hcode : ∀ type : RecType, t.toNat = type.code.toNat → t = type.code := fun _ =>
    UInt8.toNat_inj.mp
  unfold ihexType at h
  split at h
  next ht => exact ⟨.data, hcode .data ht, show data.length < 256 from hlen ▸ UInt8.toNat_lt c⟩
  next ht =>
    rcases fields_of_isRecord h with ⟨rfl, rfl, rfl⟩
    exact ⟨.eof, hcode .eof ht, hlen, rfl, rfl⟩
  next ht =>
    rcases fields_of_isRecord h with ⟨rfl, rfl, rfl⟩
    exact ⟨.exSeg, hcode .exSeg ht, hlen, rfl, rfl⟩
  next ht =>
    rcases fields_of_isRecord h with ⟨rfl, rfl, rfl⟩
    exact ⟨.exLinAddr, hcode .exLinAddr ht, hlen, rfl, rfl⟩
  next ht =>
    rcases fields_of_isRecord h with ⟨rfl, rfl, rfl⟩
    exact ⟨.startSeg, hcode .startSeg ht, hlen, rfl, rfl⟩
  next ht =>
    rcases fields_of_isRecord h with ⟨rfl, rfl, rfl⟩
    exact ⟨.startLinAddr, hcode .startLinAddr ht, hlen, rfl, rfl⟩
  next => exact absurd h (by decide)

/-- A type that does not pass the checks is refused for one of two reasons. -/
theorem ihexType_refused {t c : UInt8} {addr : BitVec 16} (h : ¬ (ihexType t c addr).IsRecord) :
    ihexType t c addr = .invalidDescriptor ∨ ihexType t c addr = .invalidType := by
  revert h
  unfold ihexType
  split <;> (try split) <;> decide

/-- Ten characters are taken for four bytes in front of the data. -/
theorem taken_fields (chars : Bytes) (h : 10 ≤ chars.length) :
    ∃ c hi lo t tail, taken chars = c :: hi :: lo :: t :: tail := by
  have hlen := length_taken chars
  match htaken : taken chars with
  | c :: hi :: lo :: t :: tail => exact ⟨c, hi, lo, t, tail, rfl⟩
  | [] | [_] | [_, _] | [_, _, _] =>
    rw [htaken] at hlen
    simp only [List.length_cons, List.length_nil] at hlen
    omega

/-- The fields of a line that is long enough for them. -/
theorem hexByte_fields {chars : Bytes} {c hi lo t : UInt8} {tail : Bytes}
    (htaken : taken chars = c :: hi :: lo :: t :: tail) :
    hexByte (':'.toUInt8 :: chars) 1 = .ok c ∧ hexByte (':'.toUInt8 :: chars) 3 = .ok hi ∧
      hexByte (':'.toUInt8 :: chars) 5 = .ok lo ∧ hexByte (':'.toUInt8 :: chars) 7 = .ok t := by
  have hat : Bytes.At (':'.toUInt8 :: chars) 1 chars := List.prefix_refl chars
  have hbyte : ∀ (i : Nat) (h : i < (taken chars).length),
      hexByte (':'.toUInt8 :: chars) (1 + 2 * i) = .ok (taken chars)[i] :=
    fun i h => hexByte_taken hat h
  simp only [htaken, List.length_cons] at hbyte
  exact ⟨hbyte 0 (by omega), hbyte 1 (by omega), hbyte 2 (by omega), hbyte 3 (by omega)⟩

/-- The bytes that the checksum is about, when the line has them all. -/
theorem taken_record {chars : Bytes} {c hi lo t : UInt8} {tail : Bytes}
    (htaken : taken chars = c :: hi :: lo :: t :: tail)
    (hlong : 2 * (5 + c.toNat) ≤ chars.length) :
    ∃ data sum, data.length = c.toNat ∧
      taken (chars.take (2 * (5 + c.toNat))) = c :: hi :: lo :: t :: (data ++ [sum]) := by
  have hlen := length_taken chars
  simp only [htaken, List.length_cons] at hlen
  have htail : tail.take (c.toNat + 1) = tail.take c.toNat ++ [tail[c.toNat]] :=
    List.take_succ_eq_append_getElem (by omega)
  refine ⟨tail.take c.toNat, tail[c.toNat], by rw [List.length_take]; omega, ?_⟩
  rw [taken_take, htaken, ← htail, show 5 + c.toNat = c.toNat + 1 + 1 + 1 + 1 + 1 by omega]
  rfl

/-- A line is taken for a record, or it is refused. -/
theorem processLine_cases (line : Bytes) :
    (∃ chars r, TakenFor line chars r) ∨
      ∃ r, processLine line = .ok r ∧ ¬ r.type.IsRecord := by
  by_cases hstart : line.length < 11 ∨ line.head? ≠ some ':'.toUInt8
  · exact .inr ⟨_, by rw [processLine, if_pos hstart], by decide⟩
  rw [not_or, not_not] at hstart
  obtain ⟨ch, chars, rfl⟩ : ∃ ch chars, line = ch :: chars :=
    List.exists_cons_of_length_pos (by omega)
  obtain rfl : ch = ':'.toUInt8 := Option.some_inj.mp hstart.2
  have hlen : (':'.toUInt8 :: chars).length = chars.length + 1 := List.length_cons
  rw [hlen] at hstart
  obtain ⟨c, hi, lo, t, tail, htaken⟩ := taken_fields chars (by omega)
  obtain ⟨h0, h1, h2, h3⟩ := hexByte_fields htaken
  generalize hresult : processLine (':'.toUInt8 :: chars) = result
  rw [processLine, if_neg (by
    rw [not_or, not_not, hlen]
    exact hstart)] at hresult
  simp only [h0, h1, h2, h3, ok_bind, hlen] at hresult
  by_cases hshort : chars.length + 1 < 11 + c.toNat * 2
  · rw [if_pos hshort] at hresult
    exact .inr ⟨_, hresult.symm, by decide⟩
  obtain ⟨data, sum, hdata, hbytes⟩ := taken_record htaken (by omega)
  have hread : readBytes (':'.toUInt8 :: chars) 1 (11 + c.toNat * 2) =
      .ok (c :: hi :: lo :: t :: (data ++ [sum])) := by
    have h : readBytes (':'.toUInt8 :: chars) 1 _ = .ok (taken (chars.take _)) :=
      readBytes_taken (List.take_prefix (2 * (5 + c.toNat)) chars)
    rw [hbytes] at h
    simp only [List.length_cons, List.length_append, hdata, List.length_nil] at h
    rw [show 11 + c.toNat * 2 = 1 + 2 * (c.toNat + (0 + 1) + 1 + 1 + 1 + 1) by omega, h]
  rw [if_neg hshort, hread, ok_bind] at hresult
  by_cases hsum : (c :: hi :: lo :: t :: (data ++ [sum])).sum ≠ 0
  · rw [if_pos hsum] at hresult
    exact .inr ⟨_, hresult.symm, by decide⟩
  rw [if_neg hsum] at hresult
  by_cases hrecord : (ihexType t c (accumulate 16 [hi, lo])).IsRecord
  · obtain ⟨type, rfl, hlegal⟩ := legal_of_ihexType hdata hrecord
    have hbody : Rec.bytes ⟨type, hi, lo, data⟩ =
        c :: hi :: lo :: type.code :: (data ++ [sum]) := by
      rw [not_not, ← List.cons_append, ← List.cons_append, ← List.cons_append, ← List.cons_append,
        List.sum_append, List.sum_singleton] at hsum
      rw [Rec.bytes, Rec.body, hdata, UInt8.ofNat_toNat, ← eq_neg_of_add_eq_zero_right hsum]
      rfl
    refine .inl ⟨chars.take (2 * (5 + c.toNat)), ⟨type, hi, lo, data⟩, hlegal, ?_, ?_,
      chars.drop (2 * (5 + c.toNat)), ?_⟩
    · rw [bytes_length, List.length_take, hdata]
      omega
    · rw [hbody, hbytes]
    · rw [List.cons_append, List.take_append_drop]
  · rcases ihexType_refused hrecord with htype | htype <;> rw [htype] at hresult
    · exact .inr ⟨_, hresult.symm, by decide⟩
    · exact .inr ⟨_, hresult.symm, by decide⟩

/-! ## Stray characters -/

theorem isSome_of_spells {digits bytes : Bytes} (h : Spells digits bytes) :
    ∀ ch ∈ digits, (hexVal ch).isSome := by
  induction h with
  | nil => exact fun ch hch => absurd hch List.not_mem_nil
  | cons hx hy tail ih =>
    rw [List.forall_mem_cons, List.forall_mem_cons, hx, hy]
    exact ⟨rfl, rfl, ih⟩

/-- Digits spell what they are taken for. -/
theorem spells_taken {chars : Bytes} {n : Nat} (hlen : chars.length = 2 * n)
    (h : ∀ ch ∈ chars, (hexVal ch).isSome) : Spells chars (taken chars) := by
  induction chars using taken.induct generalizing n with
  | case1 hi lo chars ih =>
    rw [List.forall_mem_cons, List.forall_mem_cons] at h
    obtain ⟨x, hx⟩ := Option.isSome_iff_exists.mp h.1
    obtain ⟨y, hy⟩ := Option.isSome_iff_exists.mp h.2.1
    rw [List.length_cons, List.length_cons] at hlen
    have htail := ih (n := n - 1) (by omega) h.2.2
    have hspells := Spells.cons hx hy htail
    rwa [← taken_of_spells hspells] at hspells
  | case2 chars hshort =>
    rw [taken_short hshort]
    cases chars with
    | nil => exact .nil
    | cons hi chars =>
      cases chars with
      | nil =>
        rw [List.length_singleton] at hlen
        omega
      | cons lo rest => exact absurd rfl (hshort hi lo rest)

/-- The count says how many characters belong to the record. -/
theorem TakenFor.chars_eq {line chars chars' : Bytes} {r r' : Rec} (h : TakenFor line chars r)
    (h' : TakenFor line chars' r') : chars = chars' := by
  obtain ⟨hlegal, hlen, htaken, rest, hline⟩ := h
  obtain ⟨hlegal', hlen', htaken', rest', hline'⟩ := h'
  have hbytes := bytes_length r
  have hbytes' := bytes_length r'
  have htail : chars ++ rest = chars' ++ rest' := by
    rw [hline] at hline'
    exact List.tail_eq_of_cons_eq hline'
  -- both counts are the first byte that the line is taken for
  have hfirst : (chars ++ rest).take (2 * 1) = (chars' ++ rest').take (2 * 1) := by rw [htail]
  rw [List.take_append_of_le_length (by omega), List.take_append_of_le_length (by omega)] at hfirst
  have hcount := congrArg taken hfirst
  rw [taken_take, taken_take, htaken, htaken'] at hcount
  have hbyte : UInt8.ofNat r.data.length = UInt8.ofNat r'.data.length :=
    List.head_eq_of_cons_eq hcount
  have hdata := congrArg UInt8.toNat hbyte
  rw [toNat_count hlegal, toNat_count hlegal'] at hdata
  exact (List.append_inj htail (by omega)).1

/-- An accepted line is a record of the format exactly when no stray character was taken for
a digit: the length, the checksum and the fields are checked, the digits are not. -/
theorem processLine_accepts_iff (line : Bytes) :
    (∀ r, processLine line = .ok r → r.type.IsRecord → ∃ r, Spelled line r) ↔
      ∀ chars r, TakenFor line chars r → ∀ ch ∈ chars, (hexVal ch).isSome := by
  constructor
  · intro haccepts chars r htaken
    obtain ⟨hlegal, hlen, hchars, rest, hline⟩ := htaken
    have hread := processLine_taken hlegal rest hlen hchars
    rw [← hline] at hread
    have htype : IhexType.IsRecord r.type.toIhex := by cases r.type <;> decide
    obtain ⟨r', hlegal', digits, rest', hline', hspells⟩ := haccepts _ hread htype
    have heq : chars = digits := TakenFor.chars_eq ⟨hlegal, hlen, hchars, rest, hline⟩
      ⟨hlegal', hspells.length_eq, taken_of_spells hspells, rest', hline'⟩
    rw [heq]
    exact isSome_of_spells hspells
  · intro hdigits rec hrec htype
    rcases processLine_cases line with ⟨chars, r, htaken⟩ | ⟨rec', hrec', hrefused⟩
    · obtain ⟨hlegal, hlen, hchars, rest, hline⟩ := htaken
      have hspells := spells_taken hlen (hdigits chars r ⟨hlegal, hlen, hchars, rest, hline⟩)
      rw [hchars] at hspells
      exact ⟨r, hlegal, chars, rest, hline, hspells⟩
    · rw [hrec] at hrec'
      cases hrec'
      exact absurd htype hrefused

/-- The last digit of a record that ends the file, replaced by a letter that is none. -/
theorem processLine_stray :
    ¬ ∀ line r, processLine line = .ok r → r.type.IsRecord → ∃ r, Spelled line r := by
  intro h
  obtain ⟨r, hlegal, digits, rest, hline, hspells⟩ := h (Bytes.str ":00000001FZ")
    { type := .eof, addr := 0, data := [] } (by decide) (by decide)
  have hlen := hspells.length_eq
  have hbytes := bytes_length r
  have hchars : Bytes.str "00000001FZ" = digits ++ rest := List.tail_eq_of_cons_eq hline
  have htotal := congrArg List.length hchars
  rw [List.length_append, show (Bytes.str "00000001FZ").length = 10 from rfl] at htotal
  have hrest : rest = [] := List.length_eq_zero_iff.mp (by omega)
  rw [hrest, List.append_nil] at hchars
  have hsome := isSome_of_spells hspells 'Z'.toUInt8 (hchars ▸ by decide)
  exact absurd hsome (by decide)

end Mwr.HexFile
