import Mathlib.Data.List.Forall2
import Mathlib.Data.List.ReduceOption
import Mwr.HexFile.Ihex

/-!
# Loading an Intel HEX file

What an Intel HEX file means, and that the constructor loads it.  A `Rec` is a
record of the format, `Describes` relates the lines of a file to the records that
they spell, and `Loaded` says in plain numbers what the members of the object are
after a list of records.  The constructor keeps `Loaded` from line to line
(`ihexLoop_describes`).
-/

namespace Mwr.HexFile

open Mwr.CodeLib (Bytes ByteOrder)
open Mwr.CodeLib.Exec
open Mwr.Strings

/-! ## Records -/

/-- The types of records. -/
inductive RecType where
  | data
  | eof
  | exSeg
  | startSeg
  | exLinAddr
  | startLinAddr
  deriving DecidableEq, Repr

/-- The type as `process_line` names it. -/
def RecType.toIhex : RecType → IhexType
  | data => .data
  | eof => .eof
  | exSeg => .exSeg
  | startSeg => .startSeg
  | exLinAddr => .exLinAddr
  | startLinAddr => .startLinAddr

/-- The number of a type in a file. -/
def RecType.code : RecType → UInt8
  | data => 0
  | eof => 1
  | exSeg => 2
  | startSeg => 3
  | exLinAddr => 4
  | startLinAddr => 5

/-- A record: its type, the two bytes of its address field, and its data. -/
structure Rec where
  type : RecType
  hi : UInt8
  lo : UInt8
  data : Bytes
  deriving DecidableEq, Repr

namespace Rec

/-- The lengths and addresses that go with a type. -/
def Legal (r : Rec) : Prop :=
  match r.type with
  | .data => r.data.length < 256
  | .eof => r.data.length = 0 ∧ r.hi = 0 ∧ r.lo = 0
  | .exSeg | .exLinAddr => r.data.length = 2 ∧ r.hi = 0 ∧ r.lo = 0
  | .startSeg | .startLinAddr => r.data.length = 4 ∧ r.hi = 0 ∧ r.lo = 0

instance : (r : Rec) → Decidable r.Legal
  | ⟨.data, _, _, data⟩ => inferInstanceAs (Decidable (data.length < 256))
  | ⟨.eof, hi, lo, data⟩ => inferInstanceAs (Decidable (data.length = 0 ∧ hi = 0 ∧ lo = 0))
  | ⟨.exSeg, hi, lo, data⟩ | ⟨.exLinAddr, hi, lo, data⟩ =>
    inferInstanceAs (Decidable (data.length = 2 ∧ hi = 0 ∧ lo = 0))
  | ⟨.startSeg, hi, lo, data⟩ | ⟨.startLinAddr, hi, lo, data⟩ =>
    inferInstanceAs (Decidable (data.length = 4 ∧ hi = 0 ∧ lo = 0))

/-- The bytes in front of the checksum. -/
def body (r : Rec) : Bytes :=
  UInt8.ofNat r.data.length :: r.hi :: r.lo :: r.type.code :: r.data

/-- The bytes of the record; with the checksum their sum is zero. -/
def bytes (r : Rec) : Bytes := r.body ++ [-r.body.sum]

/-- The number in the data of the record. -/
def value (r : Rec) : Nat := ByteOrder.big.value r.data

end Rec

/-- What a line holds: a record with whitespace in front of it and any text behind
it, or nothing that `process_line` accepts. -/
def Describes (line : Bytes) : Option Rec → Prop
  | some r => r.Legal ∧ ∃ pre digits post, line = pre ++ ':'.toUInt8 :: digits ++ post ∧
      (∀ ch ∈ pre, isspace ch) ∧ Spells digits r.bytes
  | none => ∃ r, processLine (trim line) = .ok r ∧
      r.type ∈ [.invalidLineFormat, .invalidLineLen, .invalidType, .invalidDescriptor,
        .invalidChecksum]

/-! ## What a file means -/

/-- The value of the last record of one of some types, or zero. -/
def lastValue (types : List RecType) (recs : List Rec) : Nat :=
  ((recs.filter (·.type ∈ types)).getLast?.map Rec.value).getD 0

/-- The address of the data record `r` behind the records `recs`. -/
def address (recs : List Rec) (r : Rec) : Nat :=
  ByteOrder.big.value [r.hi, r.lo] + lastValue [.exSeg] recs * 16 +
    lastValue [.exLinAddr] recs * 65536

/-- The data records of a list, each with its address. -/
def dataRecords (recs : List Rec) : List (Nat × Bytes) :=
  (recs.zipIdx.filter (·.1.type = .data)).map fun r => (address (recs.take r.2) r.1, r.1.data)

/-- The members of the object after a list of records.  The offsets come from values
of 16 bits, so that no address overflows. -/
structure Loaded (recs : List Rec) (file : Ihex) : Prop where
  seg_lt : lastValue [.exSeg] recs < 2 ^ 16
  linear_lt : lastValue [.exLinAddr] recs < 2 ^ 16
  segOffset : file.segOffset.toNat = lastValue [.exSeg] recs * 16
  linearOffset : file.linearOffset.toNat = lastValue [.exLinAddr] recs * 65536
  startAddr : file.startAddr.toNat = lastValue [.startSeg, .startLinAddr] recs
  records : file.records.map (fun record => (record.addr.toNat, record.data)) = dataRecords recs

theorem lastValue_concat (types : List RecType) (recs : List Rec) (r : Rec) :
    lastValue types (recs ++ [r]) =
      if r.type ∈ types then r.value else lastValue types recs := by
  rw [lastValue, getLast?_filter_concat, lastValue]
  by_cases h : r.type ∈ types
  · rw [if_pos h, if_pos (decide_eq_true h)]
    rfl
  · rw [if_neg h, if_neg (by rw [decide_eq_false h]; exact Bool.false_ne_true)]

theorem dataRecords_concat (recs : List Rec) (r : Rec) :
    dataRecords (recs ++ [r]) =
      dataRecords recs ++ if r.type = .data then [(address recs r, r.data)] else [] := by
  rw [dataRecords, List.zipIdx_append, List.filter_append, List.map_append, dataRecords]
  congr 1
  · refine List.map_congr_left fun q hq => ?_
    have hlt : q.2 < recs.length := by
      have hmem := List.mem_zipIdx (List.mem_of_mem_filter hq)
      omega
    rw [List.take_append_of_le_length (Nat.le_of_lt hlt)]
  · rw [Nat.zero_add, List.zipIdx_singleton]
    by_cases h : r.type = .data
    · rw [if_pos h, List.filter_cons_of_pos (by simpa using h)]
      simp
    · rw [if_neg h, List.filter_cons_of_neg (by simpa using h)]
      rfl

theorem dataRecords_eq_nil_iff (recs : List Rec) :
    dataRecords recs = [] ↔ ∀ r ∈ recs, r.type ≠ .data := by
  induction recs using List.reverseRecOn with
  | nil => simp [dataRecords]
  | append_singleton recs r ih =>
    rw [dataRecords_concat, List.append_eq_nil_iff, ih, List.forall_mem_append,
      List.forall_mem_singleton]
    by_cases h : r.type = .data <;> simp [h]

/-! ## A line of the file -/

/-- Trimming leaves the record and what is behind it. -/
theorem trim_record {pre digits post bytes : Bytes} {first : UInt8}
    (hpre : ∀ ch ∈ pre, isspace ch) (hfirst : nospace first = true) (h : Spells digits bytes)
    (hne : bytes ≠ []) :
    trim (pre ++ first :: digits ++ post) = first :: digits ++ rtrim post := by
  rcases getLast_of_spells h hne with ⟨last, hlast, hnospace⟩
  refine trim_append post (fun ch hch => nospace_of_isspace (hpre ch hch)) rfl ?_ hfirst hnospace
  have hdigits : digits ≠ [] := by
    rintro rfl
    cases hlast
  rw [List.getLast?_cons, hlast]
  rfl

theorem bytes_length (r : Rec) : r.bytes.length = 5 + r.data.length := by
  simp [Rec.bytes, Rec.body]
  omega

theorem sum_bytes (r : Rec) : r.bytes.sum = 0 := by
  rw [Rec.bytes, List.sum_append, List.sum_singleton]
  exact UInt8.add_right_neg r.body.sum

theorem length_lt {r : Rec} (h : r.Legal) : r.data.length < 256 := by
  rw [Rec.Legal] at h
  split at h <;> omega

theorem toNat_count {r : Rec} (h : r.Legal) :
    (UInt8.ofNat r.data.length).toNat = r.data.length := by
  rw [UInt8.toNat_ofNat', Nat.mod_eq_of_lt (length_lt h)]

/-- A legal record has the type that it names. -/
theorem ihexType_eq {r : Rec} (h : r.Legal) :
    ihexType r.type.code (UInt8.ofNat r.data.length) (accumulate 16 [r.hi, r.lo]) =
      r.type.toIhex := by
  rw [Rec.Legal] at h
  cases htype : r.type <;> rw [htype] at h
  · rfl
  all_goals
    rcases h with ⟨hlen, hhi, hlo⟩
    rw [hlen, hhi, hlo]
    rfl

/-- A line whose characters are taken for a record is read as that record. -/
theorem processLine_taken {r : Rec} (h : r.Legal) {chars : Bytes} (rest : Bytes)
    (hlen : chars.length = 2 * r.bytes.length) (hchars : taken chars = r.bytes) :
    processLine (':'.toUInt8 :: chars ++ rest) =
      .ok { type := r.type.toIhex, addr := (accumulate 16 [r.hi, r.lo]).setWidth 64,
            data := r.data } := by
  have hat : Bytes.At (':'.toUInt8 :: chars ++ rest) 1 chars :=
    Bytes.at_of_eq [':'.toUInt8] chars rest
  have hbytes := bytes_length r
  have hbyte : ∀ (i : Nat) (hi : i < r.bytes.length),
      hexByte (':'.toUInt8 :: chars ++ rest) (1 + 2 * i) = .ok r.bytes[i] := by
    rw [← hchars]
    exact fun i hi => hexByte_taken hat hi
  have hcount := toNat_count h
  have hall : readBytes (':'.toUInt8 :: chars ++ rest) 1 (11 + r.data.length * 2) =
      .ok r.bytes := by
    rw [show 11 + r.data.length * 2 = 1 + 2 * r.bytes.length by omega]
    exact readBytes_eq hbyte
  have hdata : readBytes (':'.toUInt8 :: chars ++ rest) 9 (9 + r.data.length * 2) =
      .ok r.data := by
    rw [Nat.mul_comm]
    refine readBytes_eq fun i hi => ?_
    rw [show 9 + 2 * i = 1 + 2 * (i + 4) by omega, hbyte (i + 4) (by omega)]
    exact congrArg Except.ok (List.getElem_append_left hi)
  have h0 : hexByte (':'.toUInt8 :: chars ++ rest) 1 = .ok (UInt8.ofNat r.data.length) :=
    hbyte 0 (by omega)
  have h1 : hexByte (':'.toUInt8 :: chars ++ rest) 3 = .ok r.hi := hbyte 1 (by omega)
  have h2 : hexByte (':'.toUInt8 :: chars ++ rest) 5 = .ok r.lo := hbyte 2 (by omega)
  have h3 : hexByte (':'.toUInt8 :: chars ++ rest) 7 = .ok r.type.code := hbyte 3 (by omega)
  have hlong : (':'.toUInt8 :: chars ++ rest).length = 1 + chars.length + rest.length := by
    rw [List.length_append, List.length_cons]
    omega
  rw [processLine, if_neg (by
    rw [not_or, not_not]
    exact ⟨by omega, rfl⟩)]
  simp only [h0, h1, h2, h3, ok_bind, hcount, hall, hdata, sum_bytes, ihexType_eq h]
  rw [if_neg (by omega), if_neg (not_not.mpr rfl)]
  rw [Rec.Legal] at h
  cases htype : r.type <;> rw [htype] at h
  case eof =>
    rcases h with ⟨hnil, hhi, hlo⟩
    rw [List.length_eq_zero_iff.mp hnil, hhi, hlo]
    rfl
  all_goals rfl

/-- A line that spells a record is read as that record. -/
theorem processLine_record {r : Rec} (h : r.Legal) {digits rest : Bytes}
    (hs : Spells digits r.bytes) :
    processLine (':'.toUInt8 :: digits ++ rest) =
      .ok { type := r.type.toIhex, addr := (accumulate 16 [r.hi, r.lo]).setWidth 64,
            data := r.data } :=
  processLine_taken h rest hs.length_eq (taken_of_spells hs)

/-! ## The loop -/

theorem toNat_address (hi lo : UInt8) :
    ((accumulate 16 [hi, lo]).setWidth 64).toNat = ByteOrder.big.value [hi, lo] ∧
      ByteOrder.big.value [hi, lo] < 2 ^ 16 := by
  have hlt : ByteOrder.big.value [hi, lo] < 2 ^ 16 := ByteOrder.value_lt .big [hi, lo]
  refine ⟨?_, hlt⟩
  rw [BitVec.toNat_setWidth, toNat_accumulate (by simp)]
  exact Nat.mod_eq_of_lt (Nat.lt_trans hlt (by decide))

/-- `vec_to` of data that has exactly the bytes of the type. -/
theorem vecTo_eq {n : Nat} {r : Rec} (hlen : r.data.length = n) (hn : n ≤ 4) :
    ∃ value, vecTo n r.data = .ok value ∧ value.toNat = r.value ∧ r.value < 2 ^ (8 * n) := by
  have hlt := ByteOrder.value_lt .big r.data
  rw [hlen] at hlt
  have hpow : 2 ^ (8 * n) ≤ 2 ^ 64 := Nat.pow_le_pow_right (by decide) (by omega)
  refine ⟨_, if_neg (by omega), ?_, hlt⟩
  rw [BitVec.toNat_setWidth, List.take_of_length_le (by omega), toNat_accumulate (by omega)]
  exact Nat.mod_eq_of_lt (Nat.lt_of_lt_of_le hlt hpow)

theorem toNat_shiftLeft {value : BitVec 64} {k n : Nat} (hlt : value.toNat < 2 ^ 16)
    (hk : n = 2 ^ k) (hle : k ≤ 16) : (value <<< k).toNat = value.toNat * n := by
  have hpow : 2 ^ k ≤ 2 ^ 16 := Nat.pow_le_pow_right (by decide) hle
  have hmul : value.toNat * 2 ^ k ≤ 2 ^ 16 * 2 ^ 16 := Nat.mul_le_mul (Nat.le_of_lt hlt) hpow
  rw [BitVec.toNat_shiftLeft, Nat.shiftLeft_eq, hk, Nat.mod_eq_of_lt]
  exact Nat.lt_of_le_of_lt hmul (by decide)

/-- The record of a data line gets the address of the format. -/
theorem toNat_recordAddr {recs : List Rec} {self : Ihex} (hself : Loaded recs self) (r : Rec) :
    ((accumulate 16 [r.hi, r.lo]).setWidth 64 + self.segOffset + self.linearOffset).toNat =
      address recs r := by
  rcases toNat_address r.hi r.lo with ⟨haddr, hlt⟩
  have hseg := hself.seg_lt
  have hlinear := hself.linear_lt
  rw [BitVec.toNat_add, BitVec.toNat_add, haddr, hself.segOffset, hself.linearOffset,
    Nat.mod_eq_of_lt (by omega), Nat.mod_eq_of_lt (by omega), address]

/-- What `process_line` makes of a line that holds a record. -/
theorem processLine_describes {r : Rec} {line : Bytes} (hline : Describes line (some r)) :
    processLine (trim line) =
      .ok { type := r.type.toIhex, addr := (accumulate 16 [r.hi, r.lo]).setWidth 64,
            data := r.data } := by
  rcases hline with ⟨hlegal, pre, digits, post, rfl, hpre, hs⟩
  have hne : r.bytes ≠ [] := by simp [Rec.bytes]
  rw [trim_record hpre (by decide) hs hne]
  exact processLine_record hlegal hs

/-- A record that is not a data record changes the members that its type names. -/
theorem Loaded.concat {recs : List Rec} {self self' : Ihex} {r : Rec} (hself : Loaded recs self)
    (htype : r.type ≠ .data) (hlt : r.type = .exSeg ∨ r.type = .exLinAddr → r.value < 2 ^ 16)
    (hseg : self'.segOffset.toNat =
      if r.type ∈ [.exSeg] then r.value * 16 else self.segOffset.toNat)
    (hlinear : self'.linearOffset.toNat =
      if r.type ∈ [.exLinAddr] then r.value * 65536 else self.linearOffset.toNat)
    (hstart : self'.startAddr.toNat =
      if r.type ∈ [.startSeg, .startLinAddr] then r.value else self.startAddr.toNat)
    (hrecords : self'.records = self.records) : Loaded (recs ++ [r]) self' where
  seg_lt := by
    rw [lastValue_concat]
    split
    · rename_i hmem
      exact hlt (.inl (List.mem_singleton.mp hmem))
    · exact hself.seg_lt
  linear_lt := by
    rw [lastValue_concat]
    split
    · rename_i hmem
      exact hlt (.inr (List.mem_singleton.mp hmem))
    · exact hself.linear_lt
  segOffset := by
    rw [hseg, lastValue_concat, hself.segOffset]
    split <;> rfl
  linearOffset := by
    rw [hlinear, lastValue_concat, hself.linearOffset]
    split <;> rfl
  startAddr := by
    rw [hstart, lastValue_concat, hself.startAddr]
  records := by
    rw [hrecords, dataRecords_concat, if_neg htype, List.append_nil, hself.records]

/-- A data record changes the records only. -/
theorem Loaded.concat_data {recs : List Rec} {self : Ihex} {r : Rec} (hself : Loaded recs self)
    (htype : r.type = .data) {record : Record} (haddr : record.addr.toNat = address recs r)
    (hdata : record.data = r.data) :
    Loaded (recs ++ [r]) { self with records := self.records ++ [record] } where
  seg_lt := by
    rw [lastValue_concat, if_neg (by simp [htype])]
    exact hself.seg_lt
  linear_lt := by
    rw [lastValue_concat, if_neg (by simp [htype])]
    exact hself.linear_lt
  segOffset := by
    rw [lastValue_concat, if_neg (by simp [htype])]
    exact hself.segOffset
  linearOffset := by
    rw [lastValue_concat, if_neg (by simp [htype])]
    exact hself.linearOffset
  startAddr := by
    rw [lastValue_concat, if_neg (by simp [htype])]
    exact hself.startAddr
  records := by
    rw [dataRecords_concat, if_pos htype, List.map_append, hself.records, List.map_singleton,
      haddr, hdata]

/-- One record of the file, other than the end record. -/
theorem ihexLoop_record (filename : Bytes) {recs : List Rec} {self : Ihex} {r : Rec}
    {line : Bytes} (lines : List Bytes) (hself : Loaded recs self) (hline : Describes line (some r))
    (heof : r.type ≠ .eof) :
    ∃ self', ihexLoop filename self (line :: lines) = ihexLoop filename self' lines ∧
      Loaded (recs ++ [r]) self' := by
  rw [ihexLoop, processLine_describes hline, ok_bind]
  have hlegal : r.Legal := hline.1
  rw [Rec.Legal] at hlegal
  cases htype : r.type <;> rw [htype] at hlegal
  case eof => exact absurd htype heof
  case data => exact ⟨_, rfl, hself.concat_data htype (toNat_recordAddr hself r) rfl⟩
  case exSeg =>
    rcases vecTo_eq hlegal.1 (by decide) with ⟨value, hvalue, hnat, hlt⟩
    have hshift := toNat_shiftLeft (k := 4) (n := 16) (hnat ▸ hlt) rfl (by decide)
    rw [hnat] at hshift
    refine ⟨{ self with segOffset := value <<< 4 },
      by simp only [RecType.toIhex, hvalue, ok_bind], ?_⟩
    exact hself.concat (by simp [htype]) (fun _ => hlt) (by simpa [htype] using hshift)
      (by simp [htype]) (by simp [htype]) rfl
  case exLinAddr =>
    rcases vecTo_eq hlegal.1 (by decide) with ⟨value, hvalue, hnat, hlt⟩
    have hshift := toNat_shiftLeft (k := 16) (n := 65536) (hnat ▸ hlt) rfl (by decide)
    rw [hnat] at hshift
    refine ⟨{ self with linearOffset := value <<< 16 },
      by simp only [RecType.toIhex, hvalue, ok_bind], ?_⟩
    exact hself.concat (by simp [htype]) (fun _ => hlt) (by simp [htype])
      (by simpa [htype] using hshift) (by simp [htype]) rfl
  all_goals
    rcases vecTo_eq hlegal.1 (by decide) with ⟨value, hvalue, hnat, _⟩
    refine ⟨{ self with startAddr := value }, by simp only [RecType.toIhex, hvalue, ok_bind], ?_⟩
    exact hself.concat (by simp [htype]) (by simp [htype]) (by simp [htype]) (by simp [htype])
      (by simpa [htype] using hnat) rfl

/-- The end record ends the loop. -/
theorem ihexLoop_eof (filename : Bytes) (self : Ihex) {r : Rec} {line : Bytes}
    (lines : List Bytes) (hline : Describes line (some r)) (heof : r.type = .eof) :
    ihexLoop filename self (line :: lines) = .ok self := by
  rw [ihexLoop, processLine_describes hline, ok_bind, heof]
  rfl

/-- A line that `process_line` does not accept contributes nothing. -/
theorem ihexLoop_invalid (filename : Bytes) (self : Ihex) {line : Bytes} (lines : List Bytes)
    (hline : Describes line none) :
    ihexLoop filename self (line :: lines) = ihexLoop filename self lines := by
  rcases hline with ⟨⟨type, addr, data⟩, hrec, hmem⟩
  rw [ihexLoop, hrec, ok_bind]
  simp only [List.mem_cons, List.not_mem_nil, or_false] at hmem
  rcases hmem with rfl | rfl | rfl | rfl | rfl <;> rfl

/-! ## The file -/

/-- The records that count: those in front of the first end record. -/
def beforeEof (recs : List Rec) : List Rec := recs.takeWhile (·.type ≠ .eof)

/-- The loop over lines that hold the records `items`, behind the records `recs`. -/
theorem ihexLoop_describes (filename : Bytes) {lines : List Bytes} {items : List (Option Rec)}
    (h : List.Forall₂ Describes lines items) {recs : List Rec} {self : Ihex}
    (hself : Loaded recs self) :
    ((∃ r ∈ items.reduceOption, r.type = .eof) ∨
        dataRecords (recs ++ items.reduceOption) ≠ [] →
      ∃ file, ihexLoop filename self lines = .ok file ∧
        Loaded (recs ++ beforeEof items.reduceOption) file) ∧
    (¬ ((∃ r ∈ items.reduceOption, r.type = .eof) ∨
        dataRecords (recs ++ items.reduceOption) ≠ []) →
      ihexLoop filename self lines = .error (.report ("File '" ++ Bytes.text filename ++
        "' does not seem to be in Intel hex format"))) := by
  induction h generalizing recs self with
  | nil =>
    have hrecords := hself.records
    simp only [List.reduceOption_nil, List.append_nil, List.not_mem_nil, false_and, exists_false,
      false_or, beforeEof, List.takeWhile_nil, ihexLoop]
    constructor
    · intro hne
      refine ⟨self, if_neg ?_, hself⟩
      intro hlen
      rw [List.length_eq_zero_iff.mp hlen] at hrecords
      exact hne hrecords.symm
    · intro hnil
      rw [not_not.mp hnil] at hrecords
      exact if_pos (List.length_eq_zero_iff.mpr (List.map_eq_nil_iff.mp hrecords))
  | @cons line item lines items hline tail ih =>
    rcases item with _ | r
    · rw [List.reduceOption_cons_of_none, ihexLoop_invalid filename self lines hline]
      exact ih hself
    · rw [List.reduceOption_cons_of_some]
      by_cases heof : r.type = .eof
      · refine ⟨fun _ => ⟨self, ihexLoop_eof filename self lines hline heof, ?_⟩, ?_⟩
        · rw [beforeEof, List.takeWhile_cons_of_neg (by simpa using heof), List.append_nil]
          exact hself
        · intro hnone
          exact absurd (.inl ⟨r, List.mem_cons_self, heof⟩) hnone
      · rcases ihexLoop_record filename lines hself hline heof with ⟨self', hstep, hself'⟩
        have ih := ih hself'
        rw [beforeEof, List.takeWhile_cons_of_pos (by simpa using heof), hstep,
          List.append_cons, List.append_cons recs r (List.takeWhile _ _)]
        simpa [heof, beforeEof] using ih

/-- Loading a file whose lines hold the records `items`: the object has what the
records in front of the end record mean, and the constructor fails only if there is
neither an end record nor a data record. -/
theorem ihex_load (filename content : Bytes) {items : List (Option Rec)}
    (h : List.Forall₂ Describes (getlines content) items) :
    ((∃ r ∈ items.reduceOption, r.type = .eof ∨ r.type = .data) →
      ∃ file, ihex filename (some content) = .ok file ∧
        Loaded (beforeEof items.reduceOption) file) ∧
    ((∀ r ∈ items.reduceOption, r.type ≠ .eof ∧ r.type ≠ .data) →
      ihex filename (some content) = .error (.report ("File '" ++ Bytes.text filename ++
        "' does not seem to be in Intel hex format"))) := by
  have hstart : Loaded [] { segOffset := 0, linearOffset := 0, startAddr := 0, records := [] } := by
    constructor <;> first | rfl | decide
  have hdata := dataRecords_eq_nil_iff items.reduceOption
  rcases ihexLoop_describes filename h hstart with ⟨hok, herror⟩
  rw [List.nil_append] at hok herror
  constructor
  · rintro ⟨r, hmem, heof | htype⟩
    · exact hok (.inl ⟨r, hmem, heof⟩)
    · refine hok (.inr fun hnil => ?_)
      exact hdata.mp hnil r hmem htype
  · intro hnone
    apply herror
    rintro (⟨r, hmem, heof⟩ | hne)
    · exact (hnone r hmem).1 heof
    · exact hne (hdata.mpr fun r hmem => (hnone r hmem).2)

/-- A segment, a line that is no record, a data record in lower case with text behind
it, the end record, and one more data record. -/
theorem ihex_load_segment :
    ∃ file, ihex (Bytes.str "a.hex") (some (Bytes.str
        ":020000021000EC\r\n; note\n  :02001000aabb89 tail\n:00000001FF\n:0100000055AA\n")) =
      .ok file ∧ Loaded [⟨.exSeg, 0, 0, [0x10, 0]⟩, ⟨.data, 0, 0x10, [0xaa, 0xbb]⟩] file := by
  have h : List.Forall₂ Describes (getlines (Bytes.str
      ":020000021000EC\r\n; note\n  :02001000aabb89 tail\n:00000001FF\n:0100000055AA\n"))
      [some ⟨.exSeg, 0, 0, [0x10, 0]⟩, none, some ⟨.data, 0, 0x10, [0xaa, 0xbb]⟩,
        some ⟨.eof, 0, 0, []⟩, some ⟨.data, 0, 0, [0x55]⟩] := by
    refine .cons ?_ (.cons ?_ (.cons ?_ (.cons ?_ (.cons ?_ .nil))))
    · refine ⟨?_, [], Bytes.str "020000021000EC", Bytes.str "\r", ?_, ?_, ?_⟩ <;> decide +kernel
    · refine ⟨⟨.invalidLineFormat, 0, [0]⟩, ?_, ?_⟩ <;> decide +kernel
    · refine ⟨?_, Bytes.str "  ", Bytes.str "02001000aabb89", Bytes.str " tail", ?_, ?_, ?_⟩ <;>
        decide +kernel
    · refine ⟨?_, [], Bytes.str "00000001FF", [], ?_, ?_, ?_⟩ <;> decide +kernel
    · refine ⟨?_, [], Bytes.str "0100000055AA", [], ?_, ?_, ?_⟩ <;> decide +kernel
  exact (ihex_load _ _ h).1 ⟨⟨.eof, 0, 0, []⟩, by decide, by decide⟩

end Mwr.HexFile
