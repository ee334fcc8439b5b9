import Mathlib.Data.List.Forall2
import Mathlib.Data.List.ReduceOption
import Mwr.HexFile.Srec

/-!
# Loading an S-record file

What a file of S-records means, and that the constructor loads it.  The records
are those of the format, from S0 to S9, where S4 is the form with an address of 64
bits.  The reader ignores S5 and S6, which count records.
-/

namespace Mwr.HexFile.SrecLoad

open Mwr.CodeLib (Bytes ByteOrder)
open Mwr.CodeLib.Exec
open Mwr.Strings

/-! ## Records -/

/-- The types of records. -/
inductive RecType where
  | s0
  | s1
  | s2
  | s3
  | s4
  | s5
  | s6
  | s7
  | s8
  | s9
  deriving DecidableEq, Repr

namespace RecType

/-- The character behind the `S`. -/
def char : RecType → UInt8
  | s0 => '0'.toUInt8
  | s1 => '1'.toUInt8
  | s2 => '2'.toUInt8
  | s3 => '3'.toUInt8
  | s4 => '4'.toUInt8
  | s5 => '5'.toUInt8
  | s6 => '6'.toUInt8
  | s7 => '7'.toUInt8
  | s8 => '8'.toUInt8
  | s9 => '9'.toUInt8

/-- The number of bytes of the address. -/
def width : RecType → Nat
  | s0 | s1 | s5 | s9 => 2
  | s2 | s6 | s8 => 3
  | s3 | s7 => 4
  | s4 => 8

/-- Records with data to load. -/
def IsData (type : RecType) : Prop := type ∈ [s1, s2, s3, s4]

/-- Records with an entry point. -/
def IsEntry (type : RecType) : Prop := type ∈ [s7, s8, s9]

instance (type : RecType) : Decidable type.IsData := inferInstanceAs (Decidable (type ∈ _))

instance (type : RecType) : Decidable type.IsEntry := inferInstanceAs (Decidable (type ∈ _))

end RecType

/-- A record: its type, the bytes of its address, and its data.  The byte count has
to fit into a byte. -/
structure Rec where
  type : RecType
  addr : Bytes
  data : Bytes
  addr_length : addr.length = type.width
  count_lt : addr.length + data.length + 1 < 256
  deriving DecidableEq, Repr

namespace Rec

/-- The bytes in front of the checksum. -/
def body (r : Rec) : Bytes :=
  UInt8.ofNat (r.addr.length + r.data.length + 1) :: r.addr ++ r.data

/-- The bytes of the record; the checksum is the complement of their sum. -/
def bytes (r : Rec) : Bytes := r.body ++ [~~~ r.body.sum]

/-- The address of the record. -/
def address (r : Rec) : Nat := ByteOrder.big.value r.addr

end Rec

/-- What a line holds: a record with whitespace around it, or a line that does not
start with an `S` or has a type that the reader does not know. -/
def Describes (line : Bytes) : Option Rec → Prop
  | some r => ∃ pre digits post, line = pre ++ 'S'.toUInt8 :: r.type.char :: digits ++ post ∧
      (∀ ch ∈ pre, isspace ch) ∧ (∀ ch ∈ post, isspace ch) ∧ Spells digits r.bytes
  | none => (trim line).head? ≠ some 'S'.toUInt8 ∨
      ∀ ch, (trim line)[1]? = some ch → ch ∉ Bytes.str "01234789"

/-! ## What a file means -/

/-- The members of the object after a list of records. -/
structure Loaded (recs : List Rec) (file : Srec) : Prop where
  records : file.records.map (fun record => (record.addr.toNat, record.data)) =
    (recs.filter (·.type.IsData)).map fun r => (r.address, r.data)
  entry : file.entry.toNat =
    ((recs.filter (·.type.IsEntry)).getLast?.map Rec.address).getD 0
  header : file.header =
    ((recs.filter (·.type = .s0)).getLast?.map fun r => trim r.data).getD []

/-! ## A line of the file -/

theorem bytes_length (r : Rec) : r.bytes.length = 2 + r.addr.length + r.data.length := by
  simp [Rec.bytes, Rec.body]
  omega

/-- The type that the reader takes a record for, and where it looks for the data. -/
theorem srecType_char (type : RecType) :
    (type = .s5 ∨ type = .s6) ∧ srecType type.char = none ∨
      ∃ t, srecType type.char = some t ∧ t.delim = 4 + 2 * type.width := by
  cases type
  case s5 => exact .inl ⟨.inl rfl, rfl⟩
  case s6 => exact .inl ⟨.inr rfl, rfl⟩
  all_goals exact .inr ⟨_, rfl, rfl⟩

/-- What the second `switch` makes of a record. -/
def after (self : Srec) (r : Rec) : Srec :=
  match srecType r.type.char with
  | none => self
  | some type => self.add type { addr := accumulate 64 r.addr, data := r.data }

theorem after_records (self : Srec) (r : Rec) :
    (after self r).records =
      if r.type.IsData then self.records ++ [{ addr := accumulate 64 r.addr, data := r.data }]
      else self.records := by
  rw [after]
  cases r.type <;> rfl

theorem after_entry (self : Srec) (r : Rec) :
    (after self r).entry = if r.type.IsEntry then accumulate 64 r.addr else self.entry := by
  rw [after]
  cases r.type <;> rfl

theorem after_header (self : Srec) (r : Rec) :
    (after self r).header = if r.type = .s0 then trim r.data else self.header := by
  rw [after]
  cases r.type <;> rfl

/-- A line without whitespace that spells a record. -/
theorem srecLine_record (self : Srec) {r : Rec} {digits : Bytes} (hs : Spells digits r.bytes) :
    srecLine self ('S'.toUInt8 :: r.type.char :: digits) = .ok (after self r) := by
  -- the digits of the count, of the address, of the data and of the checksum
  have hs : Spells digits ([_] ++ (r.addr ++ r.data ++ [_])) := hs
  rcases spells_append hs with ⟨count, rest, rfl, hcount, hrest⟩
  rcases spells_append hrest with ⟨rest, sum, rfl, hrest, hsum⟩
  rcases spells_append hrest with ⟨addr, data, rfl, haddr, hdata⟩
  have hcountLen := hcount.length_eq
  have haddrLen := haddr.length_eq
  have hdataLen := hdata.length_eq
  have hsumLen := hsum.length_eq
  rw [r.addr_length] at haddrLen
  rw [List.length_singleton] at hcountLen hsumLen
  have hline : ('S'.toUInt8 :: r.type.char :: (count ++ (addr ++ data ++ sum))).length =
      2 + count.length + addr.length + data.length + sum.length := by
    simp only [List.length_cons, List.length_append]
    omega
  have hatAddr : Bytes.At ('S'.toUInt8 :: r.type.char :: (count ++ (addr ++ data ++ sum))) 4
      addr := by
    have h := Bytes.at_of_eq ('S'.toUInt8 :: r.type.char :: count) addr (data ++ sum)
    rw [List.length_cons, List.length_cons, hcountLen] at h
    simpa using h
  have hatData : Bytes.At ('S'.toUInt8 :: r.type.char :: (count ++ (addr ++ data ++ sum)))
      (4 + 2 * r.type.width) data := by
    have h := Bytes.at_of_eq ('S'.toUInt8 :: r.type.char :: (count ++ addr)) data sum
    rw [List.length_cons, List.length_cons, List.length_append, hcountLen, haddrLen] at h
    rw [show 4 + 2 * r.type.width = 2 * 1 + 2 * r.type.width + 1 + 1 by omega]
    simpa using h
  rw [srecLine, if_neg (by
    rw [not_or, not_not]
    exact ⟨by omega, rfl⟩)]
  rw [after]
  show (match srecType r.type.char with | none => _ | some type => _) = _
  rcases srecType_char r.type with ⟨_, hnone⟩ | ⟨type, hsome, hdelim⟩
  · rw [hnone]
  · have hreadAddr := readBytes_of_spells hatAddr haddr
    have hreadData := readBytes_of_spells hatData hdata
    rw [r.addr_length] at hreadAddr
    rw [hsome]
    show (if _ then _ else _) = _
    rw [if_neg (by omega), hdelim, hreadAddr, ok_bind, hline,
      show 2 + count.length + addr.length + data.length + sum.length - 2 =
        4 + 2 * r.type.width + 2 * r.data.length by omega, hreadData, ok_bind]

/-- Trimming leaves the record. -/
theorem trim_record {pre digits post bytes : Bytes} {ch : UInt8} (hpre : ∀ ch ∈ pre, isspace ch)
    (hpost : ∀ ch ∈ post, isspace ch) (h : Spells digits bytes) (hne : bytes ≠ []) :
    trim (pre ++ 'S'.toUInt8 :: ch :: digits ++ post) = 'S'.toUInt8 :: ch :: digits := by
  rcases getLast_of_spells h hne with ⟨last, hlast, hnospace⟩
  have hdigits : ('S'.toUInt8 :: ch :: digits).getLast? = some last := by
    rw [List.getLast?_cons, List.getLast?_cons, hlast]
    rfl
  have htrim := trim_append post (fun ch hch => nospace_of_isspace (hpre ch hch)) rfl hdigits
    (by decide) hnospace
  rw [htrim, rtrim_isspace hpost, List.append_nil]

/-! ## The loop -/

theorem srecType_eq_none {ch : UInt8} (h : ch ∉ Bytes.str "01234789") : srecType ch = none := by
  rw [show Bytes.str "01234789" = ['0'.toUInt8, '1'.toUInt8, '2'.toUInt8, '3'.toUInt8,
    '4'.toUInt8, '7'.toUInt8, '8'.toUInt8, '9'.toUInt8] by decide] at h
  simp only [List.mem_cons, not_or] at h
  simp only [srecType, h, if_false]

/-- A line without a record leaves the object as it is. -/
theorem srecLine_ignored (self : Srec) {line : Bytes} (hline : Describes line none) :
    srecLine self (trim line) = .ok self := by
  rw [srecLine]
  split
  · rfl
  · rename_i h
    rw [not_or, not_not] at h
    rcases hline with hhead | htype
    · exact absurd h.2 hhead
    · have hlt : 1 < (trim line).length := by omega
      have hch := htype (trim line)[1] (List.getElem?_eq_getElem hlt)
      have hnone : srecType ((trim line).getD 1 0) = none := by
        rw [List.getD_eq_getElem?_getD, List.getElem?_eq_getElem hlt]
        exact srecType_eq_none hch
      rw [hnone]

/-- A line with a record, behind the records `recs`. -/
theorem srecLine_describes {recs : List Rec} {self : Srec} {r : Rec} {line : Bytes}
    (hself : Loaded recs self) (hline : Describes line (some r)) :
    ∃ self', srecLine self (trim line) = .ok self' ∧ Loaded (recs ++ [r]) self' := by
  rcases hline with ⟨pre, digits, post, rfl, hpre, hpost, hs⟩
  have hne : r.bytes ≠ [] := by simp [Rec.bytes]
  refine ⟨after self r, by rw [trim_record hpre hpost hs hne, srecLine_record self hs], ?_⟩
  have haddr : (accumulate 64 r.addr).toNat = r.address := by
    apply toNat_accumulate
    rw [r.addr_length]
    cases r.type <;> decide
  constructor
  · rw [after_records, List.filter_append]
    by_cases h : r.type.IsData
    · rw [if_pos h, List.map_append, hself.records, List.filter_cons_of_pos (by simpa using h)]
      simp [haddr]
    · rw [if_neg h, hself.records, List.filter_cons_of_neg (by simpa using h)]
      simp
  · rw [after_entry, getLast?_filter_concat]
    by_cases h : r.type.IsEntry
    · rw [if_pos h, if_pos (decide_eq_true h), haddr]
      rfl
    · rw [if_neg h, if_neg (by simpa using h), hself.entry]
  · rw [after_header, getLast?_filter_concat]
    by_cases h : r.type = .s0
    · rw [if_pos h, if_pos (decide_eq_true h)]
      rfl
    · rw [if_neg h, if_neg (by simpa using h), hself.header]

/-! ## The file -/

/-- The loop over lines that hold the records `items`, behind the records `recs`. -/
theorem srecLoop_describes {lines : List Bytes} {items : List (Option Rec)}
    (h : List.Forall₂ Describes lines items) {recs : List Rec} {self : Srec}
    (hself : Loaded recs self) :
    ∃ file, srecLoop self lines = .ok file ∧ Loaded (recs ++ items.reduceOption) file := by
  induction h generalizing recs self with
  | nil =>
    rw [List.reduceOption_nil, List.append_nil]
    exact ⟨self, rfl, hself⟩
  | @cons line item lines items hline tail ih =>
    rcases item with _ | r
    · rw [List.reduceOption_cons_of_none, srecLoop, srecLine_ignored self hline, ok_bind]
      exact ih hself
    · rcases srecLine_describes hself hline with ⟨self', hstep, hself'⟩
      rw [List.reduceOption_cons_of_some, List.append_cons, srecLoop, hstep, ok_bind]
      exact ih hself'

/-- Loading a file whose lines hold the records `items`: the object has what the
records mean. -/
theorem srec_load (filename content : Bytes) {items : List (Option Rec)}
    (h : List.Forall₂ Describes (getlines content) items) :
    ∃ file, srec filename (some content) = .ok file ∧ Loaded items.reduceOption file := by
  have hstart : Loaded [] { entry := 0, header := [], records := [] } := ⟨rfl, rfl, rfl⟩
  exact srecLoop_describes h hstart

/-- A header, a line that is no record, a record with an address of 24 bits in lower
case, a record that counts the others, and the entry point. -/
theorem srec_load_data24 :
    ∃ file, srec (Bytes.str "a.srec") (some (Bytes.str
        "S00600004844521B\r\n; note\n  s0\nS206012340aabb30 \nS5030001FB\nS9030010EC\n")) =
      .ok file ∧
      Loaded [⟨.s0, [0, 0], Bytes.str "HDR", rfl, by decide⟩,
        ⟨.s2, [0x01, 0x23, 0x40], [0xaa, 0xbb], rfl, by decide⟩,
        ⟨.s5, [0, 1], [], rfl, by decide⟩, ⟨.s9, [0, 0x10], [], rfl, by decide⟩] file := by
  have h : List.Forall₂ Describes (getlines (Bytes.str
      "S00600004844521B\r\n; note\n  s0\nS206012340aabb30 \nS5030001FB\nS9030010EC\n"))
      [some ⟨.s0, [0, 0], Bytes.str "HDR", rfl, by decide⟩, none, none,
        some ⟨.s2, [0x01, 0x23, 0x40], [0xaa, 0xbb], rfl, by decide⟩,
        some ⟨.s5, [0, 1], [], rfl, by decide⟩,
        some ⟨.s9, [0, 0x10], [], rfl, by decide⟩] := by
    refine .cons ?_ (.cons ?_ (.cons ?_ (.cons ?_ (.cons ?_ (.cons ?_ .nil)))))
    · refine ⟨[], Bytes.str "0600004844521B", Bytes.str "\r", ?_, ?_, ?_, ?_⟩ <;> decide +kernel
    · exact .inl (by decide +kernel)
    · exact .inl (by decide +kernel)
    · refine ⟨[], Bytes.str "06012340aabb30", Bytes.str " ", ?_, ?_, ?_, ?_⟩ <;> decide +kernel
    · refine ⟨[], Bytes.str "030001FB", [], ?_, ?_, ?_, ?_⟩ <;> decide +kernel
    · refine ⟨[], Bytes.str "030010EC", [], ?_, ?_, ?_, ?_⟩ <;> decide +kernel
  exact srec_load _ _ h

end Mwr.HexFile.SrecLoad
