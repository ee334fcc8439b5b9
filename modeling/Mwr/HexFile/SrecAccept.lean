import Mwr.HexFile.SrecLoad

/-!
# What counts as an S-record

The lines that the reader takes for a record, and what it takes from them.  A record
extends to the end of its line (`srecLine_recognized`): the reader looks neither at
the count nor at the checksum, and in a line of an odd length it pairs a digit of the
checksum with the digit before it.
-/

namespace Mwr.HexFile.SrecLoad

open Mwr.CodeLib (Bytes)
open Mwr.CodeLib.Exec

/-- The line starts like a record of the type and reaches to the end of its address. -/
def Recognized (line : Bytes) (type : SrecType) : Prop :=
  line.head? = some 'S'.toUInt8 ∧ srecType (line.getD 1 0) = some type ∧ type.delim ≤ line.length

instance (line : Bytes) (type : SrecType) : Decidable (Recognized line type) :=
  inferInstanceAs (Decidable (_ ∧ _ ∧ _))

/-- The line is a record of the format: its count and its checksum are right. -/
def WellFormed (line : Bytes) : Prop :=
  ∃ (r : Rec) (digits : Bytes), line = 'S'.toUInt8 :: r.type.char :: digits ∧
    Spells digits r.bytes

/-- The characters of the address. -/
def addrField (type : SrecType) (line : Bytes) : Bytes :=
  (line.drop 4).take (type.delim - 4)

/-- The number of bytes of data: one for each pair of characters behind the address that
begins before the last two characters of the line. -/
def dataLength (type : SrecType) (line : Bytes) : Nat :=
  (line.length - 1 - type.delim) / 2

/-- The characters of the data. -/
def dataField (type : SrecType) (line : Bytes) : Bytes :=
  (line.drop type.delim).take (2 * dataLength type line)

/-- The parts of a line: the type and the count, the address, the data, and the last two
characters, where the checksum belongs. -/
structure Parts (line start addr data check : Bytes) : Prop where
  line_eq : line = start ++ addr ++ data ++ check
  start_length : start.length = 4
  check_length : check.length = 2

theorem eight_le_delim (type : SrecType) : 8 ≤ type.delim ∧ type.delim % 2 = 0 := by
  cases type <;> decide

/-- The pairs of the data are those that begin before the last two characters. -/
theorem lt_dataLength_iff {type : SrecType} {line : Bytes} (h : type.delim ≤ line.length)
    (i : Nat) : i < dataLength type line ↔ type.delim + 2 * i + 2 < line.length := by
  rw [dataLength]
  omega

/-- A recognized line changes the object, whatever its characters are. -/
theorem srecLine_recognized (self : Srec) {line : Bytes} {type : SrecType}
    (h : Recognized line type) :
    srecLine self line = .ok (self.add type
      { addr := accumulate 64 (taken (addrField type line))
        data := taken (dataField type line) }) := by
  obtain ⟨hhead, htype, hlen⟩ := h
  have hdelim := eight_le_delim type
  have haddr : readBytes line 4 type.delim = .ok (taken (addrField type line)) := by
    have h : readBytes line 4 type.delim = .ok (taken ((line.drop 4).take (2 * _))) :=
      readBytes_ok (n := (type.delim - 4) / 2) (by omega) (by omega)
    rwa [show 2 * ((type.delim - 4) / 2) = type.delim - 4 by omega] at h
  have hdata : readBytes line type.delim (line.length - 2) = .ok (taken (dataField type line)) :=
    readBytes_ok (n := (line.length - 1 - type.delim) / 2) (by omega) (by omega)
  rw [srecLine, if_neg (by
    rw [not_or, not_not]
    exact ⟨by omega, hhead⟩), htype]
  show (if _ then _ else _) = _
  rw [if_neg (by omega), haddr, ok_bind, hdata, ok_bind]

/-- Any other line is skipped. -/
theorem srecLine_skipped (self : Srec) {line : Bytes} (h : ¬ ∃ type, Recognized line type) :
    srecLine self line = .ok self := by
  rw [srecLine]
  split
  · rfl
  next hhead =>
    rw [not_or, not_not] at hhead
    cases htype : srecType (line.getD 1 0) with
    | none => rfl
    | some type =>
      by_cases hlen : line.length < type.delim
      · exact if_pos hlen
      · exact absurd ⟨type, hhead.2, htype, Nat.not_lt.mp hlen⟩ h

/-- No line makes the reader ask for a character that is not there. -/
theorem srecLine_total (self : Srec) (line : Bytes) : ∃ self', srecLine self line = .ok self' := by
  by_cases h : ∃ type, Recognized line type
  · obtain ⟨type, htype⟩ := h
    exact ⟨_, srecLine_recognized self htype⟩
  · exact ⟨self, srecLine_skipped self h⟩

/-! ## What is taken from a line -/

/-- In a line of whole pairs the data is everything between the address and the last two
characters. -/
theorem Parts.fields_eq {line start addr data check : Bytes} {type : SrecType}
    (h : Parts line start addr data check) (haddr : addr.length = type.delim - 4)
    (hdata : data.length % 2 = 0) :
    addrField type line = addr ∧ dataField type line = data := by
  obtain ⟨rfl, hstart, hcheck⟩ := h
  have hdelim := eight_le_delim type
  have hfront : (start ++ addr).length = type.delim := by
    rw [List.length_append, hstart]
    omega
  have hcount : 2 * dataLength type (start ++ addr ++ data ++ check) = data.length := by
    rw [dataLength, List.length_append, List.length_append, hfront, hcheck]
    omega
  have hdropAddr : (start ++ addr ++ data ++ check).drop 4 = addr ++ (data ++ check) := by
    rw [List.append_assoc, List.append_assoc, List.drop_left' hstart]
  have hdropData : (start ++ addr ++ data ++ check).drop type.delim = data ++ check := by
    rw [List.append_assoc, List.drop_left' hfront]
  constructor
  · rw [addrField, hdropAddr, ← haddr, List.take_left]
  · rw [dataField, hcount, hdropData, List.take_left]

/-- A line is taken for a record exactly when it begins like one.  Its address is read from
the characters of the address field and its data from the pairs behind it that begin before
the last two characters; where these are digits, they mean the bytes that they spell.  In a
line of whole pairs the count and the last two characters say nothing. -/
theorem srecLine_extent (self : Srec) (line : Bytes) :
    ((¬ ∃ type, Recognized line type) → srecLine self line = .ok self) ∧
    ∀ type, Recognized line type →
      srecLine self line = .ok (self.add type
        { addr := accumulate 64 (taken (addrField type line))
          data := taken (dataField type line) }) ∧
      (∀ i, i < dataLength type line ↔ type.delim + 2 * i + 2 < line.length) ∧
      (∀ bytes, Spells (addrField type line) bytes → taken (addrField type line) = bytes) ∧
      (∀ bytes, Spells (dataField type line) bytes → taken (dataField type line) = bytes) ∧
      ∀ start addr data check, Parts line start addr data check →
        addr.length = type.delim - 4 → data.length % 2 = 0 →
        addrField type line = addr ∧ dataField type line = data := by
  constructor
  · exact srecLine_skipped self
  · intro type htype
    refine ⟨srecLine_recognized self htype, lt_dataLength_iff htype.2.2,
      fun _ => taken_of_spells, fun _ => taken_of_spells, ?_⟩
    intro start addr data check hparts haddr hdata
    exact hparts.fields_eq haddr hdata

/-- The count and the checksum of the bytes of a record. -/
def Checked (bytes : Bytes) : Bool :=
  bytes.head? == some (UInt8.ofNat (bytes.length - 1)) &&
    bytes.getLast? == some (~~~ bytes.dropLast.sum)

theorem WellFormed.checked {line : Bytes} (h : WellFormed line) :
    (spelled (line.drop 2)).any Checked = true := by
  obtain ⟨r, digits, rfl, hspells⟩ := h
  have hlen : r.bytes.length - 1 = r.addr.length + r.data.length + 1 := by
    rw [bytes_length]
    omega
  have hhead : r.bytes.head? = some (UInt8.ofNat (r.bytes.length - 1)) := by
    rw [hlen]
    rfl
  have hlast : r.bytes.getLast? = some (~~~ r.bytes.dropLast.sum) := by
    rw [Rec.bytes, List.getLast?_concat, List.dropLast_concat]
  rw [show ('S'.toUInt8 :: r.type.char :: digits).drop 2 = digits from rfl,
    spelled_eq_some_iff.mpr hspells, Option.any_some, Checked, hhead, hlast, Bool.and_eq_true]
  exact ⟨beq_self_eq_true _, beq_self_eq_true _⟩

/-- The line loads data only if it is a record of the format. -/
def LoadsWellFormed (line : Bytes) : Prop :=
  ∀ self : Srec, srecLine { entry := 0, header := [], records := [] } line = .ok self →
    self.records ≠ [] → WellFormed line

theorem not_loadsWellFormed {line : Bytes} (hload : Recognized line .data16)
    (hcheck : ¬ (spelled (line.drop 2)).any Checked = true) : ¬ LoadsWellFormed line := by
  intro h
  have hwell := h _ (srecLine_recognized _ hload)
    (List.append_ne_nil_of_right_ne_nil _ (List.cons_ne_nil _ _))
  exact hcheck hwell.checked

/-- A record that was cut off, one with a wrong checksum, and one with a character that is
no digit. -/
theorem srecLine_malformed :
    ¬ LoadsWellFormed (Bytes.str "S1090000AABBCC") ∧
      ¬ LoadsWellFormed (Bytes.str "S1050000AABB00") ∧
      ¬ LoadsWellFormed (Bytes.str "S10500000GBB40") :=
  ⟨not_loadsWellFormed (by decide +kernel) (by decide +kernel),
    not_loadsWellFormed (by decide +kernel) (by decide +kernel),
    not_loadsWellFormed (by decide +kernel) (by decide +kernel)⟩

end Mwr.HexFile.SrecLoad
