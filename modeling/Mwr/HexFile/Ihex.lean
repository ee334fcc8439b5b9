import Mwr.HexFile.Line

/-!
# Intel HEX files

A translation of `include/mwr/utils/ihex.h` and `src/mwr/utils/ihex.cpp`.
-/

namespace Mwr.HexFile

open Mwr.CodeLib (Bytes)
open Mwr.Strings

/-- A record of a file that has been loaded, of `ihex` and of `srec`. -/
structure Record where
  addr : BitVec 64
  data : Bytes
  deriving DecidableEq, Repr

/-- `enum ihex_record_type`. -/
inductive IhexType where
  | data
  | eof
  | exSeg
  | startSeg
  | exLinAddr
  | startLinAddr
  | invalidLineFormat
  | invalidLineLen
  | invalidType
  | invalidDescriptor
  | invalidChecksum
  deriving DecidableEq, Repr

/-- `struct ihex_record`. -/
structure IhexRecord where
  type : IhexType
  addr : BitVec 64
  data : Bytes
  deriving DecidableEq, Repr

/-- `vec_to<T>(vec)` for a type of `n` bytes. -/
def vecTo (n : Nat) (vec : Bytes) : Except Fault (BitVec 64) :=
  if n > vec.length then
    .error (.error "reading beyond given vector")
  else
    .ok ((accumulate (8 * n) (vec.take n)).setWidth 64)

/-- The `switch` of `process_line`: the type of a record with a valid checksum. -/
def ihexType (rType : UInt8) (nrBytes : UInt8) (addr : BitVec 16) : IhexType :=
  match rType.toNat with
  | 0 => .data
  | 1 => if nrBytes ≠ 0 ∨ addr ≠ 0 then .invalidDescriptor else .eof
  | 2 => if nrBytes ≠ 2 ∨ addr ≠ 0 then .invalidDescriptor else .exSeg
  | 4 => if nrBytes ≠ 2 ∨ addr ≠ 0 then .invalidDescriptor else .exLinAddr
  | 3 => if nrBytes ≠ 4 ∨ addr ≠ 0 then .invalidDescriptor else .startSeg
  | 5 => if nrBytes ≠ 4 ∨ addr ≠ 0 then .invalidDescriptor else .startLinAddr
  | _ => .invalidType

/-- `process_line(line)`. -/
def processLine (line : Bytes) : Except Fault IhexRecord :=
  if line.length < 11 ∨ line.head? ≠ some ':'.toUInt8 then
    .ok { type := .invalidLineFormat, addr := 0, data := [0] }
  else do
    let nrBytes ← hexByte line 1
    let addrHi ← hexByte line 3
    let addrLo ← hexByte line 5
    let addr := accumulate 16 [addrHi, addrLo]
    let rType ← hexByte line 7
    let lineLen := 11 + nrBytes.toNat * 2
    if line.length < lineLen then
      .ok { type := .invalidLineLen, addr := 0, data := [0] }
    else do
      let checked ← readBytes line 1 lineLen
      if checked.sum ≠ 0 then
        .ok { type := .invalidChecksum, addr := 0, data := [] }
      else
        match ihexType rType nrBytes addr with
        | .invalidDescriptor => .ok { type := .invalidDescriptor, addr := 0, data := [] }
        | .invalidType => .ok { type := .invalidType, addr := 0, data := [] }
        | .eof => .ok { type := .eof, addr := 0, data := [] }
        | type => do
          let data ← readBytes line 9 (9 + nrBytes.toNat * 2)
          .ok { type := type, addr := addr.setWidth 64, data := data }

/-- The members of an `ihex` and the local variables of its constructor. -/
structure Ihex where
  segOffset : BitVec 64
  linearOffset : BitVec 64
  startAddr : BitVec 64
  records : List Record
  deriving DecidableEq, Repr

/-- The loop of the constructor over the lines that are left. -/
def ihexLoop (filename : Bytes) (self : Ihex) : List Bytes → Except Fault Ihex
  | [] =>
    if self.records.length = 0 then
      .error (.report ("File '" ++ Bytes.text filename ++
        "' does not seem to be in Intel hex format"))
    else
      .ok self
  | line :: lines => do
    let r ← processLine (trim line)
    match r.type with
    | .data =>
      let record : Record := { addr := r.addr + self.segOffset + self.linearOffset, data := r.data }
      ihexLoop filename { self with records := self.records ++ [record] } lines
    | .eof => .ok self
    | .exSeg => do
      let value ← vecTo 2 r.data
      ihexLoop filename { self with segOffset := value <<< 4 } lines
    | .startSeg | .startLinAddr => do
      let value ← vecTo 4 r.data
      ihexLoop filename { self with startAddr := value } lines
    | .exLinAddr => do
      let value ← vecTo 2 r.data
      ihexLoop filename { self with linearOffset := value <<< 16 } lines
    | _ => ihexLoop filename self lines

/-- The constructor `ihex(filename)`, for a file that may not open. -/
def ihex (filename : Bytes) (content : Option Bytes) : Except Fault Ihex :=
  match content with
  | none => .error (.error ("Cannot open ihex file '" ++ Bytes.text filename ++ "'"))
  | some content =>
    ihexLoop filename { segOffset := 0, linearOffset := 0, startAddr := 0, records := [] }
      (getlines content)

end Mwr.HexFile
