import Mwr.HexFile.Ihex

/-!
# S-records

A translation of `include/mwr/utils/srec.h` and `src/mwr/utils/srec.cpp`.
-/

namespace Mwr.HexFile

open Mwr.CodeLib (Bytes)
open Mwr.Strings

/-- `enum srec_record_type`. -/
inductive SrecType where
  | header
  | data16
  | data24
  | data32
  | data64
  | text32
  | text24
  | text16
  deriving DecidableEq, Repr

/-- The type that a character names, of those that the reader knows. -/
def srecType (ch : UInt8) : Option SrecType :=
  if ch = '0'.toUInt8 then some .header
  else if ch = '1'.toUInt8 then some .data16
  else if ch = '2'.toUInt8 then some .data24
  else if ch = '3'.toUInt8 then some .data32
  else if ch = '4'.toUInt8 then some .data64
  else if ch = '7'.toUInt8 then some .text32
  else if ch = '8'.toUInt8 then some .text24
  else if ch = '9'.toUInt8 then some .text16
  else none

/-- The first `switch` of the constructor: the position behind the address. -/
def SrecType.delim : SrecType → Nat
  | header | data16 | text16 => 8
  | data24 | text24 => 10
  | data32 | text32 => 12
  | data64 => 20

/-- The members of an `srec`. -/
structure Srec where
  entry : BitVec 64
  header : Bytes
  records : List Record
  deriving DecidableEq, Repr

/-- The second `switch` of the constructor: what a record does to the object. -/
def Srec.add (self : Srec) (type : SrecType) (record : Record) : Srec :=
  match type with
  | .header => { self with header := trim record.data }
  | .text16 | .text24 | .text32 => { self with entry := record.addr }
  | .data16 | .data24 | .data32 | .data64 => { self with records := self.records ++ [record] }

/-- The body of the loop of the constructor, for a line without the whitespace
around it. -/
def srecLine (self : Srec) (line : Bytes) : Except Fault Srec :=
  if line.length < 2 ∨ line.head? ≠ some 'S'.toUInt8 then
    .ok self
  else
    match srecType (line.getD 1 0) with
    | none => .ok self
    | some type =>
      if line.length < type.delim then
        .ok self
      else do
        let addr ← readBytes line 4 type.delim
        let data ← readBytes line type.delim (line.length - 2)
        .ok (self.add type { addr := accumulate 64 addr, data := data })

/-- The loop of the constructor over the lines that are left. -/
def srecLoop (self : Srec) : List Bytes → Except Fault Srec
  | [] => .ok self
  | line :: lines => do
    let self ← srecLine self (trim line)
    srecLoop self lines

/-- The constructor `srec(filename)`, for a file that may not open. -/
def srec (filename : Bytes) (content : Option Bytes) : Except Fault Srec :=
  match content with
  | none => .error (.error ("cannot open srec file '" ++ Bytes.text filename ++ "'"))
  | some content => srecLoop { entry := 0, header := [], records := [] } (getlines content)

end Mwr.HexFile
