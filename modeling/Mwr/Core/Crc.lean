import Mwr.CodeLib.Crc

/-!
# Checksums

A translation of `bitrev` of `include/mwr/core/bitops.h`, and of `crc7`, `crc16` and `crc32`
of `src/mwr/core/bitops.cpp`.  Bytes and registers are bit vectors of their width.

* `bitrev8_eq` to `bitrev64_eq` say that `bitrev` reverses the bits.
* `crc7_eq_divide`, `crc16_eq_divide` and `crc32_eq_divide` reduce the checks to the division
  of `Mwr.CodeLib.Crc`.
* `crc_remainders` is the result for `crc7` and `crc16`, and `crc32_reflected` the one for
  `crc32`.
-/

namespace Mwr.Crc

open Mwr.CodeLib.Crc
open Polynomial

/-! ## The code -/

/-- `BITREV_TABLE`. -/
def bitrevTable : Vector (BitVec 8) 256 :=
  ⟨#[0x00, 0x80, 0x40, 0xc0, 0x20, 0xa0, 0x60, 0xe0, 0x10, 0x90, 0x50, 0xd0, 0x30, 0xb0, 0x70,
    0xf0, 0x08, 0x88, 0x48, 0xc8, 0x28, 0xa8, 0x68, 0xe8, 0x18, 0x98, 0x58, 0xd8, 0x38, 0xb8,
    0x78, 0xf8, 0x04, 0x84, 0x44, 0xc4, 0x24, 0xa4, 0x64, 0xe4, 0x14, 0x94, 0x54, 0xd4, 0x34,
    0xb4, 0x74, 0xf4, 0x0c, 0x8c, 0x4c, 0xcc, 0x2c, 0xac, 0x6c, 0xec, 0x1c, 0x9c, 0x5c, 0xdc,
    0x3c, 0xbc, 0x7c, 0xfc, 0x02, 0x82, 0x42, 0xc2, 0x22, 0xa2, 0x62, 0xe2, 0x12, 0x92, 0x52,
    0xd2, 0x32, 0xb2, 0x72, 0xf2, 0x0a, 0x8a, 0x4a, 0xca, 0x2a, 0xaa, 0x6a, 0xea, 0x1a, 0x9a,
    0x5a, 0xda, 0x3a, 0xba, 0x7a, 0xfa, 0x06, 0x86, 0x46, 0xc6, 0x26, 0xa6, 0x66, 0xe6, 0x16,
    0x96, 0x56, 0xd6, 0x36, 0xb6, 0x76, 0xf6, 0x0e, 0x8e, 0x4e, 0xce, 0x2e, 0xae, 0x6e, 0xee,
    0x1e, 0x9e, 0x5e, 0xde, 0x3e, 0xbe, 0x7e, 0xfe, 0x01, 0x81, 0x41, 0xc1, 0x21, 0xa1, 0x61,
    0xe1, 0x11, 0x91, 0x51, 0xd1, 0x31, 0xb1, 0x71, 0xf1, 0x09, 0x89, 0x49, 0xc9, 0x29, 0xa9,
    0x69, 0xe9, 0x19, 0x99, 0x59, 0xd9, 0x39, 0xb9, 0x79, 0xf9, 0x05, 0x85, 0x45, 0xc5, 0x25,
    0xa5, 0x65, 0xe5, 0x15, 0x95, 0x55, 0xd5, 0x35, 0xb5, 0x75, 0xf5, 0x0d, 0x8d, 0x4d, 0xcd,
    0x2d, 0xad, 0x6d, 0xed, 0x1d, 0x9d, 0x5d, 0xdd, 0x3d, 0xbd, 0x7d, 0xfd, 0x03, 0x83, 0x43,
    0xc3, 0x23, 0xa3, 0x63, 0xe3, 0x13, 0x93, 0x53, 0xd3, 0x33, 0xb3, 0x73, 0xf3, 0x0b, 0x8b,
    0x4b, 0xcb, 0x2b, 0xab, 0x6b, 0xeb, 0x1b, 0x9b, 0x5b, 0xdb, 0x3b, 0xbb, 0x7b, 0xfb, 0x07,
    0x87, 0x47, 0xc7, 0x27, 0xa7, 0x67, 0xe7, 0x17, 0x97, 0x57, 0xd7, 0x37, 0xb7, 0x77, 0xf7,
    0x0f, 0x8f, 0x4f, 0xcf, 0x2f, 0xaf, 0x6f, 0xef, 0x1f, 0x9f, 0x5f, 0xdf, 0x3f, 0xbf, 0x7f,
    0xff], by decide +kernel⟩

/-- `CRC7_TABLE`. -/
def crc7Table : Vector (BitVec 8) 256 :=
  ⟨#[0x00, 0x12, 0x24, 0x36, 0x48, 0x5a, 0x6c, 0x7e, 0x90, 0x82, 0xb4, 0xa6, 0xd8, 0xca, 0xfc,
    0xee, 0x32, 0x20, 0x16, 0x04, 0x7a, 0x68, 0x5e, 0x4c, 0xa2, 0xb0, 0x86, 0x94, 0xea, 0xf8,
    0xce, 0xdc, 0x64, 0x76, 0x40, 0x52, 0x2c, 0x3e, 0x08, 0x1a, 0xf4, 0xe6, 0xd0, 0xc2, 0xbc,
    0xae, 0x98, 0x8a, 0x56, 0x44, 0x72, 0x60, 0x1e, 0x0c, 0x3a, 0x28, 0xc6, 0xd4, 0xe2, 0xf0,
    0x8e, 0x9c, 0xaa, 0xb8, 0xc8, 0xda, 0xec, 0xfe, 0x80, 0x92, 0xa4, 0xb6, 0x58, 0x4a, 0x7c,
    0x6e, 0x10, 0x02, 0x34, 0x26, 0xfa, 0xe8, 0xde, 0xcc, 0xb2, 0xa0, 0x96, 0x84, 0x6a, 0x78,
    0x4e, 0x5c, 0x22, 0x30, 0x06, 0x14, 0xac, 0xbe, 0x88, 0x9a, 0xe4, 0xf6, 0xc0, 0xd2, 0x3c,
    0x2e, 0x18, 0x0a, 0x74, 0x66, 0x50, 0x42, 0x9e, 0x8c, 0xba, 0xa8, 0xd6, 0xc4, 0xf2, 0xe0,
    0x0e, 0x1c, 0x2a, 0x38, 0x46, 0x54, 0x62, 0x70, 0x82, 0x90, 0xa6, 0xb4, 0xca, 0xd8, 0xee,
    0xfc, 0x12, 0x00, 0x36, 0x24, 0x5a, 0x48, 0x7e, 0x6c, 0xb0, 0xa2, 0x94, 0x86, 0xf8, 0xea,
    0xdc, 0xce, 0x20, 0x32, 0x04, 0x16, 0x68, 0x7a, 0x4c, 0x5e, 0xe6, 0xf4, 0xc2, 0xd0, 0xae,
    0xbc, 0x8a, 0x98, 0x76, 0x64, 0x52, 0x40, 0x3e, 0x2c, 0x1a, 0x08, 0xd4, 0xc6, 0xf0, 0xe2,
    0x9c, 0x8e, 0xb8, 0xaa, 0x44, 0x56, 0x60, 0x72, 0x0c, 0x1e, 0x28, 0x3a, 0x4a, 0x58, 0x6e,
    0x7c, 0x02, 0x10, 0x26, 0x34, 0xda, 0xc8, 0xfe, 0xec, 0x92, 0x80, 0xb6, 0xa4, 0x78, 0x6a,
    0x5c, 0x4e, 0x30, 0x22, 0x14, 0x06, 0xe8, 0xfa, 0xcc, 0xde, 0xa0, 0xb2, 0x84, 0x96, 0x2e,
    0x3c, 0x0a, 0x18, 0x66, 0x74, 0x42, 0x50, 0xbe, 0xac, 0x9a, 0x88, 0xf6, 0xe4, 0xd2, 0xc0,
    0x1c, 0x0e, 0x38, 0x2a, 0x54, 0x46, 0x70, 0x62, 0x8c, 0x9e, 0xa8, 0xba, 0xc4, 0xd6, 0xe0,
    0xf2], by decide +kernel⟩

/-- `CRC16_TABLE`. -/
def crc16Table : Vector (BitVec 16) 256 :=
  ⟨#[0x0000, 0x1021, 0x2042, 0x3063, 0x4084, 0x50a5, 0x60c6, 0x70e7, 0x8108, 0x9129, 0xa14a,
    0xb16b, 0xc18c, 0xd1ad, 0xe1ce, 0xf1ef, 0x1231, 0x0210, 0x3273, 0x2252, 0x52b5, 0x4294,
    0x72f7, 0x62d6, 0x9339, 0x8318, 0xb37b, 0xa35a, 0xd3bd, 0xc39c, 0xf3ff, 0xe3de, 0x2462,
    0x3443, 0x0420, 0x1401, 0x64e6, 0x74c7, 0x44a4, 0x5485, 0xa56a, 0xb54b, 0x8528, 0x9509,
    0xe5ee, 0xf5cf, 0xc5ac, 0xd58d, 0x3653, 0x2672, 0x1611, 0x0630, 0x76d7, 0x66f6, 0x5695,
    0x46b4, 0xb75b, 0xa77a, 0x9719, 0x8738, 0xf7df, 0xe7fe, 0xd79d, 0xc7bc, 0x48c4, 0x58e5,
    0x6886, 0x78a7, 0x0840, 0x1861, 0x2802, 0x3823, 0xc9cc, 0xd9ed, 0xe98e, 0xf9af, 0x8948,
    0x9969, 0xa90a, 0xb92b, 0x5af5, 0x4ad4, 0x7ab7, 0x6a96, 0x1a71, 0x0a50, 0x3a33, 0x2a12,
    0xdbfd, 0xcbdc, 0xfbbf, 0xeb9e, 0x9b79, 0x8b58, 0xbb3b, 0xab1a, 0x6ca6, 0x7c87, 0x4ce4,
    0x5cc5, 0x2c22, 0x3c03, 0x0c60, 0x1c41, 0xedae, 0xfd8f, 0xcdec, 0xddcd, 0xad2a, 0xbd0b,
    0x8d68, 0x9d49, 0x7e97, 0x6eb6, 0x5ed5, 0x4ef4, 0x3e13, 0x2e32, 0x1e51, 0x0e70, 0xff9f,
    0xefbe, 0xdfdd, 0xcffc, 0xbf1b, 0xaf3a, 0x9f59, 0x8f78, 0x9188, 0x81a9, 0xb1ca, 0xa1eb,
    0xd10c, 0xc12d, 0xf14e, 0xe16f, 0x1080, 0x00a1, 0x30c2, 0x20e3, 0x5004, 0x4025, 0x7046,
    0x6067, 0x83b9, 0x9398, 0xa3fb, 0xb3da, 0xc33d, 0xd31c, 0xe37f, 0xf35e, 0x02b1, 0x1290,
    0x22f3, 0x32d2, 0x4235, 0x5214, 0x6277, 0x7256, 0xb5ea, 0xa5cb, 0x95a8, 0x8589, 0xf56e,
    0xe54f, 0xd52c, 0xc50d, 0x34e2, 0x24c3, 0x14a0, 0x0481, 0x7466, 0x6447, 0x5424, 0x4405,
    0xa7db, 0xb7fa, 0x8799, 0x97b8, 0xe75f, 0xf77e, 0xc71d, 0xd73c, 0x26d3, 0x36f2, 0x0691,
    0x16b0, 0x6657, 0x7676, 0x4615, 0x5634, 0xd94c, 0xc96d, 0xf90e, 0xe92f, 0x99c8, 0x89e9,
    0xb98a, 0xa9ab, 0x5844, 0x4865, 0x7806, 0x6827, 0x18c0, 0x08e1, 0x3882, 0x28a3, 0xcb7d,
    0xdb5c, 0xeb3f, 0xfb1e, 0x8bf9, 0x9bd8, 0xabbb, 0xbb9a, 0x4a75, 0x5a54, 0x6a37, 0x7a16,
    0x0af1, 0x1ad0, 0x2ab3, 0x3a92, 0xfd2e, 0xed0f, 0xdd6c, 0xcd4d, 0xbdaa, 0xad8b, 0x9de8,
    0x8dc9, 0x7c26, 0x6c07, 0x5c64, 0x4c45, 0x3ca2, 0x2c83, 0x1ce0, 0x0cc1, 0xef1f, 0xff3e,
    0xcf5d, 0xdf7c, 0xaf9b, 0xbfba, 0x8fd9, 0x9ff8, 0x6e17, 0x7e36, 0x4e55, 0x5e74, 0x2e93,
    0x3eb2, 0x0ed1, 0x1ef0], by decide +kernel⟩

/-- `table[i]`. -/
def entry {w : Nat} (table : Vector (BitVec w) 256) (i : BitVec 8) : BitVec w :=
  table.get ⟨i.toNat, i.isLt⟩

/-- `bitrev(u8)`. -/
def bitrev8 (val : BitVec 8) : BitVec 8 := entry bitrevTable val

/-- The two halves of a word that a `bitrev` puts together. -/
def halves {w : Nat} (low high : BitVec w) : BitVec (w + w) :=
  (low.setWidth (w + w) <<< w) ||| high.setWidth (w + w)

/-- `bitrev(u16)`. -/
def bitrev16 (val : BitVec 16) : BitVec 16 :=
  halves (bitrev8 (val.setWidth 8)) (bitrev8 ((val >>> 8).setWidth 8))

/-- `bitrev(u32)`. -/
def bitrev32 (val : BitVec 32) : BitVec 32 :=
  halves (bitrev16 (val.setWidth 16)) (bitrev16 ((val >>> 16).setWidth 16))

/-- `bitrev(u64)`. -/
def bitrev64 (val : BitVec 64) : BitVec 64 :=
  halves (bitrev32 (val.setWidth 32)) (bitrev32 ((val >>> 32).setWidth 32))

/-- `crc7(buffer, len, crc)`. -/
def crc7 (buffer : List (BitVec 8)) (crc : BitVec 8) : BitVec 8 :=
  buffer.foldl (fun crc x => entry crc7Table (crc ^^^ x)) crc

/-- `crc16(buffer, len, crc)`. -/
def crc16 (buffer : List (BitVec 8)) (crc : BitVec 16) : BitVec 16 :=
  buffer.foldl (fun crc x =>
    (crc <<< 8) ^^^ entry crc16Table ((((crc >>> 8) ^^^ x.setWidth 16) &&& 0xff#16).setWidth 8)) crc

/-- `crc32_poly`. -/
def crc32Poly : BitVec 32 := 0x04c11db7

/-- The body of the inner loop of `crc32`, with `byte >>= 1`. -/
def crc32Bit (state : BitVec 32 × BitVec 64) : BitVec 32 × BitVec 64 :=
  let (crc, byte) := state
  if ((crc >>> 31).setWidth 64 ^^^ byte) &&& 1#64 ≠ 0#64 then
    ((crc <<< 1) ^^^ crc32Poly, byte >>> 1)
  else (crc <<< 1, byte >>> 1)

/-- The body of the outer loop of `crc32`. -/
def crc32Byte (crc : BitVec 32) (x : BitVec 8) : BitVec 32 :=
  (crc32Bit^[8] (crc, x.setWidth 64)).1

/-- `crc32(buffer, len, crc)`. -/
def crc32 (buffer : List (BitVec 8)) (crc : BitVec 32) : BitVec 32 :=
  buffer.foldl crc32Byte crc

/-- The CRC-32 of the usual standards, with a register that shifts to the right. -/
def standardCrc32 (buffer : List (BitVec 8)) : BitVec 32 :=
  ~~~ reflected 0xEDB88320#32 (~~~0#32) buffer

/-! ## Tables -/

/-- A table is known from the list of its entries. -/
theorem entry_eq {w : Nat} {table : Vector (BitVec w) 256} {f : BitVec 8 → BitVec w}
    (h : table.toList = (List.range 256).map fun i => f (BitVec.ofNat 8 i)) (x : BitVec 8) :
    entry table x = f x := by
  have hx : x.toNat < 256 := x.isLt
  have hentry : table.toList[x.toNat]? = some (entry table x) := by
    rw [Vector.getElem?_toList]
    exact Vector.getElem?_eq_getElem hx
  rw [h, List.getElem?_map, List.getElem?_range hx, Option.map_some, BitVec.ofNat_toNat,
    BitVec.setWidth_eq] at hentry
  exact (Option.some.inj hentry).symm

theorem bitrevTable_toList :
    bitrevTable.toList = (List.range 256).map fun i => (BitVec.ofNat 8 i).reverse := by
  decide +kernel

theorem crc7Table_toList : crc7Table.toList =
    (List.range 256).map fun i => divide 0x12#8 0#8 (msbFirst (BitVec.ofNat 8 i)) := by
  decide +kernel

theorem crc16Table_toList : crc16Table.toList =
    (List.range 256).map fun i => divide 0x1021#16 0#16 (msbFirst (BitVec.ofNat 8 i)) := by
  decide +kernel

theorem entry_bitrevTable (x : BitVec 8) : entry bitrevTable x = x.reverse :=
  entry_eq (f := BitVec.reverse) bitrevTable_toList x

theorem entry_crc7Table (x : BitVec 8) :
    entry crc7Table x = divide 0x12#8 0#8 (msbFirst x) :=
  entry_eq (f := fun x => divide 0x12#8 0#8 (msbFirst x)) crc7Table_toList x

theorem entry_crc16Table (x : BitVec 8) :
    entry crc16Table x = divide 0x1021#16 0#16 (msbFirst x) :=
  entry_eq (f := fun x => divide 0x1021#16 0#16 (msbFirst x)) crc16Table_toList x

/-! ## Bit reversal -/

/-- The halves of a word change places, and each of them is reversed. -/
theorem halves_reverse {w : Nat} (v : BitVec (w + w)) :
    halves (v.setWidth w).reverse ((v >>> w).setWidth w).reverse = v.reverse := by
  apply BitVec.eq_of_getLsbD_eq
  intro i hi
  rw [halves, BitVec.getLsbD_or, BitVec.getLsbD_shiftLeft, BitVec.getLsbD_setWidth,
    BitVec.getLsbD_setWidth, BitVec.getLsbD_reverse, BitVec.getLsbD_reverse,
    BitVec.getLsbD_reverse, BitVec.getMsbD, BitVec.getMsbD, BitVec.getMsbD,
    BitVec.getLsbD_setWidth, BitVec.getLsbD_setWidth, BitVec.getLsbD_ushiftRight]
  by_cases hw : i < w
  · have hlast : w + (w - 1 - i) = w + w - 1 - i := by omega
    simp [hw, hi, hlast, (by omega : w - 1 - i < w)]
  · have hlast : w - 1 - (i - w) = w + w - 1 - i := by omega
    simp [hw, hi, hlast, (by omega : i - w < w), (by omega : w + w - 1 - i < w),
      (by omega : i - w < w + w)]

theorem bitrev8_eq (val : BitVec 8) : bitrev8 val = val.reverse := entry_bitrevTable val

theorem bitrev16_eq (val : BitVec 16) : bitrev16 val = val.reverse := by
  rw [bitrev16, bitrev8_eq, bitrev8_eq]
  exact halves_reverse (w := 8) val

theorem bitrev32_eq (val : BitVec 32) : bitrev32 val = val.reverse := by
  rw [bitrev32, bitrev16_eq, bitrev16_eq]
  exact halves_reverse (w := 16) val

theorem bitrev64_eq (val : BitVec 64) : bitrev64 val = val.reverse := by
  rw [bitrev64, bitrev32_eq, bitrev32_eq]
  exact halves_reverse (w := 32) val

/-! ## Division -/

/-- A byte of `crc7` is divided in a register of 8 bits. -/
theorem crc7_byte (crc x : BitVec 8) :
    entry crc7Table (crc ^^^ x) = divide 0x12#8 crc (msbFirst x) := by
  have hshift : crc <<< 8 = 0#8 := BitVec.shiftLeft_eq_zero (Nat.le_refl 8)
  have hall : crc.extractLsb' 0 8 = crc := BitVec.extractLsb'_eq_self
  rw [entry_crc7Table, divide_msbFirst 0x12#8 crc x (Nat.le_refl 8), hshift, BitVec.zero_xor,
    Nat.sub_self, hall]

/-- `crc7` keeps its remainder in the upper 7 bits. -/
theorem crc7_eq_divide (buffer : List (BitVec 8)) (r : BitVec 7) :
    crc7 buffer (r ++ 0#1) = divide 0x09#7 r (buffer.flatMap msbFirst) ++ 0#1 := by
  rw [← divide_append_zero _ _ _ (by decide)]
  generalize r ++ 0#1 = crc
  induction buffer generalizing crc with
  | nil => rfl
  | cons x buffer ih =>
    rw [List.flatMap_cons, divide_append, ← ih]
    exact congrArg (crc7 buffer) (crc7_byte crc x)

theorem crc16_byte (crc : BitVec 16) (x : BitVec 8) :
    (crc <<< 8) ^^^ entry crc16Table ((((crc >>> 8) ^^^ x.setWidth 16) &&& 0xff#16).setWidth 8) =
      divide 0x1021#16 crc (msbFirst x) := by
  have hindex : (((crc >>> 8) ^^^ x.setWidth 16) &&& 0xff#16).setWidth 8 =
      crc.extractLsb' (16 - 8) 8 ^^^ x := by
    apply BitVec.eq_of_getLsbD_eq
    intro i hi
    have hmask : (0xff#16).getLsbD i = true :=
      (by decide : ∀ j, j < 8 → (0xff#16).getLsbD j = true) i hi
    rw [BitVec.getLsbD_setWidth, BitVec.getLsbD_and, hmask, BitVec.getLsbD_xor,
      BitVec.getLsbD_ushiftRight, BitVec.getLsbD_setWidth, BitVec.getLsbD_xor,
      BitVec.getLsbD_extractLsb', decide_eq_true hi, decide_eq_true (by omega : i < 16),
      Bool.true_and, Bool.and_true, Bool.true_and, Bool.true_and]
  rw [hindex, entry_crc16Table, divide_msbFirst 0x1021#16 crc x (by decide)]

theorem crc16_eq_divide (buffer : List (BitVec 8)) (crc : BitVec 16) :
    crc16 buffer crc = divide 0x1021#16 crc (buffer.flatMap msbFirst) := by
  induction buffer generalizing crc with
  | nil => rfl
  | cons x buffer ih =>
    rw [List.flatMap_cons, divide_append, ← ih]
    exact congrArg (crc16 buffer) (crc16_byte crc x)

/-- The inner loop of `crc32` shifts the lowest bit of the byte into the register. -/
theorem crc32Bit_eq (crc : BitVec 32) (byte : BitVec 64) :
    crc32Bit (crc, byte) = (step crc32Poly crc (byte.getLsbD 0), byte >>> 1) := by
  have hlow : ((crc >>> 31).setWidth 64 ^^^ byte).getLsbD 0 = (crc.msb ^^ byte.getLsbD 0) := by
    rw [BitVec.getLsbD_xor, BitVec.getLsbD_setWidth, BitVec.getLsbD_ushiftRight,
      BitVec.msb_eq_getLsbD_last]
    rfl
  have hbit : ((crc >>> 31).setWidth 64 ^^^ byte) &&& 1#64 ≠ 0#64 ↔
      (crc.msb ^^ byte.getLsbD 0) = true := by
    rw [BitVec.and_one_eq_setWidth_ofBool_getLsbD, hlow]
    cases crc.msb ^^ byte.getLsbD 0 <;> decide
  rw [crc32Bit, step]
  split
  next h => rw [if_pos (hbit.1 h)]
  next h => rw [if_neg (mt hbit.2 h)]

theorem crc32Bit_iterate (crc : BitVec 32) (byte : BitVec 64) (k : Nat) :
    (crc32Bit^[k] (crc, byte)).1 = divide crc32Poly crc ((List.range k).map byte.getLsbD) := by
  induction k generalizing crc byte with
  | zero => rfl
  | succ k ih =>
    have hshift : (byte >>> 1).getLsbD = byte.getLsbD ∘ Nat.succ := by
      funext i
      rw [BitVec.getLsbD_ushiftRight, Nat.add_comm]
      rfl
    rw [Function.iterate_succ_apply, crc32Bit_eq, ih, List.range_succ_eq_map, List.map_cons,
      List.map_map, hshift]
    rfl

theorem crc32Byte_eq (crc : BitVec 32) (x : BitVec 8) :
    crc32Byte crc x = divide crc32Poly crc (lsbFirst x) := by
  rw [crc32Byte, crc32Bit_iterate, lsbFirst]
  rfl

theorem crc32_eq_divide (buffer : List (BitVec 8)) (crc : BitVec 32) :
    crc32 buffer crc = divide crc32Poly crc (buffer.flatMap lsbFirst) := by
  induction buffer generalizing crc with
  | nil => rfl
  | cons x buffer ih =>
    rw [List.flatMap_cons, divide_append, ← ih, ← crc32Byte_eq]
    rfl

/-! ## Results -/

theorem generator_crc7 : generator 0x09#7 = X ^ 7 + X ^ 3 + 1 := by
  rw [generator, ← message_msbFirst,
    (by decide : msbFirst 0x09#7 = [false, false, false, true, false, false, true])]
  simp [message, coefficient]
  ring

theorem generator_crc16 : generator 0x1021#16 = X ^ 16 + X ^ 12 + X ^ 5 + 1 := by
  rw [generator, ← message_msbFirst, (by decide : msbFirst 0x1021#16 =
    [false, false, false, true, false, false, false, false,
      false, false, true, false, false, false, false, true])]
  simp [message, coefficient]
  ring

/-- `crc7` and `crc16` are the bit-serial divisions by their polynomials, which leave the
remainders, and the buffer can be processed in two parts. -/
theorem crc_remainders (buffer rest : List (BitVec 8)) (crc : BitVec 8)
    (hcrc : crc.getLsbD 0 = false) (crc' : BitVec 16) :
    (crc7 buffer crc =
        divide 0x09#7 (crc.extractLsb' 1 7) (buffer.flatMap msbFirst) ++ 0#1 ∧
      toPoly ((crc7 buffer crc).extractLsb' 1 7) =
        (X ^ (8 * buffer.length) * toPoly (crc.extractLsb' 1 7) +
          X ^ 7 * message (buffer.flatMap msbFirst)) %ₘ (X ^ 7 + X ^ 3 + 1) ∧
      crc7 (buffer ++ rest) crc = crc7 rest (crc7 buffer crc)) ∧
    (crc16 buffer crc' = divide 0x1021#16 crc' (buffer.flatMap msbFirst) ∧
      toPoly (crc16 buffer crc') =
        (X ^ (8 * buffer.length) * toPoly crc' +
          X ^ 16 * message (buffer.flatMap msbFirst)) %ₘ (X ^ 16 + X ^ 12 + X ^ 5 + 1) ∧
      crc16 (buffer ++ rest) crc' = crc16 rest (crc16 buffer crc')) := by
  have hsplit : crc.extractLsb' 1 7 ++ 0#1 = crc := by
    apply BitVec.eq_of_getLsbD_eq
    intro i hi
    rw [BitVec.getLsbD_append, BitVec.getLsbD_extractLsb', BitVec.getLsbD_zero]
    split
    next hlow => rw [Nat.lt_one_iff.1 hlow, hcrc]
    next hlow =>
      rw [decide_eq_true (by omega : i - 1 < 7), Bool.true_and,
        Nat.add_sub_cancel' (Nat.le_of_not_lt hlow)]
  have hdivide := crc7_eq_divide buffer (crc.extractLsb' 1 7)
  rw [hsplit] at hdivide
  refine ⟨⟨hdivide, ?_, List.foldl_append⟩, crc16_eq_divide buffer crc', ?_, List.foldl_append⟩
  · have hupper : ∀ r : BitVec 7, (r ++ 0#1).extractLsb' 1 7 = r :=
      fun r => BitVec.extractLsb'_append_eq_left
    rw [hdivide, hupper, toPoly_divide, generator_crc7, length_flatMap_msbFirst]
  · rw [crc16_eq_divide, toPoly_divide, generator_crc16, length_flatMap_msbFirst]

/-- The command 0 of the tests. -/
theorem crc_remainders_cmd0 :
    crc7 [0x40#8, 0#8, 0#8, 0#8, 0#8] 0#8 =
      divide 0x09#7 ((0#8).extractLsb' 1 7)
        ([0x40#8, 0#8, 0#8, 0#8, 0#8].flatMap msbFirst) ++ 0#1 :=
  (crc_remainders [0x40#8, 0#8, 0#8, 0#8, 0#8] [] 0#8 rfl 0#16).1.1

/-- The register of `crc32` is that of the standard the other way round. -/
theorem crc32_reflected (buffer rest : List (BitVec 8)) (crc : BitVec 32) :
    ~~~ bitrev32 (crc32 buffer (~~~0#32)) = standardCrc32 buffer ∧
      crc32 (buffer ++ rest) crc = crc32 rest (crc32 buffer crc) := by
  refine ⟨?_, List.foldl_append⟩
  have hreflected := reverse_reflected (0xEDB88320#32) (~~~0#32) buffer (by decide)
  have hpoly : (0xEDB88320#32).reverse = crc32Poly := by decide +kernel
  have hones : (~~~0#32).reverse = ~~~0#32 := by decide +kernel
  rw [hpoly, hones, ← crc32_eq_divide] at hreflected
  rw [bitrev32_eq, ← hreflected, BitVec.reverse_reverse_eq, standardCrc32]

/-- The check value of the standard, for the digits from 1 to 9. -/
example : standardCrc32 ((List.range 9).map fun i => BitVec.ofNat 8 (0x31 + i)) =
    0xCBF43926#32 := by
  decide +kernel

end Mwr.Crc
