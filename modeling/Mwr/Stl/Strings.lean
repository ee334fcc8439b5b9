import Mathlib.Data.List.DropRight
import Mwr.CodeLib.Bytes

/-!
# Strings

The functions of `include/mwr/stl/strings.h` and `src/mwr/stl/strings.cpp` that
the rest of the library calls.  A `std::string` is a list of bytes, and the
character classes are those of the C locale.
-/

namespace Mwr.Strings

open Mwr.CodeLib (Bytes)

/-- `isspace` of the C locale. -/
def isspace (ch : UInt8) : Bool :=
  ch == ' '.toUInt8 || ('\t'.toUInt8 ≤ ch && ch ≤ 0x0d)

/-- `nospace(ch)`: neither a space nor the terminating null. -/
def nospace (ch : UInt8) : Bool :=
  ch != 0 && !isspace ch

/-- `ltrim(str)`. -/
def ltrim (str : Bytes) : Bytes :=
  str.dropWhile fun ch => !nospace ch

/-- `rtrim(str)`. -/
def rtrim (str : Bytes) : Bytes :=
  str.rdropWhile fun ch => !nospace ch

/-- `trim(str)`. -/
def trim (str : Bytes) : Bytes :=
  rtrim (ltrim str)

/-- The characters that `escape` always escapes. -/
def quotes : Bytes :=
  ['\\'.toUInt8, '"'.toUInt8, '\''.toUInt8]

/-- `escape(s, chars)`: one backslash for each time that the character is listed. -/
def escape (s : Bytes) (chars : Bytes) : Bytes :=
  s.flatMap fun c => ((chars ++ quotes).filter (c == ·)).map (fun _ => '\\'.toUInt8) ++ [c]

/-- `if (!buf.empty()) vec.push_back(buf);` -/
def pushWord (vec : List Bytes) (buf : Bytes) : List Bytes :=
  if buf.isEmpty then vec else vec ++ [buf]

/-- The loop of `split`, with its variables `flag`, `buf` and `vec`. -/
def splitLoop (f : UInt8 → Bool) :
    Bool → Bytes → List Bytes → Bytes → List Bytes
  | _, buf, vec, [] => pushWord vec buf
  | flag, buf, vec, ch :: str =>
    if ch == '"'.toUInt8 || ch == '\''.toUInt8 then
      splitLoop f (!flag) buf vec str
    else if ch == '\\'.toUInt8 then
      match str with
      | next :: str' => splitLoop f flag (buf ++ [next]) vec str'
      -- a backslash at the end of the string is a character like any other
      | [] => if f ch && !flag then pushWord vec buf else pushWord vec (buf ++ [ch])
    else if f ch && !flag then
      splitLoop f flag [] (pushWord vec buf) str
    else
      splitLoop f flag (buf ++ [ch]) vec str

/-- `split(str, f)`. -/
def split (str : Bytes) (f : UInt8 → Bool) : List Bytes :=
  splitLoop f false [] [] str

/-- `split(str, predicate)`: the same loop for one character. -/
def splitChar (str : Bytes) (predicate : UInt8) : List Bytes :=
  splitLoop (· == predicate) false [] [] str

/-- `from_hex_ascii(ch)`.  The null character counts as zero, and any other
character that is not a digit gives `-1`. -/
def fromHexAscii (ch : UInt8) : UInt32 :=
  if 'a'.toUInt8 ≤ ch && ch ≤ 'f'.toUInt8 then
    ch.toUInt32 - 'a'.toUInt8.toUInt32 + 10
  else if 'A'.toUInt8 ≤ ch && ch ≤ 'F'.toUInt8 then
    ch.toUInt32 - 'A'.toUInt8.toUInt32 + 10
  else if '0'.toUInt8 ≤ ch && ch ≤ '9'.toUInt8 then
    ch.toUInt32 - '0'.toUInt8.toUInt32
  else if ch == 0 then
    0
  else
    0xffffffff

end Mwr.Strings
