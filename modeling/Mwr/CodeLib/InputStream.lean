import Mathlib.Algebra.Ring.Nat
import Mwr.CodeLib.Bytes

/-!
# Input streams

A binary input stream of C++ over a file whose content does not change.  A stream that has
failed does not read and does not seek.

* `read` is `istream::read`, with the bytes that are stored, and `read_of_good` says which.
* `seekBeg` is `istream::seekg(off, ios::beg)`, which may go behind the end.
-/

namespace Mwr.CodeLib

/-- A stream and the file that it is open on. -/
structure InputStream where
  content : Bytes
  pos : Nat
  /-- `ios::eofbit`. -/
  eof : Bool
  /-- `ios::failbit` or `ios::badbit`. -/
  fail : Bool
  deriving DecidableEq, Repr

namespace InputStream

/-- `istream::read(s, n)`.  The size is converted to a signed type, and nothing is read for a
negative one.  `gcount` is the number of bytes. -/
def read (s : InputStream) (n : BitVec 64) : Bytes × InputStream :=
  if s.fail || s.eof then ([], { s with fail := true })
  else
    let bytes := (s.content.drop s.pos).take n.toInt.toNat
    let short := (bytes.length : Int) ≠ n.toInt
    (bytes, { s with pos := s.pos + bytes.length, eof := short, fail := short })

/-- `istream::seekg(off, ios::beg)`.  It forgets the end of the file, and an offset that is
negative as a signed number fails. -/
def seekBeg (s : InputStream) (off : BitVec 64) : InputStream :=
  if s.fail then { s with eof := false }
  else if off.toInt < 0 then { s with eof := false, fail := true }
  else { s with eof := false, pos := off.toNat }

theorem content_read (s : InputStream) (n : BitVec 64) : (s.read n).2.content = s.content := by
  unfold read
  split <;> rfl

theorem content_seekBeg (s : InputStream) (off : BitVec 64) :
    (s.seekBeg off).content = s.content := by
  unfold seekBeg
  split
  next => rfl
  next => split <;> rfl

/-- Reading from a stream in order. -/
theorem read_of_good {s : InputStream} (h : s.fail = false) (heof : s.eof = false) {n : BitVec 64}
    (hn : n.toNat < 2 ^ 63) : (s.read n).1 = (s.content.drop s.pos).take n.toNat := by
  have hint : n.toInt.toNat = n.toNat := by
    rw [BitVec.toInt_eq_toNat_of_lt (by omega), Int.toNat_natCast]
  rw [read, h, heof, hint]
  rfl

theorem seekBeg_of_good {s : InputStream} (h : s.fail = false) {off : BitVec 64}
    (hoff : off.toNat < 2 ^ 63) :
    s.seekBeg off = { s with eof := false, pos := off.toNat } := by
  have hint : ¬ off.toInt < 0 := by
    rw [BitVec.toInt_eq_toNat_of_lt (by omega)]
    omega
  rw [seekBeg, h, if_neg Bool.false_ne_true, if_neg hint]

end InputStream

end Mwr.CodeLib
