import Mwr.CodeLib.ByteOrder
import Mwr.CodeLib.Exec
import Mwr.CodeLib.InputStream
import Mwr.Core.Report

/-!
# Images for U-Boot

A translation of `include/mwr/utils/uimage.h` and `src/mwr/utils/uimage.cpp`: the header that
the constructor reads, and `read`.

* `read_iff` says for which ranges `read` stays inside of the payload.
* It holds in every state that an image can be in, which is `Opened`.  `Opened.content` and
  `Opened.size_lt` are its invariants.
-/

namespace Mwr

open Mwr.CodeLib
open Mwr.CodeLib.Bytes
open Mwr.CodeLib.Exec

/-- `class uimage`. -/
structure Uimage where
  path : Bytes
  name : Bytes
  size : BitVec 64
  date : BitVec 64
  os : UInt8
  arch : UInt8
  type : UInt8
  comp : UInt8
  load : BitVec 32
  entry : BitVec 32
  file : InputStream
  deriving DecidableEq, Repr

namespace Uimage

/-! ## The header -/

/-- A computation that reads from the file, or aborts. -/
abbrev Reader := StateT InputStream (Except Fault)

/-- `bswap(u32)`. -/
def bswap (val : BitVec 32) : BitVec 32 :=
  ((val &&& 0xff000000#32) >>> 24) ||| ((val &&& 0x00ff0000#32) >>> 8) |||
    ((val &&& 0x0000ff00#32) <<< 8) ||| ((val &&& 0x000000ff#32) <<< 24)

/-- `m_file.read(...)`, and the check that follows in the header. -/
def readHeader (path : Bytes) (n : BitVec 64) : Reader Bytes := do
  let (bytes, file) := (← get).read n
  set file
  errorOn (file.fail = true) s!"error reading uimage header: {text path}"
  return bytes

/-- `read8()`. -/
def read8 (path : Bytes) : Reader UInt8 := do
  return (← readHeader path 1).headD 0

/-- `read32be()`.  The bytes are those of a number in the byte order of the host. -/
def read32be (host : ByteOrder) (path : Bytes) : Reader (BitVec 32) := do
  return bswap (BitVec.ofNat 32 (host.value (← readHeader path 4)))

/-- `readstr()`. -/
def readstr (path : Bytes) : Reader Bytes := do
  return (← readHeader path 32).takeWhile (· ≠ 0)

/-- The body of `uimage(filename)`, on the file that has been opened. -/
def readImage (host : ByteOrder) (path : Bytes) : Reader Uimage := do
  let magic ← read32be host path
  errorOn (magic ≠ 0x27051956#32) s!"not an uimage: {text path}"
  let _crc ← read32be host path
  let date ← read32be host path
  let size ← read32be host path
  let load ← read32be host path
  let entry ← read32be host path
  let _dcrc ← read32be host path
  let os ← read8 path
  errorOn (os = 0) s!"invalid operating system: {text path}"
  let arch ← read8 path
  errorOn (arch = 0) s!"invalid architecture: {text path}"
  let type ← read8 path
  errorOn (type = 0) s!"invalid payload type: {text path}"
  let comp ← read8 path
  let name ← readstr path
  return ⟨path, name, size.setWidth 64, date.setWidth 64, os, arch, type, comp, load, entry,
    ← get⟩

/-- `uimage(filename)`, with the content of the file if it can be opened. -/
def uimage (host : ByteOrder) (path : Bytes) (file : Option Bytes) : Except Fault Uimage :=
  match file with
  | none => throw (.error s!"failed to open uimage at {text path}")
  | some content => (readImage host path).run' ⟨content, 0, false, false⟩

/-- `read(dest, size, offset)`, with the bytes that are stored in `dest`. -/
def read (img : Uimage) (size offset : BitVec 64) : Except Fault (Bytes × Uimage) :=
  if img.file.fail then throw (.error "invalid uimage")
  else if size + offset > img.size then throw (.error "reading beyond end of file")
  else
    let headerSize := 0x40#64
    let (bytes, file) := (img.file.seekBeg (offset + headerSize)).read size
    .ok (bytes, { img with file })

/-! ## Images that have been opened -/

/-- The states of an image with this content. -/
inductive Opened (host : ByteOrder) (path content : Bytes) : Uimage → Prop where
  | uimage {img : Uimage} (h : uimage host path (some content) = .ok img) :
      Opened host path content img
  | read {img img' : Uimage} {size offset : BitVec 64} {bytes : Bytes}
      (hopened : Opened host path content img) (h : read img size offset = .ok (bytes, img')) :
      Opened host path content img'

variable {host : ByteOrder} {path content : Bytes} {img img' : Uimage} {size offset : BitVec 64}

theorem errorOn_satisfies {P : InputStream → Prop} (cond : Prop) [Decidable cond]
    (message : String) : Satisfies P (errorOn cond message) fun _ => P := by
  unfold errorOn
  split
  next => exact satisfies_throw _
  next => exact satisfies_pure fun _ h => h

/-- Reading does not change what the file holds. -/
theorem readHeader_satisfies (path : Bytes) (n : BitVec 64) :
    Satisfies (fun s => s.content = content) (readHeader path n)
      fun _ s => s.content = content := by
  refine Satisfies.bind (Q := fun t s => s.content = content ∧ t = s)
    (satisfies_get fun s h => ⟨h, rfl⟩) fun t => ?_
  refine Satisfies.bind (Q := fun _ s => s.content = content) (satisfies_set ?_) fun _ => ?_
  · rintro s ⟨h, rfl⟩
    exact (InputStream.content_read t n).trans h
  · exact Satisfies.bind (errorOn_satisfies _ _) fun _ => satisfies_pure fun _ h => h

theorem read8_satisfies (path : Bytes) :
    Satisfies (fun s => s.content = content) (read8 path) fun _ s => s.content = content :=
  Satisfies.bind (readHeader_satisfies path 1) fun _ => satisfies_pure fun _ h => h

theorem read32be_satisfies (host : ByteOrder) (path : Bytes) :
    Satisfies (fun s => s.content = content) (read32be host path)
      fun _ s => s.content = content :=
  Satisfies.bind (readHeader_satisfies path 4) fun _ => satisfies_pure fun _ h => h

theorem readstr_satisfies (path : Bytes) :
    Satisfies (fun s => s.content = content) (readstr path) fun _ s => s.content = content :=
  Satisfies.bind (readHeader_satisfies path 32) fun _ => satisfies_pure fun _ h => h

/-- The size in the header is a number of 32 bits. -/
theorem readImage_satisfies (host : ByteOrder) (path : Bytes) :
    Satisfies (fun s => s.content = content) (readImage host path)
      fun img _ => img.file.content = content ∧ img.size.toNat < 2 ^ 32 := by
  unfold readImage
  refine Satisfies.bind (read32be_satisfies host path) fun magic => ?_
  refine Satisfies.bind (errorOn_satisfies _ _) fun _ => ?_
  refine Satisfies.bind (read32be_satisfies host path) fun _crc => ?_
  refine Satisfies.bind (read32be_satisfies host path) fun date => ?_
  refine Satisfies.bind (read32be_satisfies host path) fun size => ?_
  refine Satisfies.bind (read32be_satisfies host path) fun load => ?_
  refine Satisfies.bind (read32be_satisfies host path) fun entry => ?_
  refine Satisfies.bind (read32be_satisfies host path) fun _dcrc => ?_
  refine Satisfies.bind (read8_satisfies path) fun os => ?_
  refine Satisfies.bind (errorOn_satisfies _ _) fun _ => ?_
  refine Satisfies.bind (read8_satisfies path) fun arch => ?_
  refine Satisfies.bind (errorOn_satisfies _ _) fun _ => ?_
  refine Satisfies.bind (read8_satisfies path) fun type => ?_
  refine Satisfies.bind (errorOn_satisfies _ _) fun _ => ?_
  refine Satisfies.bind (read8_satisfies path) fun comp => ?_
  refine Satisfies.bind (readstr_satisfies path) fun name => ?_
  refine Satisfies.bind (Q := fun t _ => t.content = content) (satisfies_get fun _ h => h)
    fun file => satisfies_pure fun _ hfile => ⟨hfile, ?_⟩
  have hsize : (size.setWidth 64).toNat = size.toNat := BitVec.toNat_setWidth_of_le (by decide)
  exact hsize ▸ size.isLt

/-! ## Reading from an image -/

theorem read_of_failed (h : img.file.fail = true) :
    img.read size offset = .error (.error "invalid uimage") := if_pos h

theorem read_of_beyond (hfile : img.file.fail = false) (h : img.size < size + offset) :
    img.read size offset = .error (.error "reading beyond end of file") := by
  rw [read, hfile, if_neg Bool.false_ne_true]
  exact if_pos h

theorem read_of_accepted (hfile : img.file.fail = false) (h : ¬ img.size < size + offset) :
    img.read size offset = .ok
      (((img.file.seekBeg (offset + 0x40#64)).read size).1,
        { img with file := ((img.file.seekBeg (offset + 0x40#64)).read size).2 }) := by
  rw [read, hfile, if_neg Bool.false_ne_true]
  exact if_neg h

/-- `read` leaves the content and the size as they are. -/
theorem read_keeps {bytes : Bytes} (h : img.read size offset = .ok (bytes, img')) :
    img'.file.content = img.file.content ∧ img'.size = img.size := by
  cases hfile : img.file.fail with
  | true =>
    rw [read_of_failed hfile] at h
    cases h
  | false =>
    by_cases hbeyond : img.size < size + offset
    · rw [read_of_beyond hfile hbeyond] at h
      cases h
    · rw [read_of_accepted hfile hbeyond] at h
      cases h
      exact ⟨(InputStream.content_read _ _).trans (InputStream.content_seekBeg _ _), rfl⟩

/-- The invariant of an image. -/
theorem Opened.invariant (h : Opened host path content img) :
    img.file.content = content ∧ img.size.toNat < 2 ^ 32 := by
  induction h with
  | uimage h =>
    obtain ⟨file, hrun⟩ := fst_eq_ok (σ := InputStream) h
    exact readImage_satisfies host path _ _ file rfl hrun
  | read _ h ih =>
    obtain ⟨hcontent, hsize⟩ := read_keeps h
    rw [hcontent, hsize]
    exact ih

/-- A range that does not wrap around and is accepted. -/
theorem read_inside (hfile : img.file.fail = false) (hsize : img.size.toNat < 2 ^ 32)
    (hsum : size.toNat + offset.toNat < 2 ^ 64) (h : ¬ img.size < size + offset) :
    offset.toNat + size.toNat ≤ img.size.toNat ∧
      ((img.file.seekBeg (offset + 0x40#64)).read size).1 =
        (img.file.content.drop (0x40 + offset.toNat)).take size.toNat := by
  have hadd : (size + offset).toNat = size.toNat + offset.toNat := by
    rw [BitVec.toNat_add, Nat.mod_eq_of_lt hsum]
  rw [BitVec.lt_def, hadd] at h
  have hpos : (offset + 0x40#64).toNat = 0x40 + offset.toNat := by
    rw [BitVec.toNat_add, BitVec.toNat_ofNat, Nat.add_comm]
    exact Nat.mod_eq_of_lt (by omega)
  refine ⟨by omega, ?_⟩
  rw [InputStream.seekBeg_of_good hfile (by omega), hpos]
  exact InputStream.read_of_good (s := { img.file with eof := false, pos := 0x40 + offset.toNat })
    hfile rfl (by omega)

/-- A range that is accepted is inside of the payload, and its bytes are those that the file
has there. -/
def Inside (content : Bytes) (img : Uimage) (size offset : BitVec 64) : Prop :=
  ∀ bytes img', img.read size offset = .ok (bytes, img') →
    offset.toNat + size.toNat ≤ img.size.toNat ∧
      bytes = (content.drop (0x40 + offset.toNat)).take size.toNat

/-- The sum of the size and the offset does not wrap around to one that is accepted. -/
def Guarded (img : Uimage) (size offset : BitVec 64) : Prop :=
  img.file.fail = true ∨ size.toNat + offset.toNat < 2 ^ 64 ∨ img.size < size + offset

/-- `read` stays inside of the payload if and only if the sum of its arguments does not wrap
around to one that is accepted. -/
theorem read_iff (h : Opened host path content img) (size offset : BitVec 64) :
    Inside content img size offset ↔ Guarded img size offset := by
  obtain ⟨hcontent, hsize⟩ := h.invariant
  constructor
  · intro hinside
    by_contra hguard
    obtain ⟨hfile, hsum, hbeyond⟩ : ¬ img.file.fail = true ∧ _ ∧ _ :=
      ⟨(not_or.1 hguard).1, not_or.1 (not_or.1 hguard).2⟩
    have hfile := eq_false_of_ne_true hfile
    have hle := (hinside _ _ (read_of_accepted hfile hbeyond)).1
    omega
  · intro hguard bytes img' hread
    cases hfile : img.file.fail with
    | true =>
      rw [read_of_failed hfile] at hread
      cases hread
    | false =>
      by_cases hbeyond : img.size < size + offset
      · rw [read_of_beyond hfile hbeyond] at hread
        cases hread
      · rw [read_of_accepted hfile hbeyond] at hread
        cases hread
        have hsum : size.toNat + offset.toNat < 2 ^ 64 := by
          rcases hguard with hfail | hsum | hlt
          · rw [hfile] at hfail
            cases hfail
          · exact hsum
          · exact absurd hlt hbeyond
        rw [← hcontent]
        exact read_inside hfile hsize hsum hbeyond

/-- An image with a payload of 8 bytes. -/
def sample : Bytes :=
  [0x27, 0x05, 0x19, 0x56, 0, 0, 0, 0, 0, 0, 0, 0, 0, 0, 0, 8, 0, 0, 0, 0, 0, 0, 0, 0,
    0, 0, 0, 0, 5, 26, 2, 0] ++ List.replicate 32 0 ++ [1, 2, 3, 4, 5, 6, 7, 8]

/-- The object for this image. -/
def sampleImage : Uimage := ⟨[], [], 8, 0, 5, 26, 2, 0, 0, 0, ⟨sample, 64, false, false⟩⟩

theorem uimage_sample : uimage .little [] (some sample) = .ok sampleImage := by
  decide +kernel

/-- The whole payload of the image. -/
theorem read_iff_sample : Inside sample sampleImage 8#64 0#64 ↔ Guarded sampleImage 8#64 0#64 :=
  read_iff (.uimage uimage_sample) 8#64 0#64

/-- A sum that wraps around to `0` lets the header be read. -/
theorem read_header :
    Opened .little [] sample sampleImage ∧
      (∃ img', sampleImage.read 64#64 (-64#64) = .ok (sample.take 64, img')) ∧
      ¬ Inside sample sampleImage 64#64 (-64#64) := by
  have hread : sampleImage.read 64#64 (-64#64) = .ok (sample.take 64, sampleImage) := by
    decide +kernel
  refine ⟨.uimage uimage_sample, ⟨_, hread⟩, fun h => ?_⟩
  exact absurd (h _ _ hread).1 (by decide)

end Uimage

end Mwr
