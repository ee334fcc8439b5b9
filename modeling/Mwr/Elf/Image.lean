import Mwr.Elf.Nolibelf

/-!
# Images

The content of an ELF file, read as a whole.  An `Image` is the bytes of a file with
the order in which its fields are read; its headers, its symbols and its segments are
plain functions of it.

* `WellFormed` is what the format demands of the parts that this project uses.
* `Accepted` says for which images the reader without libelf does not abort.

The numbers of headers are those of the format: a count that does not fit its field in
the header of the file is found in the section header zero.  The reader always takes
the fields of the header.
-/

namespace Mwr.Elf

open Mwr.CodeLib (Bytes ByteOrder)
open Mwr.CodeLib.Exec

variable {c : ElfClass}

/-- The value of `e_phnum` for a count that does not fit. -/
def PN_XNUM : BitVec 16 := 0xffff

def SHT_NULL : BitVec 32 := 0
def SHT_STRTAB : BitVec 32 := 3

/-- The bytes of a file at a position. -/
def slice (data : Bytes) (pos size : Nat) : Bytes := (data.drop pos).take size

/-- The string at a position of a string table. -/
def stringAt (strtab : Bytes) (idx : Nat) : Bytes := (strtab.drop idx).takeWhile (· ≠ 0)

/-- The bytes of a file of one class, and the order in which its fields are read. -/
structure Image (c : ElfClass) where
  data : Bytes
  order : ByteOrder
  deriving DecidableEq, Repr

namespace Image

variable (im : Image c)

/-! ## The parts of an image -/

def ehdr : Ehdr c := Ehdr.decode im.order c (slice im.data 16 (Ehdr.bytes c))

/-- Where the program header `i` starts. -/
def phdrPos (i : Nat) : Nat := im.ehdr.phoff.toNat + i * Phdr.bytes c

def phdr (i : Nat) : Phdr c :=
  Phdr.decode im.order c (slice im.data (im.phdrPos i) (Phdr.bytes c))

/-- Where the section header `i` starts. -/
def shdrPos (i : Nat) : Nat := im.ehdr.shoff.toNat + i * Shdr.bytes c

def shdr (i : Nat) : Shdr c :=
  Shdr.decode im.order c (slice im.data (im.shdrPos i) (Shdr.bytes c))

/-- The number of sections. -/
def shnum : Nat :=
  if im.ehdr.shnum = 0 ∧ im.ehdr.shoff ≠ 0 then (im.shdr 0).size.toNat else im.ehdr.shnum.toNat

/-- The number of program headers. -/
def phnum : Nat :=
  if im.ehdr.phnum = PN_XNUM then (im.shdr 0).info.toNat else im.ehdr.phnum.toNat

/-- The first `n` program headers. -/
def phdrs (n : Nat) : List (Phdr c) := (List.range n).map im.phdr

/-- The first `n` section headers. -/
def shdrs (n : Nat) : List (Shdr c) := (List.range n).map im.shdr

/-- The offset of the data of the section `i`, as the argument of `fd_seek`. -/
def offset (i : Nat) : BitVec 64 := (im.shdr i).offset.setWidth 64

/-- Where a reader finds the data of the section `i`.  It does not notice that it cannot
reach an offset of `-1`, and reads on behind the section header. -/
def dataPos (i : Nat) : Nat := if im.offset i = -1 then im.shdrPos (i + 1) else (im.offset i).toNat

/-- The number of entries of the symbol table `i`. -/
def symCount (i : Nat) : Nat := (im.shdr i).size.toNat / Sym.bytes c

/-- The entries of the symbol table `i`. -/
def syms (i : Nat) : List (Sym c) :=
  decodeSyms im.order c (slice im.data (im.dataPos i) (im.symCount i * Sym.bytes c)) (im.symCount i)

/-- The data of the string table `i`. -/
def strings (i : Nat) : Bytes := slice im.data (im.dataPos i) (im.shdr i).size.toNat

/-- The section with the strings of the symbol table `i`. -/
def link (i : Nat) : Nat := (im.shdr i).link.toNat

/-- The symbols of the section `i`, of a kind that the object keeps. -/
def sectionSymbols (i : Nat) : List Symbol :=
  if (im.shdr i).type = SHT_SYMTAB then
    ((im.syms i).map fun sym =>
      symbolOf sym (stringAt (im.strings (im.link i)) sym.name.toNat)).filter (·.kind ≠ .none)
  else
    []

/-- The object that the reader without libelf makes of the image. -/
def toElf (bigEndian : Bool) : ElfFile :=
  let segments := segmentsOf ((im.phdrs im.ehdr.phnum.toNat).filter (·.type = PT_LOAD))
  let symbols := (List.range im.ehdr.shnum.toNat).flatMap im.sectionSymbols
  { entry := im.ehdr.entry.setWidth 64
    machine := im.ehdr.machine
    bigEndian := bigEndian
    asize := c.bits / 8
    segments := segments
    symbols := symbols.map fun sym => { sym with phys := toPhys segments sym.virt } }

/-! ## Which images the reader accepts -/

/-- The file has `size` bytes where the reader looks for the data of the section `i`. -/
def HasData (i size : Nat) : Prop :=
  ((im.offset i).toNat < 2 ^ 63 ∨ im.offset i = -1) ∧
    (size = 0 ∨ im.dataPos i + size ≤ im.data.length)

/-- The symbol table `i` can be read with its strings. -/
structure SymtabReadable (i : Nat) : Prop where
  data : im.HasData i (im.symCount i * Sym.bytes c)
  link : im.shdrPos (im.link i) + Shdr.bytes c ≤ im.data.length
  strings : im.HasData (im.link i) (im.shdr (im.link i)).size.toNat
  names : ∀ sym ∈ im.syms i, sym.name.toNat < (im.shdr (im.link i)).size.toNat

/-- The tables of the image lie in the file, by the numbers in the header. -/
structure Accepted : Prop where
  ehdr : 16 + Ehdr.bytes c ≤ im.data.length
  phdrs : im.ehdr.phnum ≠ 0 → im.phdrPos im.ehdr.phnum.toNat ≤ im.data.length
  shdrs : im.ehdr.shnum ≠ 0 → im.shdrPos im.ehdr.shnum.toNat ≤ im.data.length
  symtabs : ∀ i < im.ehdr.shnum.toNat, (im.shdr i).type = SHT_SYMTAB → im.SymtabReadable i

/-! ## Well-formed images -/

/-- The identification of a file. -/
def ident : Bytes :=
  [0x7f, 'E'.toUInt8, 'L'.toUInt8, 'F'.toUInt8, match c with | .elf32 => 1 | .elf64 => 2,
    match im.order with | .little => 1 | .big => 2]

/-- A symbol table with its string table. -/
structure SymtabWellFormed (i : Nat) : Prop where
  entsize : (im.shdr i).entsize.toNat = Sym.bytes c
  data_le : (im.shdr i).offset.toNat + (im.shdr i).size.toNat ≤ im.data.length
  link_lt : im.link i < im.shnum
  link_type : (im.shdr (im.link i)).type = SHT_STRTAB
  strings_le : (im.shdr (im.link i)).offset.toNat + (im.shdr (im.link i)).size.toNat ≤
    im.data.length
  strings_last : ∀ b ∈ (im.strings (im.link i)).getLast?, b = 0
  names_lt : ∀ sym ∈ im.syms i, sym.name.toNat < (im.shdr (im.link i)).size.toNat

/-- A file that keeps to the format.  Its length fits an `off_t`. -/
structure WellFormed : Prop where
  length_lt : im.data.length < 2 ^ 63
  ident_eq : im.data.take 6 = im.ident
  ehdr_le : 16 + Ehdr.bytes c ≤ im.data.length
  phentsize : im.phnum ≠ 0 → im.ehdr.phentsize.toNat = Phdr.bytes c
  shentsize : im.shnum ≠ 0 → im.ehdr.shentsize.toNat = Shdr.bytes c
  phdrs_le : im.phnum ≠ 0 → im.phdrPos im.phnum ≤ im.data.length
  shdrs_le : im.shnum ≠ 0 → im.shdrPos im.shnum ≤ im.data.length
  phnum_le : im.ehdr.phnum.toNat ≤ im.phnum
  xnum : im.ehdr.phnum = PN_XNUM → im.shnum ≠ 0
  shdr_zero : im.shnum ≠ 0 → (im.shdr 0).type = SHT_NULL
  symtabs : ∀ i < im.shnum, (im.shdr i).type = SHT_SYMTAB → im.SymtabWellFormed i

theorem all_eq_zero_iff {b : Option UInt8} : b.all (· = 0) = true ↔ ∀ x ∈ b, x = 0 := by
  cases b <;> simp

instance (i : Nat) : Decidable (im.SymtabWellFormed i) :=
  decidable_of_iff ((im.shdr i).entsize.toNat = Sym.bytes c ∧
      (im.shdr i).offset.toNat + (im.shdr i).size.toNat ≤ im.data.length ∧
      im.link i < im.shnum ∧ (im.shdr (im.link i)).type = SHT_STRTAB ∧
      (im.shdr (im.link i)).offset.toNat + (im.shdr (im.link i)).size.toNat ≤ im.data.length ∧
      (im.strings (im.link i)).getLast?.all (· = 0) = true ∧
      ∀ sym ∈ im.syms i, sym.name.toNat < (im.shdr (im.link i)).size.toNat)
    ⟨fun ⟨h₁, h₂, h₃, h₄, h₅, h₆, h₇⟩ => ⟨h₁, h₂, h₃, h₄, h₅, all_eq_zero_iff.mp h₆, h₇⟩,
      fun ⟨h₁, h₂, h₃, h₄, h₅, h₆, h₇⟩ => ⟨h₁, h₂, h₃, h₄, h₅, all_eq_zero_iff.mpr h₆, h₇⟩⟩

end Image

end Mwr.Elf
