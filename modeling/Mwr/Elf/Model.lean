import Mathlib.Data.List.Basic
import Mwr.CodeLib.ByteOrder
import Mwr.CodeLib.Exec
import Mwr.Core.Report

/-!
# ELF files

What both readers of ELF files share: the structures of
`include/mwr/utils/elf.h`, the raw structures of a file, and the calls on its
descriptor.

The two structures of one name, for the two classes of files, differ in the
width of their words and in the order of their fields.  They become one
structure with the class as a parameter.

The file is open during the whole life of the object: the descriptor is its
content and the position in it.
-/

namespace Mwr.Elf

open Mwr.CodeLib (Bytes ByteOrder)
open Mwr.CodeLib.Exec

/-! ## The structures of a file -/

/-- The class of a file. -/
inductive ElfClass where
  | elf32
  | elf64
  deriving DecidableEq, Repr

/-- The width of an address. -/
@[reducible] def ElfClass.bits : ElfClass → Nat
  | elf32 => 32
  | elf64 => 64

/-- An address, an offset or a size. -/
abbrev Word (c : ElfClass) := BitVec c.bits

/-- `ehdr32` and `ehdr64`. -/
structure Ehdr (c : ElfClass) where
  type : BitVec 16
  machine : BitVec 16
  version : BitVec 32
  entry : Word c
  phoff : Word c
  shoff : Word c
  flags : BitVec 32
  ehsize : BitVec 16
  phentsize : BitVec 16
  phnum : BitVec 16
  shentsize : BitVec 16
  shnum : BitVec 16
  shstrndx : BitVec 16
  deriving DecidableEq, Repr

/-- `phdr32` and `phdr64`. -/
structure Phdr (c : ElfClass) where
  type : BitVec 32
  flags : BitVec 32
  offset : Word c
  vaddr : Word c
  paddr : Word c
  filesz : Word c
  memsz : Word c
  align : Word c
  deriving DecidableEq, Repr

/-- `shdr32` and `shdr64`. -/
structure Shdr (c : ElfClass) where
  name : BitVec 32
  type : BitVec 32
  flags : Word c
  addr : Word c
  offset : Word c
  size : Word c
  link : BitVec 32
  info : BitVec 32
  addralign : Word c
  entsize : Word c
  deriving DecidableEq, Repr

/-- `sym32` and `sym64`. -/
structure Sym (c : ElfClass) where
  name : BitVec 32
  value : Word c
  size : Word c
  info : BitVec 8
  other : BitVec 8
  shndx : BitVec 16
  deriving DecidableEq, Repr

/-- `sizeof(EHDR)`. -/
def Ehdr.bytes : ElfClass → Nat
  | .elf32 => 36
  | .elf64 => 48

/-- The bytes of an `EHDR` in the byte order of the processor. -/
def Ehdr.decode (order : ByteOrder) : (c : ElfClass) → Bytes → Ehdr c
  | .elf32, bs =>
    { type := order.field bs 0 16
      machine := order.field bs 2 16
      version := order.field bs 4 32
      entry := order.field bs 8 32
      phoff := order.field bs 12 32
      shoff := order.field bs 16 32
      flags := order.field bs 20 32
      ehsize := order.field bs 24 16
      phentsize := order.field bs 26 16
      phnum := order.field bs 28 16
      shentsize := order.field bs 30 16
      shnum := order.field bs 32 16
      shstrndx := order.field bs 34 16 }
  | .elf64, bs =>
    { type := order.field bs 0 16
      machine := order.field bs 2 16
      version := order.field bs 4 32
      entry := order.field bs 8 64
      phoff := order.field bs 16 64
      shoff := order.field bs 24 64
      flags := order.field bs 32 32
      ehsize := order.field bs 36 16
      phentsize := order.field bs 38 16
      phnum := order.field bs 40 16
      shentsize := order.field bs 42 16
      shnum := order.field bs 44 16
      shstrndx := order.field bs 46 16 }

/-- `sizeof(phdr_t)`. -/
def Phdr.bytes : ElfClass → Nat
  | .elf32 => 32
  | .elf64 => 56

/-- The bytes of a `phdr_t` in the byte order of the processor. -/
def Phdr.decode (order : ByteOrder) : (c : ElfClass) → Bytes → Phdr c
  | .elf32, bs =>
    { type := order.field bs 0 32
      offset := order.field bs 4 32
      vaddr := order.field bs 8 32
      paddr := order.field bs 12 32
      filesz := order.field bs 16 32
      memsz := order.field bs 20 32
      flags := order.field bs 24 32
      align := order.field bs 28 32 }
  | .elf64, bs =>
    { type := order.field bs 0 32
      flags := order.field bs 4 32
      offset := order.field bs 8 64
      vaddr := order.field bs 16 64
      paddr := order.field bs 24 64
      filesz := order.field bs 32 64
      memsz := order.field bs 40 64
      align := order.field bs 48 64 }

/-- `sizeof(shdr_t)`. -/
def Shdr.bytes : ElfClass → Nat
  | .elf32 => 40
  | .elf64 => 64

/-- The bytes of a `shdr_t` in the byte order of the processor. -/
def Shdr.decode (order : ByteOrder) : (c : ElfClass) → Bytes → Shdr c
  | .elf32, bs =>
    { name := order.field bs 0 32
      type := order.field bs 4 32
      flags := order.field bs 8 32
      addr := order.field bs 12 32
      offset := order.field bs 16 32
      size := order.field bs 20 32
      link := order.field bs 24 32
      info := order.field bs 28 32
      addralign := order.field bs 32 32
      entsize := order.field bs 36 32 }
  | .elf64, bs =>
    { name := order.field bs 0 32
      type := order.field bs 4 32
      flags := order.field bs 8 64
      addr := order.field bs 16 64
      offset := order.field bs 24 64
      size := order.field bs 32 64
      link := order.field bs 40 32
      info := order.field bs 44 32
      addralign := order.field bs 48 64
      entsize := order.field bs 56 64 }

/-- `sizeof(sym_t)`. -/
def Sym.bytes : ElfClass → Nat
  | .elf32 => 16
  | .elf64 => 24

/-- The bytes of a `sym_t` in the byte order of the processor. -/
def Sym.decode (order : ByteOrder) : (c : ElfClass) → Bytes → Sym c
  | .elf32, bs =>
    { name := order.field bs 0 32
      value := order.field bs 4 32
      size := order.field bs 8 32
      info := order.field bs 12 8
      other := order.field bs 13 8
      shndx := order.field bs 14 16 }
  | .elf64, bs =>
    { name := order.field bs 0 32
      info := order.field bs 4 8
      other := order.field bs 5 8
      shndx := order.field bs 6 16
      value := order.field bs 8 64
      size := order.field bs 16 64 }

def PT_LOAD : BitVec 32 := 1
def PF_R : BitVec 32 := 4
def PF_W : BitVec 32 := 2
def PF_X : BitVec 32 := 1
def SHT_SYMTAB : BitVec 32 := 2

/-! ## What the object holds -/

/-- `enum elf_sym_bind`. -/
inductive SymBind where
  | local
  | global
  | weak
  deriving DecidableEq, Repr

/-- `enum elf_sym_kind`. -/
inductive SymKind where
  | unknown
  | object
  | common
  | tls
  | func
  | none
  deriving DecidableEq, Repr

/-- `struct symbol`. -/
structure Symbol where
  virt : BitVec 64
  phys : BitVec 64
  size : BitVec 64
  name : Bytes
  kind : SymKind
  bind : SymBind
  deriving DecidableEq, Repr

/-- `struct segment`. -/
structure Segment where
  virt : BitVec 64
  phys : BitVec 64
  size : BitVec 64
  filesz : BitVec 64
  offset : BitVec 64
  r : Bool
  w : Bool
  x : Bool
  deriving DecidableEq, Repr

/-- The members of an `elf`; `asize` is four or eight. -/
structure ElfFile where
  entry : BitVec 64
  machine : BitVec 16
  bigEndian : Bool
  asize : Nat
  symbols : List Symbol
  segments : List Segment
  deriving DecidableEq, Repr

/-- `get_bind(info)`; the macros of libelf shift and compare in the same way. -/
def getBind (info : BitVec 8) : SymBind :=
  match (info >>> 4).toNat with
  | 1 => .global
  | 2 => .weak
  | _ => .local

/-- `get_kind(info)`. -/
def getKind (info : BitVec 8) : SymKind :=
  match (info &&& 0xf).toNat with
  | 0 => .unknown
  | 1 => .object
  | 2 => .func
  | 5 => .common
  | 6 => .tls
  | _ => .none

/-- `to_phys(virt)` for a list of segments. -/
def toPhys (segments : List Segment) (virt : BitVec 64) : BitVec 64 :=
  match segments with
  | [] => virt
  | seg :: segments =>
    if virt ≥ seg.virt ∧ virt < seg.virt + seg.size then
      seg.phys + virt - seg.virt
    else
      toPhys segments virt

/-- `find_symbol(name)`. -/
def ElfFile.findSymbol (self : ElfFile) (name : Bytes) : Option Symbol :=
  self.symbols.find? fun sym => sym.name = name

/-! ## The descriptor -/

/-- An open file: its content and the position of the next read. -/
structure File where
  data : Bytes
  pos : Nat
  deriving DecidableEq, Repr

/-- A computation that reads from the file, or aborts. -/
abbrev Fd (α : Type) := StateT File (Except Fault) α

/-- `MWR_ERROR(message)`. -/
def abort {α : Type} (message : String) : Fd α :=
  throw (.error message)

/-- `fd_seek(fd, pos)`.  An offset that is negative as an `off_t` is refused with
`-1`. -/
def fdSeek (pos : BitVec 64) : Fd (BitVec 64) := do
  if pos.toNat < 2 ^ 63 then
    modify fun file => { file with pos := pos.toNat }
    return pos
  else
    return -1

/-- `fd_read(fd, buffer, buflen)`: the bytes that are left, up to `buflen`. -/
def fdRead (buflen : Nat) : Fd Bytes := do
  let file ← get
  let bytes := (file.data.drop file.pos).take buflen
  set { file with pos := file.pos + bytes.length }
  return bytes

/-- `if (fd_seek(fd, offset) != offset) MWR_ERROR(message)`. -/
def seekTo (offset : BitVec 64) (message : String) : Fd Unit := do
  let pos ← fdSeek offset
  if pos ≠ offset then
    abort message

/-- `if (fd_read(fd, buffer, size) != size) MWR_ERROR(message)`. -/
def readExactly (size : Nat) (message : String) : Fd Bytes := do
  let bytes ← fdRead size
  if bytes.length ≠ size then
    abort message
  else
    return bytes

theorem seekTo_run {offset : BitVec 64} (hlt : offset.toNat < 2 ^ 63) (message : String)
    (file : File) :
    (seekTo offset message).run file = .ok ((), { file with pos := offset.toNat }) := by
  have hseek : (fdSeek offset).run file = .ok (offset, { file with pos := offset.toNat }) := by
    rw [fdSeek, if_pos hlt]
    rfl
  rw [seekTo, run_bind_of_ok hseek, if_neg (not_not.mpr rfl)]
  rfl

/-- An offset that cannot be reached is noticed, except for `-1`. -/
theorem seekTo_run_error {offset : BitVec 64} (hge : ¬ offset.toNat < 2 ^ 63)
    (hne : offset ≠ -1) (message : String) (file : File) :
    (seekTo offset message).run file = .error (.error message) := by
  have hseek : (fdSeek offset).run file = .ok (-1, file) := by
    rw [fdSeek, if_neg hge]
    rfl
  rw [seekTo, run_bind_of_ok hseek, if_pos hne.symm]
  rfl

theorem readExactly_run {size : Nat} {file : File}
    (h : ((file.data.drop file.pos).take size).length = size) (message : String) :
    (readExactly size message).run file =
      .ok ((file.data.drop file.pos).take size, { file with pos := file.pos + size }) := by
  have hread : (fdRead size).run file =
      .ok ((file.data.drop file.pos).take size,
        { file with pos := file.pos + ((file.data.drop file.pos).take size).length }) := rfl
  rw [readExactly, run_bind_of_ok hread, if_neg (not_not.mpr h), h]
  rfl

theorem readExactly_run_error {size : Nat} {file : File}
    (h : ((file.data.drop file.pos).take size).length ≠ size) (message : String) :
    (readExactly size message).run file = .error (.error message) := by
  have hread : (fdRead size).run file =
      .ok ((file.data.drop file.pos).take size,
        { file with pos := file.pos + ((file.data.drop file.pos).take size).length }) := rfl
  rw [readExactly, run_bind_of_ok hread, if_pos h]
  rfl

/-- `read_segment(seg, dest)`: the bytes that it stores from `dest` on. -/
def readSegment (seg : Segment) : Fd Bytes := do
  seekTo seg.offset "cannot seek within ELF file"
  let bytes ← readExactly seg.filesz.toNat "cannot read ELF file"
  seekTo 0 "cannot seek within ELF file"
  if seg.filesz < seg.size then
    return bytes ++ List.replicate (seg.size - seg.filesz).toNat 0
  else
    return bytes

end Mwr.Elf
