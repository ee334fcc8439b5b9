import Mwr.Elf.Model

/-!
# The reader without libelf

A translation of `src/mwr/utils/elf_nolibelf.cpp`.  It reads the headers of the
file as raw structures, so that their fields come out in the byte order of the
`host`.  The templates over `EHDR` become functions of the class of the file.
-/

namespace Mwr.Elf

open Mwr.CodeLib (Bytes ByteOrder)

variable {c : ElfClass}

/-! ## Segments -/

/-- The program header `i`, read at `hdr.phoff + i * sizeof(phdr_t)`. -/
def readPhdr (host : ByteOrder) (hdr : Ehdr c) (i : Nat) : Fd (Phdr c) := do
  let offset := hdr.phoff.setWidth 64 + BitVec.ofNat 64 i * BitVec.ofNat 64 (Phdr.bytes c)
  seekTo offset ("cannot find elf program header " ++ toString i)
  let bytes ← readExactly (Phdr.bytes c) ("eof while reading program header " ++ toString i)
  return Phdr.decode host c bytes

/-- The comparison of the padding of `phdr` with the one of `other`.  The ends of
`other` are sums of the width of a header word. -/
def Phdr.overlaps (phdr other : Phdr c) : Bool :=
  let s0 := phdr.paddr.setWidth 64 + phdr.filesz.setWidth 64
  let e0 := phdr.paddr.setWidth 64 + phdr.memsz.setWidth 64
  let s1 : BitVec 64 := (other.paddr + other.filesz).setWidth 64
  let e1 : BitVec 64 := (other.paddr + other.memsz).setWidth 64
  s1 < e0 && s0 < e1

/-- The size of the segment of `phdrs[i]`: the padding is left out when it would
overlap the one of another header. -/
def paddedSize (phdrs : List (Phdr c)) (i : Nat) (phdr : Phdr c) : BitVec 64 :=
  let memsz := phdr.memsz.setWidth 64
  let filesz := phdr.filesz.setWidth 64
  if memsz > filesz ∧ phdrs.zipIdx.any fun other => i ≠ other.2 && phdr.overlaps other.1 then
    filesz
  else
    memsz

/-- The segment of `phdrs[i]`. -/
def segmentOf (phdrs : List (Phdr c)) (i : Nat) (phdr : Phdr c) : Segment where
  virt := phdr.vaddr.setWidth 64
  phys := phdr.paddr.setWidth 64
  size := paddedSize phdrs i phdr
  filesz := phdr.filesz.setWidth 64
  offset := phdr.offset.setWidth 64
  r := phdr.flags &&& PF_R ≠ 0
  w := phdr.flags &&& PF_W ≠ 0
  x := phdr.flags &&& PF_X ≠ 0

/-- The second loop of `read_segments`, over the `PT_LOAD` headers. -/
def segmentsOf (phdrs : List (Phdr c)) : List Segment :=
  phdrs.mapIdx (segmentOf phdrs)

/-- `read_segments(fd, hdr)`. -/
def readSegments (host : ByteOrder) (hdr : Ehdr c) : Fd (List Segment) := do
  let phdrs ← (List.range hdr.phnum.toNat).mapM (readPhdr host hdr)
  return segmentsOf (phdrs.filter (·.type = PT_LOAD))

/-! ## Symbols -/

/-- The section header `i`, read at `hdr.shoff + i * sizeof(shdr_t)`. -/
def readShdr (host : ByteOrder) (hdr : Ehdr c) (i : BitVec 64) (nowhere eof : String) :
    Fd (Shdr c) := do
  let offset := hdr.shoff.setWidth 64 + i * BitVec.ofNat 64 (Shdr.bytes c)
  seekTo offset nowhere
  let bytes ← readExactly (Shdr.bytes c) eof
  return Shdr.decode host c bytes

/-- The constructor of `strings`: the data of the section `idx`. -/
def readStrings (host : ByteOrder) (hdr : Ehdr c) (idx : BitVec 64) : Fd Bytes := do
  let shdr ← readShdr host hdr idx "cannot find string table header"
    "EOF while reading string table header"
  seekTo (shdr.offset.setWidth 64) "cannot find string table"
  readExactly shdr.size.toNat "failed to read string table"

/-- `strings::get(idx)`: the bytes up to the next null. -/
def getString (data : Bytes) (idx : BitVec 32) : Fd Bytes :=
  if idx.toNat ≥ data.length then
    abort "string index out of bounds"
  else
    return (data.drop idx.toNat).takeWhile (· ≠ 0)

/-- The entries of a symbol table. -/
def decodeSyms (host : ByteOrder) (c : ElfClass) (bytes : Bytes) (count : Nat) : List (Sym c) :=
  (List.range count).map fun i =>
    Sym.decode host c ((bytes.drop (i * Sym.bytes c)).take (Sym.bytes c))

/-- The symbol of an entry; its physical address is patched later. -/
def symbolOf (sym : Sym c) (name : Bytes) : Symbol where
  size := sym.size.setWidth 64
  virt := sym.value.setWidth 64
  phys := -1
  kind := getKind sym.info
  bind := getBind sym.info
  name := name

/-- The loop over the entries of one symbol table. -/
def readTable (strtab : Bytes) : List (Sym c) → Fd (List Symbol)
  | [] => return []
  | sym :: syms => do
    let symbol := symbolOf sym (← getString strtab sym.name)
    let rest ← readTable strtab syms
    return if symbol.kind ≠ .none then symbol :: rest else rest

/-- The symbols of the section `i`. -/
def readSection (host : ByteOrder) (hdr : Ehdr c) (i : Nat) : Fd (List Symbol) := do
  let shdr ← readShdr host hdr (BitVec.ofNat 64 i)
    ("cannot find elf program header " ++ toString i)
    ("EOF while reading section header " ++ toString i)
  if shdr.type ≠ SHT_SYMTAB then
    return []
  else
    seekTo (shdr.offset.setWidth 64) "cannot find symbols table"
    let count := shdr.size.toNat / Sym.bytes c
    let bytes ← readExactly (count * Sym.bytes c) "EOF while reading symbol table"
    let strtab ← readStrings host hdr (shdr.link.setWidth 64)
    readTable strtab (decodeSyms host c bytes count)

/-- `read_symbols(fd, hdr)`. -/
def readSymbols (host : ByteOrder) (hdr : Ehdr c) : Fd (List Symbol) := do
  let tables ← (List.range hdr.shnum.toNat).mapM (readSection host hdr)
  return tables.flatten

/-! ## The constructor -/

/-- The part of the constructor for one class. -/
def construct (host : ByteOrder) (filename : Bytes) (c : ElfClass) (bigEndian : Bool) :
    Fd ElfFile := do
  let bytes ← readExactly (Ehdr.bytes c)
    ("EOF while reading elf header in '" ++ Bytes.text filename ++ "'")
  let hdr := Ehdr.decode host c bytes
  let segments ← readSegments host hdr
  let symbols ← readSymbols host hdr
  return {
    entry := hdr.entry.setWidth 64
    machine := hdr.machine
    bigEndian := bigEndian
    asize := c.bits / 8
    segments := segments
    symbols := symbols.map fun sym => { sym with phys := toPhys segments sym.virt } }

/-- The constructor `elf(path)` of an open file. -/
def elf (host : ByteOrder) (filename : Bytes) : Fd ElfFile := do
  let ident ← readExactly 16 ("early EOF while reading '" ++ Bytes.text filename ++ "'")
  if ident.take 4 ≠ [0x7f, 'E'.toUInt8, 'L'.toUInt8, 'F'.toUInt8] then
    abort ("not an elf file: '" ++ Bytes.text filename ++ "'")
  else
    let bigEndian := ident[5]? = some 2
    if ident[4]? = some 2 then
      construct host filename .elf64 bigEndian
    else
      construct host filename .elf32 bigEndian

/-- The constructor, for a file that may not open. -/
def openElf (host : ByteOrder) (filename : Bytes) (content : Option Bytes) :
    Except Fault (ElfFile × File) :=
  match content with
  | none => .error (.error ("cannot open elf file '" ++ Bytes.text filename ++ "'"))
  | some data => (elf host filename).run { data := data, pos := 0 }

end Mwr.Elf
