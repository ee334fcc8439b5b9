import Mwr.CodeLib.Exec
import Mwr.Elf.Nolibelf

/-!
# The reader on top of libelf

A translation of `src/mwr/utils/elf_libelf.cpp`.  The library itself is not part
of the repository: a `Libelf` holds what its accessors return for a file, with
the fields already in the byte order of the processor.

The traits of the two classes become the class as a parameter.  The functions
that this file repeats from the other reader word for word (`get_bind`,
`get_kind`, `to_phys`, `read_segment`) are the same definitions here.
-/

namespace Mwr.Elf

open Mwr.CodeLib (Bytes)
open Mwr.CodeLib.Exec

variable {c : ElfClass}

/-- What the accessors of libelf return for a file of one class. -/
structure Libelf (c : ElfClass) where
  /-- `elf_getehdr`. -/
  ehdr : Ehdr c
  /-- `elf_getphdrnum` and `elf_getphdr`. -/
  phdrs : List (Phdr c)
  /-- `elf_getshdr` of each section, from the section zero on. -/
  shdrs : List (Shdr c)
  /-- `elf_getdata` of a section, as an array of `Elf_Sym`. -/
  syms : Nat → List (Sym c)
  /-- `elf_strptr` of a section and an offset in it. -/
  strptr : BitVec 32 → BitVec 32 → Option Bytes

namespace Libelf

/-! ## Segments -/

/-- The size of the segment of `phdrs[i]`. -/
def paddedSize (phdrs : List (Phdr c)) (i : Nat) (phdr : Phdr c) : BitVec 64 :=
  let memsz := phdr.memsz.setWidth 64
  let filesz := phdr.filesz.setWidth 64
  if memsz > filesz ∧ phdrs.zipIdx.any fun other =>
      i ≠ other.2 && other.1.type = PT_LOAD && phdr.overlaps other.1 then
    filesz
  else
    memsz

/-- One round of the loop of `read_segments`, for `phdrs[i]`. -/
def readSegment (phdrs : List (Phdr c)) (phdr : Phdr c) (i : Nat) : Option Segment :=
  if phdr.type ≠ PT_LOAD then
    none
  else
    some { segmentOf phdrs i phdr with size := paddedSize phdrs i phdr }

/-- `read_segments(elf)` for the headers that libelf returns. -/
def segmentsOf (phdrs : List (Phdr c)) : List Segment :=
  phdrs.zipIdx.filterMap fun phdr => readSegment phdrs phdr.1 phdr.2

/-! ## Symbols -/

/-- One round of the loop over the entries of a symbol table. -/
def readSym (lib : Libelf c) (shdr : Shdr c) (sym : Sym c) : Option Symbol :=
  match lib.strptr shdr.link sym.name with
  | none => none
  | some str =>
    if str.length = 0 then
      none
    else
      let symbol := symbolOf sym str
      if symbol.kind ≠ .none then some symbol else none

/-- The symbols of the section `i`.  The division traps when the entries have no
size, and an index behind the data is an access outside the buffer. -/
def readSection (lib : Libelf c) (i : Nat) (shdr : Shdr c) : Except Fault (List Symbol) :=
  if shdr.type ≠ SHT_SYMTAB then
    .ok []
  else if shdr.entsize = 0 then
    .error .segfault
  else
    let numsyms := (shdr.size / shdr.entsize).toNat
    if numsyms ≤ (lib.syms i).length then
      .ok (((lib.syms i).take numsyms).filterMap (lib.readSym shdr))
    else
      .error .segfault

/-- `read_symbols(elf)`.  `elf_nextscn` starts at the section one. -/
def readSymbols (lib : Libelf c) : Except Fault (List Symbol) := do
  let tables ← (lib.shdrs.zipIdx.drop 1).mapM fun shdr => lib.readSection shdr.2 shdr.1
  return tables.flatten

/-- The part of the constructor after the library has opened the file. -/
def construct (lib : Libelf c) (bigEndian : Bool) : Except Fault ElfFile := do
  let symbols ← lib.readSymbols
  let segments := segmentsOf lib.phdrs
  return {
    entry := lib.ehdr.entry.setWidth 64
    machine := lib.ehdr.machine
    bigEndian := bigEndian
    asize := c.bits / 8
    segments := segments
    symbols := symbols.map fun sym => { sym with phys := toPhys segments sym.virt } }

/-! ## Both readers agree on the segments -/

/-- An index outside the range of a list excludes none of its elements. -/
theorem any_zipIdx_of_notMem (f : Phdr c → Bool) (i : Nat) (l : List (Phdr c)) (k : Nat)
    (h : i < k ∨ k + l.length ≤ i) :
    ((l.zipIdx k).any fun other => i ≠ other.2 && f other.1) = l.any f := by
  induction l generalizing k with
  | nil => rfl
  | cons phdr l ih =>
    have hne : i ≠ k := by
      rw [List.length_cons] at h
      omega
    have hrest : i < k + 1 ∨ k + 1 + l.length ≤ i := by
      rw [List.length_cons] at h
      omega
    rw [List.zipIdx_cons, List.any_cons, List.any_cons, ih (k + 1) hrest]
    simp [hne]

/-- The filter looks at the headers other than its own. -/
theorem any_zipIdx_ne (f : Phdr c → Bool) (pre post : List (Phdr c)) (phdr : Phdr c) :
    ((pre ++ phdr :: post).zipIdx.any fun other => pre.length ≠ other.2 && f other.1) =
      (pre ++ post).any f := by
  rw [List.zipIdx_append, List.any_append, List.zipIdx_cons, List.any_cons, List.any_append,
    any_zipIdx_of_notMem f pre.length pre 0 (by omega),
    any_zipIdx_of_notMem f pre.length post _ (by omega)]
  simp

theorem paddedSize_eq (pre post : List (Phdr c)) (phdr : Phdr c) :
    paddedSize (pre ++ phdr :: post) pre.length phdr =
      Elf.paddedSize ((pre.filter (·.type = PT_LOAD)) ++ phdr :: post.filter (·.type = PT_LOAD))
        (pre.filter (·.type = PT_LOAD)).length phdr := by
  have h1 := any_zipIdx_ne (fun other => other.type = PT_LOAD && phdr.overlaps other) pre post phdr
  have h2 := any_zipIdx_ne (fun other => phdr.overlaps other)
    (pre.filter (·.type = PT_LOAD)) (post.filter (·.type = PT_LOAD)) phdr
  rw [← List.filter_append, List.any_filter] at h2
  simp only [← Bool.and_assoc] at h1
  rw [paddedSize, Elf.paddedSize, h1, h2]

/-- The segments of the headers behind `pre`, in both readers. -/
theorem segmentsOf_from (pre post : List (Phdr c)) :
    ((post.zipIdx pre.length).filterMap fun phdr => readSegment (pre ++ post) phdr.1 phdr.2) =
      ((post.filter (·.type = PT_LOAD)).zipIdx (pre.filter (·.type = PT_LOAD)).length).map
        fun phdr => segmentOf ((pre ++ post).filter (·.type = PT_LOAD)) phdr.2 phdr.1 := by
  induction post generalizing pre with
  | nil => rfl
  | cons phdr post ih =>
    have hlist : pre ++ [phdr] ++ post = pre ++ phdr :: post := by simp
    have ih := ih (pre ++ [phdr])
    rw [hlist, List.length_append, List.length_singleton] at ih
    rw [List.zipIdx_cons, List.filterMap_cons, ih]
    by_cases htype : phdr.type = PT_LOAD
    · have hpre : (pre ++ [phdr]).filter (·.type = PT_LOAD) =
          pre.filter (·.type = PT_LOAD) ++ [phdr] := by simp [htype]
      have hpost : (phdr :: post).filter (·.type = PT_LOAD) =
          phdr :: post.filter (·.type = PT_LOAD) := by simp [htype]
      rw [hpre, hpost, List.length_append, List.length_singleton, List.zipIdx_cons, List.map_cons]
      simp only [readSegment, htype, ne_eq, not_true, if_false, paddedSize_eq]
      rw [List.filter_append, hpost]
      rfl
    · have hpre : (pre ++ [phdr]).filter (·.type = PT_LOAD) = pre.filter (·.type = PT_LOAD) := by
        simp [htype]
      have hpost : (phdr :: post).filter (·.type = PT_LOAD) = post.filter (·.type = PT_LOAD) := by
        simp [htype]
      simp only [readSegment, htype, ne_eq, not_false_eq_true, if_true, hpre, hpost]

/-- libelf's headers give the segments that the other reader gives for its
`PT_LOAD` headers. -/
theorem segmentsOf_eq (phdrs : List (Phdr c)) :
    segmentsOf phdrs = Elf.segmentsOf (phdrs.filter (·.type = PT_LOAD)) := by
  rw [Elf.segmentsOf, List.mapIdx_eq_zipIdx_map]
  exact segmentsOf_from [] phdrs

end Libelf

end Mwr.Elf
