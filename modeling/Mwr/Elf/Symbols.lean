import Mwr.Elf.Encoding
import Mwr.Elf.Libelf

/-!
# Both readers and the symbols

Only one of the two readers is part of a build.  For a little-endian image the reader
without libelf keeps every entry of the symbol tables whose kind it knows
(`openElf_of_accepted`), the reader on top of libelf only those that also have a name
(`Libelf.readSymbols_eq`).  Their physical addresses come from the segments of the
program headers that the reader sees.

* `SymbolsAlike` is the condition for both lists to be the same.
* `symbolsAgree_iff` is the result for every well-formed little-endian image, and
  `not_symbolsAgree_of_unnamed` the consequence for the table that starts with the
  empty entry the format asks for.
-/

namespace Mwr.Elf

open Mwr.CodeLib (Bytes ByteOrder)
open Mwr.CodeLib.Exec

variable {c : ElfClass}

/-- The accessors return the parts of the image. -/
structure Libelf.Returns (lib : Libelf c) (im : Image c) : Prop where
  phdrs : lib.phdrs = im.phdrs im.phnum
  shdrs : lib.shdrs = im.shdrs im.shnum
  syms : ∀ i < im.shnum, (im.shdr i).type = SHT_SYMTAB → lib.syms i = im.syms i
  strptr : ∀ link off, link.toNat < im.shnum → (im.shdr link.toNat).type = SHT_STRTAB →
    off.toNat < (im.shdr link.toNat).size.toNat →
      lib.strptr link off = some (stringAt (im.strings link.toNat) off.toNat)

namespace Image

/-- The entries of all symbol tables, of a kind that the object keeps. -/
def symbols (im : Image c) : List Symbol := (List.range im.shnum).flatMap im.sectionSymbols

/-- Accessors that return the parts of the image. -/
def libelf (im : Image c) : Libelf c where
  ehdr := im.ehdr
  phdrs := im.phdrs im.phnum
  shdrs := im.shdrs im.shnum
  syms := im.syms
  strptr link off :=
    if link.toNat < im.shnum ∧ (im.shdr link.toNat).type = SHT_STRTAB ∧
        off.toNat < (im.shdr link.toNat).size.toNat then
      some (stringAt (im.strings link.toNat) off.toNat)
    else
      none

theorem libelf_returns (im : Image c) : im.libelf.Returns im where
  phdrs := rfl
  shdrs := rfl
  syms := fun _ _ _ => rfl
  strptr := fun _ _ hlt htype hoff => if_pos ⟨hlt, htype, hoff⟩

/-- The physical address of a symbol, by the first `n` program headers. -/
def physOf (im : Image c) (n : Nat) (sym : Symbol) : BitVec 64 :=
  toPhys (segmentsOf (im.loads n)) sym.virt

/-- Both constructors succeed and list the same symbols. -/
def SymbolsAgree (im : Image c) (lib : Libelf c) (filename : Bytes) : Prop :=
  ∃ elf file elf', openElf .little filename (some im.data) = .ok (elf, file) ∧
    lib.construct (im.data[5]? = some 2) = .ok elf' ∧ elf.symbols = elf'.symbols

/-- What has to hold for both lists to be the same.  The reader without libelf finds no
section at all when their number does not fit the header. -/
def SymbolsAlike (im : Image c) : Prop :=
  if im.ehdr.shnum = 0 ∧ im.ehdr.shoff ≠ 0 then
    ∀ sym ∈ im.symbols, sym.name = []
  else
    ∀ sym ∈ im.symbols, sym.name ≠ [] ∧
      im.physOf im.ehdr.phnum.toNat sym = im.physOf im.phnum sym

end Image

/-! ## The symbols of libelf -/

namespace Libelf

variable {lib : Libelf c} {im : Image c}

/-- The entries of a symbol table that have a name. -/
theorem filterMap_readSym {shdr : Shdr c} {strtab : Bytes} {syms : List (Sym c)}
    (h : ∀ sym ∈ syms, lib.strptr shdr.link sym.name = some (stringAt strtab sym.name.toNat)) :
    syms.filterMap (lib.readSym shdr) =
      (tableSymbols strtab syms).filter (·.name ≠ []) := by
  induction syms with
  | nil => rfl
  | cons sym syms ih =>
    have hstr := h sym List.mem_cons_self
    have ih := ih fun sym' hsym' => h sym' (List.mem_cons_of_mem sym hsym')
    have hread : lib.readSym shdr sym =
        if (stringAt strtab sym.name.toNat).length = 0 then none
        else if getKind sym.info ≠ .none then
          some (symbolOf sym (stringAt strtab sym.name.toNat)) else none := by
      rw [readSym, hstr]
      rfl
    have hcons : tableSymbols strtab (sym :: syms) =
        if getKind sym.info ≠ .none then
          symbolOf sym (stringAt strtab sym.name.toNat) :: tableSymbols strtab syms
        else tableSymbols strtab syms := tableSymbols_cons strtab sym syms
    rw [List.filterMap_cons, hread, hcons, ih]
    by_cases hname : stringAt strtab sym.name.toNat = [] <;>
      by_cases hkind : getKind sym.info = .none <;>
        simp [hname, hkind, symbolOf]

theorem readSection_eq (hlib : lib.Returns im) (h : im.WellFormed) {i : Nat} (hi : i < im.shnum) :
    lib.readSection i (im.shdr i) = .ok ((im.sectionSymbols i).filter (·.name ≠ [])) := by
  by_cases htype : (im.shdr i).type = SHT_SYMTAB
  · have htab := h.symtabs i hi htype
    have hentsize : (im.shdr i).entsize ≠ 0 := by
      intro hzero
      have hbytes := htab.entsize
      rw [hzero] at hbytes
      cases c <;> cases hbytes
    have hcount : ((im.shdr i).size / (im.shdr i).entsize).toNat = im.symCount i := by
      rw [BitVec.toNat_udiv, htab.entsize]
      rfl
    have hlength : (im.syms i).length = im.symCount i := by
      rw [Image.syms, decodeSyms, List.length_map, List.length_range]
    have hstrings : ∀ sym ∈ im.syms i, lib.strptr (im.shdr i).link sym.name =
        some (stringAt (im.strings (im.link i)) sym.name.toNat) := fun sym hsym =>
      hlib.strptr _ _ htab.link_lt htab.link_type (htab.names_lt sym hsym)
    rw [readSection, if_neg (not_not.mpr htype), if_neg hentsize, hcount,
      hlib.syms i hi htype, if_pos (Nat.le_of_eq hlength.symm), ← hlength, List.take_length,
      filterMap_readSym hstrings, Image.sectionSymbols, if_pos htype]
    rfl
  · rw [readSection, if_pos htype, Image.sectionSymbols, if_neg htype]
    rfl

/-- The section zero has no symbols. -/
theorem sectionSymbols_zero (h : im.WellFormed) (hne : im.shnum ≠ 0) :
    im.sectionSymbols 0 = [] := by
  rw [Image.sectionSymbols, h.shdr_zero hne]
  rfl

/-- libelf's reader lists the symbols that have a name. -/
theorem readSymbols_eq (hlib : lib.Returns im) (h : im.WellFormed) :
    lib.readSymbols = .ok (im.symbols.filter (·.name ≠ [])) := by
  have hzip : lib.shdrs.zipIdx.map Prod.snd = List.range im.shnum := by
    rw [List.zipIdx_map_snd, hlib.shdrs, Image.shdrs, List.length_map, List.length_range,
      List.range_eq_range']
  have hround : ∀ shdr ∈ lib.shdrs.zipIdx.drop 1, lib.readSection shdr.2 shdr.1 =
      .ok ((im.sectionSymbols shdr.2).filter (·.name ≠ [])) := by
    rintro ⟨shdr, i⟩ hmem
    have hget := List.mem_zipIdx_iff_getElem?.mp (List.mem_of_mem_drop hmem)
    rw [hlib.shdrs, Image.shdrs, List.getElem?_map, Option.map_eq_some_iff] at hget
    rcases hget with ⟨j, hj, hshdr⟩
    rcases List.getElem?_eq_some_iff.mp hj with ⟨hlt, hij⟩
    rw [List.length_range] at hlt
    rw [List.getElem_range] at hij
    rcases hij with rfl
    show lib.readSection i shdr = .ok ((im.sectionSymbols i).filter (·.name ≠ []))
    rw [← show im.shdr i = shdr from hshdr]
    exact readSection_eq hlib h hlt
  have htables : (lib.shdrs.zipIdx.drop 1).map
        (fun shdr => (im.sectionSymbols shdr.2).filter (·.name ≠ [])) =
      ((List.range im.shnum).drop 1).map
        (fun i => (im.sectionSymbols i).filter (·.name ≠ [])) := by
    rw [← hzip, ← List.map_drop, List.map_map]
    rfl
  have hall : (((List.range im.shnum).drop 1).map
      (fun i => (im.sectionSymbols i).filter (·.name ≠ []))).flatten =
        im.symbols.filter (·.name ≠ []) := by
    rw [Image.symbols, List.filter_flatMap, ← List.flatMap_def]
    cases hn : im.shnum with
    | zero => rfl
    | succ n =>
      rw [List.range_succ_eq_map, List.drop_one, List.tail_cons, List.flatMap_cons,
        sectionSymbols_zero h (by omega)]
      rfl
  rw [readSymbols, mapM_ok hround, ok_bind, htables, hall]
  rfl

end Libelf

/-! ## Both lists -/

/-- A list is not changed by a filter only if the filter keeps all of it. -/
theorem map_eq_map_filter {α β : Type} {p : α → Bool} {f g : α → β} {l : List α} :
    l.map f = (l.filter p).map g ↔ ∀ a ∈ l, p a = true ∧ f a = g a := by
  constructor
  · intro heq
    have hlength := congrArg List.length heq
    rw [List.length_map, List.length_map] at hlength
    have hall := List.length_filter_eq_length_iff.mp hlength.symm
    rw [List.filter_eq_self.mpr hall] at heq
    exact fun a ha => ⟨hall a ha, List.map_inj_left.mp heq a ha⟩
  · intro h
    rw [List.filter_eq_self.mpr fun a ha => (h a ha).1]
    exact List.map_inj_left.mpr fun a ha => (h a ha).2

namespace Image

variable {im : Image c} {lib : Libelf c}

/-- The object of libelf's reader. -/
theorem construct_symbols (hlib : lib.Returns im) (h : im.WellFormed) (bigEndian : Bool) :
    ∃ elf, lib.construct bigEndian = .ok elf ∧
      elf.symbols = (im.symbols.filter (·.name ≠ [])).map fun sym =>
        { sym with phys := im.physOf im.phnum sym } := by
  rw [Libelf.construct, Libelf.readSymbols_eq hlib h, ok_bind, Libelf.segmentsOf_eq, hlib.phdrs]
  exact ⟨_, rfl, rfl⟩

/-- Both constructors succeed, so that only the lists matter. -/
theorem symbolsAgree_iff_lists (h : im.WellFormed) (horder : im.order = .little)
    (hlib : lib.Returns im) (filename : Bytes) :
    im.SymbolsAgree lib filename ↔
      ((List.range im.ehdr.shnum.toNat).flatMap im.sectionSymbols).map
          (fun sym => { sym with phys := im.physOf im.ehdr.phnum.toNat sym }) =
        (im.symbols.filter (·.name ≠ [])).map
          fun sym => { sym with phys := im.physOf im.phnum sym } := by
  have hhost : im.host = im := by
    rw [host, ← horder]
  have hident : im.Identified := hhost ▸ h.identified
  rcases openElf_of_accepted h.length_lt hident h.accepted filename with ⟨file, hopen⟩
  rcases construct_symbols hlib h (im.data[5]? = some 2) with ⟨elf', hconstruct, hsymbols⟩
  rw [horder] at hopen
  rw [← hsymbols]
  constructor
  · rintro ⟨elf₁, file₁, elf₂, hopen₁, hconstruct₂, hsame⟩
    cases hopen.symm.trans hopen₁
    cases hconstruct.symm.trans hconstruct₂
    exact hsame
  · exact fun hsame => ⟨_, file, elf', hopen, hconstruct, hsame⟩

/-- The readers list the same symbols exactly if each entry of a kind that they keep has
a name and gets the same address. -/
theorem symbolsAgree_iff (h : im.WellFormed) (horder : im.order = .little)
    (hlib : lib.Returns im) (filename : Bytes) :
    im.SymbolsAgree lib filename ↔ im.SymbolsAlike := by
  rw [symbolsAgree_iff_lists h horder hlib, SymbolsAlike]
  by_cases hmany : im.ehdr.shnum = 0 ∧ im.ehdr.shoff ≠ 0
  · rw [if_pos hmany, hmany.1]
    -- no section is read here
    show [] = _ ↔ _
    rw [eq_comm, List.map_eq_nil_iff, List.filter_eq_nil_iff]
    simp
  · have hcount : im.shnum = im.ehdr.shnum.toNat := by
      rw [shnum, if_neg hmany]
    have hphys : ∀ sym : Symbol,
        ({ sym with phys := im.physOf im.ehdr.phnum.toNat sym } : Symbol) =
            { sym with phys := im.physOf im.phnum sym } ↔
          im.physOf im.ehdr.phnum.toNat sym = im.physOf im.phnum sym := fun sym =>
      ⟨fun heq => congrArg Symbol.phys heq, fun heq => by rw [heq]⟩
    rw [if_neg hmany, ← hcount]
    show im.symbols.map _ = _ ↔ _
    rw [map_eq_map_filter]
    simp only [hphys, decide_eq_true_eq]

/-- A file with the header of the file, a symbol table of one entry, and its strings. -/
def symImage (entry : Bytes) : Image .elf32 where
  order := .little
  data := [0x7f, 0x45, 0x4c, 0x46, 1, 1, 1, 0, 0, 0, 0, 0, 0, 0, 0, 0,
      2, 0, 40, 0, 1, 0, 0, 0, 0, 0x10, 0, 0, 0, 0, 0, 0, 52, 0, 0, 0, 0, 0, 0, 0,
      52, 0, 32, 0, 0, 0, 40, 0, 3, 0, 0, 0] ++
    List.replicate 40 0 ++
    [0, 0, 0, 0, 2, 0, 0, 0, 0, 0, 0, 0, 0, 0, 0, 0, 172, 0, 0, 0, 16, 0, 0, 0,
      2, 0, 0, 0, 0, 0, 0, 0, 0, 0, 0, 0, 16, 0, 0, 0] ++
    [0, 0, 0, 0, 3, 0, 0, 0, 0, 0, 0, 0, 0, 0, 0, 0, 188, 0, 0, 0, 6, 0, 0, 0,
      0, 0, 0, 0, 0, 0, 0, 0, 0, 0, 0, 0, 0, 0, 0, 0] ++
    entry ++ [0] ++ Bytes.str "main" ++ [0]

/-- The global function `main` at `0x1000`. -/
def mainImage : Image .elf32 :=
  symImage [1, 0, 0, 0, 0, 0x10, 0, 0, 4, 0, 0, 0, 0x12, 0, 1, 0]

theorem mainImage_wellFormed : mainImage.WellFormed := by
  constructor <;> decide +kernel

theorem symbolsAgree_mainImage : mainImage.SymbolsAgree mainImage.libelf (Bytes.str "a.elf") := by
  have halike : ∀ sym ∈ mainImage.symbols, sym.name ≠ [] ∧
      mainImage.physOf mainImage.ehdr.phnum.toNat sym = mainImage.physOf mainImage.phnum sym := by
    decide +kernel
  refine (symbolsAgree_iff mainImage_wellFormed rfl (libelf_returns _) _).mpr ?_
  rw [SymbolsAlike, if_neg (by decide)]
  exact halike

/-- The empty entry that every symbol table starts with. -/
def emptyImage : Image .elf32 := symImage (List.replicate 16 0)

/-- Only the reader without libelf lists the empty entry. -/
theorem emptyImage_disagrees :
    emptyImage.WellFormed ∧ emptyImage.order = .little ∧ emptyImage.libelf.Returns emptyImage ∧
      (openElf .little (Bytes.str "a.elf") (some emptyImage.data)).map (·.1.symbols) =
        .ok [{ virt := 0, phys := 0, size := 0, name := [], kind := .unknown, bind := .local }] ∧
      (emptyImage.libelf.construct false).map (·.symbols) = .ok [] ∧
      ¬ emptyImage.SymbolsAgree emptyImage.libelf (Bytes.str "a.elf") := by
  have hopen : (openElf .little (Bytes.str "a.elf") (some emptyImage.data)).map (·.1.symbols) =
      .ok [{ virt := 0, phys := 0, size := 0, name := [], kind := .unknown, bind := .local }] := by
    decide +kernel
  have hlibelf : (emptyImage.libelf.construct false).map (·.symbols) = .ok [] := by
    decide +kernel
  refine ⟨by constructor <;> decide +kernel, rfl, libelf_returns _, hopen, hlibelf, ?_⟩
  rintro ⟨elf, file, elf', hopen', hlibelf', hsame⟩
  have hbig : (emptyImage.data[5]? = some 2 : Bool) = false := by decide
  rw [hbig] at hlibelf'
  rw [hopen'] at hopen
  rw [hlibelf'] at hlibelf
  have hone : elf.symbols.length = 1 := congrArg List.length (Except.ok.inj hopen)
  have hnone : elf'.symbols.length = 0 := congrArg List.length (Except.ok.inj hlibelf)
  rw [hsame] at hone
  omega

/-- A kept entry without a name, in a section that both readers see, sets them apart. -/
theorem not_symbolsAgree_of_unnamed (h : im.WellFormed) (horder : im.order = .little)
    (hlib : lib.Returns im) {i : Nat} (hi : i < im.ehdr.shnum.toNat)
    (hsym : ∃ sym ∈ im.sectionSymbols i, sym.name = []) (filename : Bytes) :
    ¬ im.SymbolsAgree lib filename := by
  rw [symbolsAgree_iff h horder hlib, SymbolsAlike]
  rcases hsym with ⟨sym, hmem, hname⟩
  have hne : im.ehdr.shnum ≠ 0 := fun hzero => by
    rw [hzero] at hi
    cases hi
  rw [if_neg fun hmany => hne hmany.1]
  intro hnamed
  refine (hnamed sym ?_).1 hname
  rw [symbols, shnum_eq hne]
  exact List.mem_flatMap.mpr ⟨i, List.mem_range.mpr hi, hmem⟩

end Image

end Mwr.Elf
