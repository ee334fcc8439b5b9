import Mwr.Elf.Symbols

/-!
# Both readers

A program is built with one of the two readers.  For an image in the byte order of the host whose
numbers of headers fit the header of the file, a program cannot tell which one it is from anything
but the entries of `symbols()` without a name.

* `find?_filter_named` compares two searches for a name.
* `readers_agree` is the result: the members of both objects, and every search for a name.
-/

namespace Mwr.Elf

open Mwr.CodeLib (Bytes)
open Mwr.CodeLib.Exec

variable {c : ElfClass}

/-- A search for a name does not see the entries without one. -/
theorem find?_filter_named (symbols : List Symbol) {name : Bytes} (hname : name ≠ []) :
    (symbols.filter (·.name ≠ [])).find? (fun sym => sym.name = name) =
      symbols.find? fun sym => sym.name = name := by
  induction symbols with
  | nil => rfl
  | cons sym symbols ih =>
    by_cases hempty : sym.name = []
    · have hne : sym.name ≠ name := fun heq => hname (heq.symm.trans hempty)
      rw [List.filter_cons_of_neg (by simpa using hempty), ih, List.find?_cons_of_neg]
      simpa using hne
    · rw [List.filter_cons_of_pos (by simpa using hempty), List.find?_cons, List.find?_cons, ih]

namespace Image

variable {im : Image c} {lib : Libelf c}

/-- Both constructors succeed on a well-formed image that has the byte order of the host, and their
objects have the same entry point, machine, byte order, class and segments.  The one of libelf lists
the symbols of the other one that have a name, and both find the same symbol under every name. -/
theorem readers_agree (h : im.WellFormed) (hlib : lib.Returns im) (hehdr : lib.ehdr = im.ehdr)
    (hphnum : im.ehdr.phnum ≠ PN_XNUM) (hshnum : ¬ (im.ehdr.shnum = 0 ∧ im.ehdr.shoff ≠ 0))
    (filename : Bytes) :
    ∃ elf file elf', openElf im.order filename (some im.data) = .ok (elf, file) ∧
      lib.construct (im.data[5]? = some 2) = .ok elf' ∧
      elf'.entry = elf.entry ∧ elf'.machine = elf.machine ∧ elf'.bigEndian = elf.bigEndian ∧
      elf'.asize = elf.asize ∧ elf'.segments = elf.segments ∧
      elf'.symbols = elf.symbols.filter (·.name ≠ []) ∧
      ∀ name, name ≠ [] → elf'.findSymbol name = elf.findSymbol name := by
  have hident : im.Identified := ⟨h.identified.magic, h.identified.elfClass⟩
  obtain ⟨file, hopen⟩ := openElf_of_accepted h.length_lt hident h.accepted filename
  have hphdrs : lib.phdrs = im.phdrs im.ehdr.phnum.toNat := by
    rw [hlib.phdrs, phnum, if_neg hphnum]
  have hcount : im.shnum = im.ehdr.shnum.toNat := by
    rw [shnum, if_neg hshnum]
  have hsegments : Libelf.segmentsOf lib.phdrs =
      segmentsOf ((im.phdrs im.ehdr.phnum.toNat).filter (·.type = PT_LOAD)) := by
    rw [Libelf.segmentsOf_eq, hphdrs]
  have hconstruct : ∃ elf', lib.construct (im.data[5]? = some 2) = .ok elf' ∧
      elf' = { im.toElf (im.data[5]? = some 2) with
        symbols := (im.toElf (im.data[5]? = some 2)).symbols.filter (·.name ≠ []) } := by
    rw [Libelf.construct, Libelf.readSymbols_eq hlib h, ok_bind, hsegments, hehdr]
    refine ⟨_, rfl, ?_⟩
    -- an address that is filled in does not change a name
    unfold toElf symbols
    rw [hcount]
    dsimp only
    rw [List.filter_map]
    rfl
  obtain ⟨elf', hconstruct, heq⟩ := hconstruct
  refine ⟨_, file, elf', hopen, hconstruct, ?_⟩
  rw [heq]
  exact ⟨rfl, rfl, rfl, rfl, rfl, rfl, fun name hname => find?_filter_named _ hname⟩

/-- A file with a segment, and with the function `main` behind the empty entry of its symbol
table. -/
def bothImage : Image .elf32 where
  order := .little
  data := [0x7f, 0x45, 0x4c, 0x46, 1, 1, 1, 0, 0, 0, 0, 0, 0, 0, 0, 0,
      2, 0, 40, 0, 1, 0, 0, 0, 0, 0x10, 0, 0, 212, 0, 0, 0, 52, 0, 0, 0, 0, 0, 0, 0,
      52, 0, 32, 0, 1, 0, 40, 0, 3, 0, 0, 0] ++
    List.replicate 40 0 ++
    [0, 0, 0, 0, 2, 0, 0, 0, 0, 0, 0, 0, 0, 0, 0, 0, 172, 0, 0, 0, 32, 0, 0, 0,
      2, 0, 0, 0, 0, 0, 0, 0, 0, 0, 0, 0, 16, 0, 0, 0] ++
    [0, 0, 0, 0, 3, 0, 0, 0, 0, 0, 0, 0, 0, 0, 0, 0, 204, 0, 0, 0, 6, 0, 0, 0,
      0, 0, 0, 0, 0, 0, 0, 0, 0, 0, 0, 0, 0, 0, 0, 0] ++
    List.replicate 16 0 ++ [1, 0, 0, 0, 0, 0x10, 0, 0, 4, 0, 0, 0, 0x12, 0, 1, 0] ++
    [0] ++ Bytes.str "main" ++ [0, 0, 0] ++
    [1, 0, 0, 0, 0, 0, 0, 0, 0, 0x10, 0, 0, 0, 0x20, 0, 0, 84, 0, 0, 0, 0, 1, 0, 0,
      5, 0, 0, 0, 4, 0, 0, 0]

theorem readers_agree_both :
    ∃ elf file elf', openElf .little (Bytes.str "a.elf") (some bothImage.data) = .ok (elf, file) ∧
      bothImage.libelf.construct (bothImage.data[5]? = some 2) = .ok elf' ∧
      elf.segments.length = 1 ∧ elf'.segments = elf.segments ∧
      (elf.findSymbol (Bytes.str "main")).map Symbol.phys = some 0x2000 ∧
      elf'.findSymbol (Bytes.str "main") = elf.findSymbol (Bytes.str "main") := by
  have hwell : bothImage.WellFormed := by constructor <;> decide +kernel
  have hread : (openElf .little (Bytes.str "a.elf") (some bothImage.data)).map
      (fun r => (r.1.segments.length, (r.1.findSymbol (Bytes.str "main")).map Symbol.phys)) =
        .ok (1, some 0x2000) := by
    decide +kernel
  obtain ⟨elf, file, elf', hopen, hconstruct, -, -, -, -, hsegments, -, hfind⟩ :=
    readers_agree hwell (libelf_returns _) rfl (by decide +kernel) (by decide +kernel)
      (Bytes.str "a.elf")
  have hopen : openElf .little (Bytes.str "a.elf") (some bothImage.data) = .ok (elf, file) := hopen
  rw [hopen] at hread
  have hfields := Except.ok.inj hread
  exact ⟨elf, file, elf', hopen, hconstruct, congrArg Prod.fst hfields, hsegments,
    congrArg Prod.snd hfields, hfind _ (by decide)⟩

end Image

end Mwr.Elf
