import Mwr.Elf.Accept

/-!
# The data encoding

A file says in which byte order its fields are, and the object records it.  The reader
without libelf takes the fields as the processor has them, in little-endian order on
the hosts of this project.  It gets the fields of a big-endian file right only where
they read the same in both orders.

* `Image.host` is the image as the reader sees it, and `ReadAlike` the condition.
* `setsFields_iff` is the result for every well-formed image, and
  `not_setsFields_of_machine` the consequence that a big-endian file for any of the
  machines of `elf_machine` is read wrongly.
-/

namespace Mwr.Elf

open Mwr.CodeLib (Bytes ByteOrder)

variable {c : ElfClass}

/-- The fields of a segment that are copied from its header. -/
def Segment.fields (seg : Segment) :
    BitVec 64 × BitVec 64 × BitVec 64 × BitVec 64 × Bool × Bool × Bool :=
  (seg.virt, seg.phys, seg.filesz, seg.offset, seg.r, seg.w, seg.x)

/-- The fields of a header that a segment shows. -/
def Phdr.fields (phdr : Phdr c) :
    BitVec 64 × BitVec 64 × BitVec 64 × BitVec 64 × Bool × Bool × Bool :=
  (phdr.vaddr.setWidth 64, phdr.paddr.setWidth 64, phdr.filesz.setWidth 64,
    phdr.offset.setWidth 64, phdr.flags &&& PF_R ≠ 0, phdr.flags &&& PF_W ≠ 0,
    phdr.flags &&& PF_X ≠ 0)

theorem segmentsOf_fields (phdrs : List (Phdr c)) :
    (segmentsOf phdrs).map Segment.fields = phdrs.map Phdr.fields := by
  have hfst : phdrs.zipIdx.map Prod.fst = phdrs := List.zipIdx_map_fst 0 phdrs
  rw [segmentsOf, List.mapIdx_eq_zipIdx_map, List.map_map]
  nth_rewrite 3 [← hfst]
  rw [List.map_map]
  rfl

namespace Image

variable {im : Image c}

/-- The image as a little-endian host reads it. -/
def host (im : Image c) : Image c := { im with order := .little }

/-- The program headers to load, of the first `n`. -/
def loads (im : Image c) (n : Nat) : List (Phdr c) := (im.phdrs n).filter (·.type = PT_LOAD)

/-- The constructor succeeds, and sets the entry point, the machine and the fields of
the segments to what the image says in its own byte order. -/
def SetsFields (im : Image c) (filename : Bytes) : Prop :=
  ∃ elf file, openElf .little filename (some im.data) = .ok (elf, file) ∧
    elf.entry = im.ehdr.entry.setWidth 64 ∧ elf.machine = im.ehdr.machine ∧
    elf.segments.map Segment.fields = (im.loads im.phnum).map Phdr.fields

/-- What has to hold for the reader to get the fields right.  In a little-endian file
only headers behind the number in the header of the file are missed. -/
def ReadAlike (im : Image c) : Prop :=
  match im.order with
  | .little => ∀ phdr ∈ (im.phdrs im.phnum).drop im.ehdr.phnum.toNat, phdr.type ≠ PT_LOAD
  | .big => im.host.Accepted ∧ im.host.ehdr.entry = im.ehdr.entry ∧
      im.host.ehdr.machine = im.ehdr.machine ∧
      (im.host.loads im.host.ehdr.phnum.toNat).map Phdr.fields =
        (im.loads im.phnum).map Phdr.fields

/-! ## Well-formed images -/

theorem WellFormed.ident_getElem (h : im.WellFormed) {i : Nat} (hi : i < 6) :
    im.data[i]? = im.ident[i]? := by
  rw [← h.ident_eq, List.getElem?_take_of_lt hi]

theorem WellFormed.identified (h : im.WellFormed) : im.host.Identified where
  magic := by
    have htake := congrArg (List.take 4) h.ident_eq
    rw [List.take_take] at htake
    exact htake
  elfClass := by
    rw [host, h.ident_getElem (by decide)]
    cases c <;> simp [ident]

theorem phdrPos_mono {i j : Nat} (h : i ≤ j) : im.phdrPos i ≤ im.phdrPos j :=
  Nat.add_le_add_left (Nat.mul_le_mul_right _ h) _

/-- A count in the header of the file that is not zero. -/
theorem WellFormed.phnum_ne (h : im.WellFormed) (hne : im.ehdr.phnum ≠ 0) : im.phnum ≠ 0 := by
  have hle := h.phnum_le
  have hpos : im.ehdr.phnum.toNat ≠ 0 := fun hzero => hne (BitVec.eq_of_toNat_eq hzero)
  omega

theorem shnum_eq (hne : im.ehdr.shnum ≠ 0) : im.shnum = im.ehdr.shnum.toNat := by
  rw [shnum, if_neg fun h => hne h.1]

theorem shnum_ne (hne : im.ehdr.shnum ≠ 0) : im.shnum ≠ 0 := by
  rw [shnum_eq hne]
  exact fun hzero => hne (BitVec.eq_of_toNat_eq hzero)

/-- The data of a section that lies in the file. -/
theorem hasData {i size : Nat} (hlen : im.data.length < 2 ^ 63)
    (hsize : size ≤ (im.shdr i).size.toNat)
    (hle : (im.shdr i).offset.toNat + (im.shdr i).size.toNat ≤ im.data.length) :
    im.HasData i size := by
  have hoffset : (im.offset i).toNat = (im.shdr i).offset.toNat := toNat_setWidth _
  refine ⟨.inl (by omega), .inr ?_⟩
  have hne : im.offset i ≠ -1 := by
    intro heq
    rw [heq, show (-1 : BitVec 64).toNat = 2 ^ 64 - 1 from rfl] at hoffset
    omega
  rw [dataPos, if_neg hne]
  omega

/-- The reader accepts a well-formed image that it reads in its own order. -/
theorem WellFormed.accepted (h : im.WellFormed) : im.Accepted where
  ehdr := h.ehdr_le
  phdrs := fun hne => Nat.le_trans (phdrPos_mono h.phnum_le) (h.phdrs_le (h.phnum_ne hne))
  shdrs := fun hne => by
    rw [← shnum_eq hne]
    exact h.shdrs_le (shnum_ne hne)
  symtabs := fun i hi htype => by
    have hne : im.ehdr.shnum ≠ 0 := fun hzero => by rw [hzero] at hi; cases hi
    rw [← shnum_eq hne] at hi
    have htab := h.symtabs i hi htype
    have hcount : im.symCount i * Sym.bytes c ≤ (im.shdr i).size.toNat := Nat.div_mul_le_self _ _
    exact ⟨hasData h.length_lt hcount htab.data_le,
      Nat.le_trans (shdrPos_succ_le htab.link_lt) (h.shdrs_le (shnum_ne hne)),
      hasData h.length_lt (Nat.le_refl _) htab.strings_le, htab.names_lt⟩

/-! ## The same bytes in the other order -/

theorem ehdr_length (h : 16 + Ehdr.bytes c ≤ im.data.length) :
    (slice im.data 16 (Ehdr.bytes c)).length = Ehdr.bytes c :=
  slice_length.mpr (.inr h)

/-- A field of the header of the file. -/
def ehdrField (im : Image c) (order : ByteOrder) (off w : Nat) : BitVec w :=
  order.field (slice im.data 16 (Ehdr.bytes c)) off w

/-- A field of the header with one repeated byte. -/
theorem ehdrField_of_replicate (hle : 16 + Ehdr.bytes c ≤ im.data.length)
    (order order' : ByteOrder) {off w n : Nat} {b : UInt8} (hw : w = 8 * n)
    (hoff : off + n ≤ Ehdr.bytes c)
    (h : im.ehdrField order off w =
      BitVec.ofNat w (ByteOrder.littleValue (List.replicate n b))) :
    im.ehdrField order' off w =
      BitVec.ofNat w (ByteOrder.littleValue (List.replicate n b)) := by
  have hlen := ehdr_length hle
  exact ByteOrder.field_of_replicate order' hw (by rw [hlen]; exact hoff) h

/-- A number of headers that is zero is zero in both orders. -/
theorem ehdrField_zero (hle : 16 + Ehdr.bytes c ≤ im.data.length) {off : Nat}
    (hoff : off + 2 ≤ Ehdr.bytes c) (h : im.ehdrField im.order off 16 = 0) :
    im.ehdrField .little off 16 = 0 :=
  ehdrField_of_replicate hle im.order .little (n := 2) (b := 0) rfl hoff h

theorem host_phnum (hle : 16 + Ehdr.bytes c ≤ im.data.length) (h : im.ehdr.phnum = 0) :
    im.host.ehdr.phnum = 0 := by
  cases c with
  | elf32 => exact ehdrField_zero hle (by decide) h
  | elf64 => exact ehdrField_zero hle (by decide) h

theorem host_shnum (hle : 16 + Ehdr.bytes c ≤ im.data.length) (h : im.ehdr.shnum = 0) :
    im.host.ehdr.shnum = 0 := by
  cases c with
  | elf32 => exact ehdrField_zero hle (by decide) h
  | elf64 => exact ehdrField_zero hle (by decide) h

/-- A word of the class whose bits are all set. -/
theorem setWidth_ne {w : Word .elf32} : w.setWidth 64 ≠ (-1 : BitVec 64) := by
  intro heq
  have hlt : w.toNat < 2 ^ 32 := w.isLt
  have hnat := toNat_setWidth w
  rw [heq, show (-1 : BitVec 64).toNat = 2 ^ 64 - 1 from rfl] at hnat
  omega

/-- An offset whose bits are all set is out of reach in both orders. -/
theorem toNat_ehdrField {im : Image .elf64} (hle : 16 + Ehdr.bytes .elf64 ≤ im.data.length)
    {off : Nat} (hoff : off + 8 ≤ Ehdr.bytes .elf64)
    (h : (im.ehdrField .little off 64).setWidth 64 = (-1 : BitVec 64)) :
    (im.ehdrField im.order off 64).toNat = 2 ^ 64 - 1 := by
  rw [BitVec.setWidth_eq] at h
  have hown := ehdrField_of_replicate hle .little im.order (n := 8) (b := 0xff) rfl hoff h
  rw [hown]
  decide

theorem toNat_of_host_phoff (hle : 16 + Ehdr.bytes c ≤ im.data.length)
    (h : im.host.ehdr.phoff.setWidth 64 = (-1 : BitVec 64)) :
    im.ehdr.phoff.toNat = 2 ^ 64 - 1 := by
  cases c with
  | elf32 => exact absurd h setWidth_ne
  | elf64 => exact toNat_ehdrField hle (by decide) h

theorem toNat_of_host_shoff (hle : 16 + Ehdr.bytes c ≤ im.data.length)
    (h : im.host.ehdr.shoff.setWidth 64 = (-1 : BitVec 64)) :
    im.ehdr.shoff.toNat = 2 ^ 64 - 1 := by
  cases c with
  | elf32 => exact absurd h setWidth_ne
  | elf64 => exact toNat_ehdrField hle (by decide) h

theorem WellFormed.seekable (h : im.WellFormed) : im.host.Seekable where
  phoff := fun hne heq => by
    have hown := toNat_of_host_phoff h.ehdr_le heq
    have hle := h.phdrs_le (h.phnum_ne fun hzero => hne (host_phnum h.ehdr_le hzero))
    have hlen := h.length_lt
    rw [phdrPos] at hle
    omega
  shoff := fun hne heq => by
    have hown := toNat_of_host_shoff h.ehdr_le heq
    have hle := h.shdrs_le (shnum_ne fun hzero => hne (host_shnum h.ehdr_le hzero))
    have hlen := h.length_lt
    rw [shdrPos] at hle
    omega

/-! ## The result -/

/-- The reader gets the fields right where it accepts the image that it sees, and finds
the fields of the image in it. -/
theorem setsFields_iff_host (h : im.WellFormed) (filename : Bytes) :
    im.SetsFields filename ↔ im.host.Accepted ∧ im.host.ehdr.entry = im.ehdr.entry ∧
      im.host.ehdr.machine = im.ehdr.machine ∧
      (im.host.loads im.host.ehdr.phnum.toNat).map Phdr.fields =
        (im.loads im.phnum).map Phdr.fields := by
  have hwidth : im.host.ehdr.entry.setWidth 64 = im.ehdr.entry.setWidth 64 ↔
      im.host.ehdr.entry = im.ehdr.entry := by
    rw [← BitVec.toNat_inj, ← BitVec.toNat_inj, toNat_setWidth, toNat_setWidth]
  have hfields : (im.host.toElf (im.data[5]? = some 2)).segments.map Segment.fields =
      (im.host.loads im.host.ehdr.phnum.toNat).map Phdr.fields := segmentsOf_fields _
  have hlen : im.host.data.length < 2 ^ 63 := h.length_lt
  rw [← hwidth, ← hfields]
  constructor
  · rintro ⟨elf, file, hopen, hentry, hmachine, hsegments⟩
    by_cases hacc : im.host.Accepted
    · rcases openElf_of_accepted hlen h.identified hacc filename with ⟨file', hopen'⟩
      cases hopen.symm.trans hopen'
      exact ⟨hacc, hentry, hmachine, hsegments⟩
    · have hle : 16 ≤ im.host.data.length := Nat.le_trans (Nat.le_add_right _ _) h.ehdr_le
      rcases openElf_of_not_accepted hlen h.identified hle h.seekable hacc filename with
        ⟨fault, hopen'⟩
      cases hopen.symm.trans hopen'
  · rintro ⟨hacc, hentry, hmachine, hsegments⟩
    rcases openElf_of_accepted hlen h.identified hacc filename with ⟨file, hopen⟩
    exact ⟨_, file, hopen, hentry, hmachine, hsegments⟩

/-- The first headers of a table, and the rest of it. -/
theorem phdrs_take {n m : Nat} (h : n ≤ m) : (im.phdrs m).take n = im.phdrs n := by
  rw [phdrs, ← List.map_take, List.take_range, Nat.min_eq_left h]
  rfl

/-- The fields of an image come out right exactly if its bytes read alike. -/
theorem setsFields_iff (h : im.WellFormed) (filename : Bytes) :
    im.SetsFields filename ↔ im.ReadAlike := by
  rw [setsFields_iff_host h filename]
  cases horder : im.order with
  | big => simp only [ReadAlike, horder]
  | little =>
    have hhost : im.host = im := by
      rw [host, ← horder]
    have hsplit : im.loads im.phnum = im.loads im.ehdr.phnum.toNat ++
        ((im.phdrs im.phnum).drop im.ehdr.phnum.toNat).filter (·.type = PT_LOAD) := by
      rw [loads, loads, ← phdrs_take h.phnum_le, ← List.filter_append, List.take_append_drop]
    simp only [ReadAlike, horder, hhost, true_and, h.accepted]
    rw [hsplit, List.map_append, List.self_eq_append_right, List.map_eq_nil_iff,
      List.filter_eq_nil_iff]
    simp

/-- A little-endian file of 32 bits with one segment. -/
def smallImage : Image .elf32 where
  order := .little
  data := [0x7f, 0x45, 0x4c, 0x46, 1, 1, 1, 0, 0, 0, 0, 0, 0, 0, 0, 0,
    2, 0, 40, 0, 1, 0, 0, 0, 0, 0x10, 0, 0, 52, 0, 0, 0, 0, 0, 0, 0, 0, 0, 0, 0,
    52, 0, 32, 0, 1, 0, 40, 0, 0, 0, 0, 0,
    1, 0, 0, 0, 0, 0, 0, 0, 0, 0x10, 0, 0, 0, 0x20, 0, 0, 84, 0, 0, 0, 0, 1, 0, 0,
    5, 0, 0, 0, 4, 0, 0, 0]

theorem smallImage_wellFormed : smallImage.WellFormed := by
  constructor <;> decide +kernel

theorem setsFields_smallImage : smallImage.SetsFields (Bytes.str "a.elf") := by
  have halike : ∀ phdr ∈ (smallImage.phdrs smallImage.phnum).drop smallImage.ehdr.phnum.toNat,
      phdr.type ≠ PT_LOAD := by
    decide +kernel
  exact (setsFields_iff smallImage_wellFormed _).mpr halike

/-- The header of a big-endian file for the machine `PPC`, without segments. -/
def bigImage : Image .elf32 where
  order := .big
  data := [0x7f, 0x45, 0x4c, 0x46, 1, 2, 1, 0, 0, 0, 0, 0, 0, 0, 0, 0,
    0, 2, 0, 20, 0, 0, 0, 1, 0, 0, 0x10, 0, 0, 0, 0, 0, 0, 0, 0, 0, 0, 0, 0, 0,
    0, 52, 0, 32, 0, 0, 0, 40, 0, 0, 0, 0]

/-- The reader finds the machine `0x1400` and the entry point `0x100000`. -/
theorem bigImage_misread :
    bigImage.WellFormed ∧ bigImage.ehdr.machine = 20 ∧ bigImage.ehdr.entry = 0x1000 ∧
      (openElf .little (Bytes.str "a.elf") (some bigImage.data)).map
          (fun r => (r.1.machine, r.1.entry, r.1.bigEndian)) = .ok (0x1400, 0x100000, true) ∧
      ¬ bigImage.SetsFields (Bytes.str "a.elf") := by
  have hopen : openElf .little (Bytes.str "a.elf") (some bigImage.data) =
      .ok ({ entry := 0x100000, machine := 0x1400, bigEndian := true, asize := 4, symbols := [],
             segments := [] }, { data := bigImage.data, pos := 52 }) := by
    decide +kernel
  refine ⟨by constructor <;> decide +kernel, by decide, by decide, by rw [hopen]; rfl, ?_⟩
  rintro ⟨elf, file, hok, _, hmachine, _⟩
  cases hopen.symm.trans hok
  exact absurd hmachine (by decide)

/-- A big-endian file for a machine that the object names is read wrongly. -/
theorem not_setsFields_of_machine (h : im.WellFormed) (hbig : im.order = .big)
    (hmachine : 0 < im.ehdr.machine.toNat ∧ im.ehdr.machine.toNat < 256) (filename : Bytes) :
    ¬ im.SetsFields filename := by
  rw [setsFields_iff_host h filename]
  rintro ⟨_, _, hsame, _⟩
  have htwo : ((slice im.data 16 (Ehdr.bytes c)).drop 2 |>.take 2).length = 2 := by
    have hlen := ehdr_length h.ehdr_le
    rw [List.length_take, List.length_drop, hlen]
    cases c <;> rfl
  rcases List.length_eq_two.mp htwo with ⟨a, b, hbytes⟩
  have ha : a.toNat < 256 := UInt8.toNat_lt a
  have hb : b.toNat < 256 := UInt8.toNat_lt b
  have hown : im.ehdr.machine.toNat = b.toNat + 256 * a.toNat := by
    have hfield : im.ehdr.machine = im.order.field (slice im.data 16 (Ehdr.bytes c)) 2 16 := by
      cases c <;> rfl
    rw [hfield, hbig, ByteOrder.field, hbytes, BitVec.toNat_ofNat]
    show (b.toNat + 256 * (a.toNat + 256 * 0)) % 2 ^ 16 = _
    omega
  have hhost : im.host.ehdr.machine.toNat = a.toNat + 256 * b.toNat := by
    have hfield : im.host.ehdr.machine =
        ByteOrder.little.field (slice im.data 16 (Ehdr.bytes c)) 2 16 := by
      cases c <;> rfl
    rw [hfield, ByteOrder.field, hbytes, BitVec.toNat_ofNat]
    show (a.toNat + 256 * (b.toNat + 256 * 0)) % 2 ^ 16 = _
    omega
  have hnat := congrArg BitVec.toNat hsame
  omega

end Image

end Mwr.Elf
