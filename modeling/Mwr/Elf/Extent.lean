import Mwr.CodeLib.Memory
import Mwr.Elf.Accept
import Mwr.Elf.Padding

/-!
# Where a segment is loaded to

What `read_segment` writes, for a segment of either reader.  The caller provides
`seg.size` bytes, and the call stores `seg.filesz` bytes of the file.  The filter of
`read_segments` may lower a size to the one in the file but never below it, so that a
segment fits exactly if the size in memory of its header is not below the one in the
file (`filesz_le_size_iff`).
-/

namespace Mwr.Elf

open Mwr.CodeLib (Bytes ByteOrder)
open Mwr.CodeLib.Exec
open Mwr.CodeLib.Memory

variable {c : ElfClass}

/-- `read_segment(seg, dest)`: the memory afterwards, and the value that it returns. -/
def readSegmentTo (seg : Segment) (dest : Nat) (mem : Memory) : Fd (Memory × BitVec 64) := do
  let bytes ← readSegment seg
  return (store mem dest bytes, seg.size)

/-- An object that one of the two constructors has made. -/
inductive Constructed : ElfFile → Prop where
  | nolibelf {host : ByteOrder} {filename data : Bytes} {elf : ElfFile} {file : File} :
      openElf host filename (some data) = .ok (elf, file) → Constructed elf
  | libelf {c : ElfClass} {lib : Libelf c} {bigEndian : Bool} {elf : ElfFile} :
      lib.construct bigEndian = .ok elf → Constructed elf

/-- The segment is the one of a header `phdr`, one of the headers of the file. -/
def HeaderOf (segments : List Segment) (seg : Segment) (phdr : Phdr c) : Prop :=
  ∃ (phdrs : List (Phdr c)) (i : Nat), segments = segmentsOf phdrs ∧ phdrs[i]? = some phdr ∧
    seg = segmentOf phdrs i phdr

/-- The memory in `dest[0 .. seg.size)` holds the bytes of the file and zeros, and the rest
is what it was. -/
structure Loads (data : Bytes) (seg : Segment) (dest : Nat) (mem mem' : Memory)
    (returned : BitVec 64) : Prop where
  inside : window mem' dest seg.size.toNat =
    slice data seg.offset.toNat seg.filesz.toNat ++
      List.replicate (seg.size.toNat - seg.filesz.toNat) 0
  outside : ∀ a, a < dest ∨ dest + seg.size.toNat ≤ a → mem' a = mem a
  returned_eq : returned = seg.size

/-- A successful call loads the segment, wherever and into whatever memory. -/
def StaysInside (file : File) (seg : Segment) : Prop :=
  ∀ dest mem mem' returned file',
    (readSegmentTo seg dest mem).run file = .ok ((mem', returned), file') →
      Loads file.data seg dest mem mem' returned

/-! ## The segments of an object -/

theorem exists_header_of_segmentsOf {phdrs : List (Phdr c)} {seg : Segment}
    (h : seg ∈ segmentsOf phdrs) : ∃ phdr : Phdr c, HeaderOf (segmentsOf phdrs) seg phdr := by
  rw [segmentsOf, List.mem_mapIdx] at h
  obtain ⟨i, hi, hseg⟩ := h
  exact ⟨phdrs[i], phdrs, i, rfl, List.getElem?_eq_getElem hi, hseg.symm⟩

theorem construct_segments {host : ByteOrder} {filename : Bytes} {bigEndian : Bool} {elf : ElfFile}
    {file file' : File} (h : (construct host filename c bigEndian).run file = .ok (elf, file')) :
    ∃ phdrs : List (Phdr c), elf.segments = segmentsOf phdrs := by
  obtain ⟨bytes, file₁, -, h⟩ := run_bind_eq_ok.mp h
  obtain ⟨segments, file₂, hsegments, h⟩ := run_bind_eq_ok.mp h
  obtain ⟨symbols, file₃, -, h⟩ := run_bind_eq_ok.mp h
  obtain ⟨phdrs, file₄, -, hsegments⟩ := run_bind_eq_ok.mp hsegments
  cases hsegments
  cases h
  exact ⟨phdrs.filter (·.type = PT_LOAD), rfl⟩

theorem openElf_segments {host : ByteOrder} {filename data : Bytes} {elf : ElfFile} {file : File}
    (h : openElf host filename (some data) = .ok (elf, file)) :
    ∃ (c : ElfClass) (phdrs : List (Phdr c)), elf.segments = segmentsOf phdrs := by
  obtain ⟨ident, file₁, -, h⟩ := run_bind_eq_ok.mp h
  split at h
  · cases h
  · dsimp only at h
    split at h
    · exact ⟨.elf64, construct_segments h⟩
    · exact ⟨.elf32, construct_segments h⟩

theorem Libelf.construct_segments {lib : Libelf c} {bigEndian : Bool} {elf : ElfFile}
    (h : lib.construct bigEndian = .ok elf) :
    elf.segments = Elf.segmentsOf (lib.phdrs.filter (·.type = PT_LOAD)) := by
  rw [Libelf.construct] at h
  cases hsymbols : lib.readSymbols with
  | error fault =>
    rw [hsymbols] at h
    cases h
  | ok symbols =>
    rw [hsymbols] at h
    cases h
    exact Libelf.segmentsOf_eq lib.phdrs

/-- Every segment that an object lists comes from a header. -/
theorem Constructed.exists_header {elf : ElfFile} (h : Constructed elf) {seg : Segment}
    (hseg : seg ∈ elf.segments) :
    ∃ (c : ElfClass) (phdr : Phdr c), HeaderOf elf.segments seg phdr := by
  cases h with
  | nolibelf hopen =>
    obtain ⟨c, phdrs, hphdrs⟩ := openElf_segments hopen
    rw [hphdrs] at hseg ⊢
    exact ⟨c, exists_header_of_segmentsOf hseg⟩
  | @libelf c lib bigEndian elf hconstruct =>
    rw [Libelf.construct_segments hconstruct] at hseg ⊢
    exact ⟨c, exists_header_of_segmentsOf hseg⟩

/-- The filter changes a size only down to the one in the file. -/
theorem filesz_le_size_iff {segments : List Segment} {seg : Segment} {phdr : Phdr c}
    (h : HeaderOf segments seg phdr) :
    seg.filesz.toNat ≤ seg.size.toNat ↔ phdr.filesz.toNat ≤ phdr.memsz.toNat := by
  obtain ⟨phdrs, i, -, -, rfl⟩ := h
  show (phdr.filesz.setWidth 64).toNat ≤ (paddedSize phdrs i phdr).toNat ↔ _
  rw [paddedSize]
  split
  next hfilter =>
    have hlt : (phdr.filesz.setWidth 64).toNat < (phdr.memsz.setWidth 64).toNat := hfilter.1
    rw [toNat_setWidth_word, toNat_setWidth_word] at hlt
    exact iff_of_true (Nat.le_refl _) (Nat.le_of_lt hlt)
  next => rw [toNat_setWidth_word, toNat_setWidth_word]

/-! ## The stores -/

theorem store_eq_overlay (mem : Memory) (dest : Nat) (bytes : Bytes) :
    store mem dest bytes = overlay mem dest bytes := rfl

/-- The bytes that a successful call stores.  An offset of `-1` cannot be told from a failed
seek, and leaves the position where it was. -/
theorem readSegment_inv {seg : Segment} {file file' : File} {bytes : Bytes}
    (h : (readSegment seg).run file = .ok (bytes, file')) :
    ∃ chunk : Bytes,
      bytes = chunk ++ List.replicate (seg.size.toNat - seg.filesz.toNat) 0 ∧
      chunk.length = seg.filesz.toNat ∧
      (seg.offset ≠ -1 → chunk = slice file.data seg.offset.toNat seg.filesz.toNat) := by
  rw [readSegment] at h
  obtain ⟨_, file₁, hseek, h⟩ := run_bind_eq_ok.mp h
  obtain ⟨chunk, file₂, hread, h⟩ := run_bind_eq_ok.mp h
  obtain ⟨_, file₃, _, h⟩ := run_bind_eq_ok.mp h
  have hchunk : chunk = slice file₁.data file₁.pos seg.filesz.toNat ∧
      chunk.length = seg.filesz.toNat := by
    by_cases hlen : ((file₁.data.drop file₁.pos).take seg.filesz.toNat).length = seg.filesz.toNat
    · rw [readExactly_run hlen] at hread
      cases hread
      exact ⟨rfl, hlen⟩
    · rw [readExactly_run_error hlen] at hread
      cases hread
  refine ⟨chunk, ?_, hchunk.2, fun hne => ?_⟩
  · split at h
    next hlt =>
      cases h
      rw [BitVec.toNat_sub_of_le (Nat.le_of_lt hlt)]
    next hnlt =>
      cases h
      have hle : seg.size.toNat ≤ seg.filesz.toNat := Nat.not_lt.mp hnlt
      rw [Nat.sub_eq_zero_of_le hle, List.replicate_zero, List.append_nil]
  · by_cases hlt : seg.offset.toNat < 2 ^ 63
    · rw [seekTo_run hlt] at hseek
      cases hseek
      exact hchunk.1
    · rw [seekTo_run_error hlt hne] at hseek
      cases hseek

/-! ## Loading a segment -/

theorem readSegmentTo_run {seg : Segment} {file file' : File} {bytes : Bytes}
    (h : (readSegment seg).run file = .ok (bytes, file')) (dest : Nat) (mem : Memory) :
    (readSegmentTo seg dest mem).run file = .ok ((store mem dest bytes, seg.size), file') :=
  run_bind_of_ok h

/-- A call that never changes anything behind the segment stores no more than its size. -/
theorem length_le_of_loads {data bytes : Bytes} {seg : Segment} {dest : Nat}
    (h : ∀ mem, Loads data seg dest mem (store mem dest bytes) seg.size) :
    bytes.length ≤ seg.size.toNat := by
  by_contra hgt
  have hlt : seg.size.toNat < bytes.length := Nat.not_le.mp hgt
  -- a memory whose byte behind the segment is not the one that is stored there
  have hsame := (h fun _ => bytes[seg.size.toNat] + 1).outside (dest + seg.size.toNat)
    (.inr (Nat.le_refl _))
  rw [store_eq_overlay, overlay_of_inside _ (Nat.le_add_right dest _)
    (by rwa [Nat.add_sub_cancel_left])] at hsame
  simp only [Nat.add_sub_cancel_left] at hsame
  have hone := congrArg UInt8.toNat hsame
  rw [UInt8.toNat_add] at hone
  have hbyte := UInt8.toNat_lt bytes[seg.size.toNat]
  have h1 : (1 : UInt8).toNat = 1 := rfl
  omega

section Fits

variable {seg : Segment} {file file' : File} {bytes : Bytes}

theorem fits_of_staysInside (hlen : file.data.length < 2 ^ 63)
    (hread : (readSegment seg).run file = .ok (bytes, file')) (h : StaysInside file seg) :
    seg.filesz.toNat ≤ seg.size.toNat ∧ (seg.offset ≠ -1 ∨ seg.filesz = 0) := by
  have hloads := fun mem => h 0 mem _ _ _ (readSegmentTo_run hread 0 mem)
  have hle := length_le_of_loads hloads
  obtain ⟨chunk, rfl, hchunk, -⟩ := readSegment_inv hread
  rw [List.length_append, List.length_replicate, hchunk] at hle
  refine ⟨by omega, ?_⟩
  by_cases hoffset : seg.offset = -1
  · -- nothing stands at this offset, so that the segment must not have any data
    have hcount := congrArg List.length (hloads fun _ => 0).inside
    have hbeyond : (slice file.data seg.offset.toNat seg.filesz.toNat).length = 0 := by
      rw [slice, List.length_take, List.length_drop, hoffset]
      have htop : (-1 : BitVec 64).toNat = 2 ^ 64 - 1 := rfl
      omega
    rw [length_window, List.length_append, List.length_replicate, hbeyond] at hcount
    have hzero : seg.filesz.toNat = 0 := by omega
    exact .inr (BitVec.eq_of_toNat_eq hzero)
  · exact .inl hoffset

theorem staysInside_of_fits (hread : (readSegment seg).run file = .ok (bytes, file'))
    (hle : seg.filesz.toNat ≤ seg.size.toNat) (hoffset : seg.offset ≠ -1 ∨ seg.filesz = 0) :
    StaysInside file seg := by
  intro dest mem mem' returned file₁ hcall
  cases (readSegmentTo_run hread dest mem).symm.trans hcall
  obtain ⟨chunk, rfl, hchunk, hslice⟩ := readSegment_inv hread
  have htotal : (chunk ++ List.replicate (seg.size.toNat - seg.filesz.toNat) 0).length =
      seg.size.toNat := by
    rw [List.length_append, List.length_replicate, hchunk]
    omega
  have hdata : chunk = slice file.data seg.offset.toNat seg.filesz.toNat := by
    rcases hoffset with hne | hzero
    · exact hslice hne
    · rw [hzero] at hchunk ⊢
      exact List.length_eq_zero_iff.mp hchunk
  have hinside := window_overlay mem dest
    (chunk ++ List.replicate (seg.size.toNat - seg.filesz.toNat) 0)
  rw [htotal] at hinside
  rw [store_eq_overlay]
  exact ⟨hinside.trans (by rw [hdata]), fun a ha => overlay_of_outside mem (by rwa [htotal]), rfl⟩

end Fits

/-- A successful call stays in the range of the segment exactly if the header of the segment
announces no more bytes in the file than in memory, and the data are at an offset that can be
reached. -/
theorem readSegment_loads_iff {elf : ElfFile} (h : Constructed elf) {seg : Segment}
    (hseg : seg ∈ elf.segments) {file file' : File} (hlen : file.data.length < 2 ^ 63)
    {bytes : Bytes} (hread : (readSegment seg).run file = .ok (bytes, file')) :
    ∃ (c : ElfClass) (phdr : Phdr c), HeaderOf elf.segments seg phdr ∧
      (StaysInside file seg ↔
        phdr.filesz.toNat ≤ phdr.memsz.toNat ∧ (seg.offset ≠ -1 ∨ seg.filesz = 0)) := by
  obtain ⟨c, phdr, hheader⟩ := h.exists_header hseg
  refine ⟨c, phdr, hheader, ?_⟩
  rw [← filesz_le_size_iff hheader]
  constructor
  · exact fits_of_staysInside hlen hread
  · intro hfits
    exact staysInside_of_fits hread hfits.1 hfits.2

/-- A file with one header, of a segment at its beginning. -/
def segmentFile (filesz memsz : UInt8) : Bytes :=
  [0x7f, 0x45, 0x4c, 0x46, 1, 1, 1, 0, 0, 0, 0, 0, 0, 0, 0, 0,
    2, 0, 40, 0, 1, 0, 0, 0, 0, 0x10, 0, 0, 52, 0, 0, 0, 0, 0, 0, 0, 0, 0, 0, 0,
    52, 0, 32, 0, 1, 0, 40, 0, 0, 0, 0, 0] ++
  [1, 0, 0, 0, 0, 0, 0, 0, 0, 0x10, 0, 0, 0, 0x10, 0, 0,
    filesz, 0, 0, 0, memsz, 0, 0, 0, 4, 0, 0, 0, 4, 0, 0, 0]

/-- The segment of this file. -/
def fileSegment (filesz size : BitVec 64) : Segment where
  virt := 0x1000
  phys := 0x1000
  size := size
  filesz := filesz
  offset := 0
  r := true
  w := false
  x := false

theorem openElf_segmentFile :
    (openElf .little (Bytes.str "a.elf") (some (segmentFile 4 8))).map (·.1.segments) =
        .ok [fileSegment 4 8] ∧
      (openElf .little (Bytes.str "a.elf") (some (segmentFile 8 4))).map (·.1.segments) =
        .ok [fileSegment 8 4] := by
  decide +kernel

/-- The object of a file with the segments that are known. -/
theorem exists_constructed {data : Bytes} {segments : List Segment}
    (h : (openElf .little (Bytes.str "a.elf") (some data)).map (·.1.segments) = .ok segments) :
    ∃ elf, Constructed elf ∧ elf.segments = segments := by
  cases hopen : openElf .little (Bytes.str "a.elf") (some data) with
  | error fault =>
    rw [hopen] at h
    cases h
  | ok r =>
    rw [hopen] at h
    exact ⟨r.1, .nolibelf hopen, Except.ok.inj h⟩

/-- Four bytes of the file and four zeros. -/
theorem readSegment_loads_padded :
    ∃ (elf : ElfFile) (c : ElfClass) (phdr : Phdr c),
      HeaderOf elf.segments (fileSegment 4 8) phdr ∧
      (StaysInside { data := segmentFile 4 8, pos := 0 } (fileSegment 4 8) ↔
        phdr.filesz.toNat ≤ phdr.memsz.toNat ∧
          ((fileSegment 4 8).offset ≠ -1 ∨ (fileSegment 4 8).filesz = 0)) := by
  obtain ⟨elf, helf, hsegments⟩ := exists_constructed openElf_segmentFile.1
  have hread : (readSegment (fileSegment 4 8)).run { data := segmentFile 4 8, pos := 0 } =
      .ok ([0x7f, 0x45, 0x4c, 0x46, 0, 0, 0, 0], { data := segmentFile 4 8, pos := 0 }) := by
    decide +kernel
  exact ⟨elf, readSegment_loads_iff helf (hsegments ▸ List.mem_singleton_self _) (by decide) hread⟩

/-- A header that announces eight bytes in the file and four in memory. -/
theorem readSegment_overruns :
    ¬ ∀ elf, Constructed elf → ∀ seg ∈ elf.segments, ∀ file bytes file',
      (readSegment seg).run file = .ok (bytes, file') → StaysInside file seg := by
  intro h
  obtain ⟨elf, helf, hsegments⟩ := exists_constructed openElf_segmentFile.2
  have hread : (readSegment (fileSegment 8 4)).run { data := segmentFile 8 4, pos := 0 } =
      .ok ([0x7f, 0x45, 0x4c, 0x46, 1, 1, 1, 0], { data := segmentFile 8 4, pos := 0 }) := by
    decide +kernel
  have hinside := h elf helf (fileSegment 8 4) (hsegments ▸ List.mem_singleton_self _) _ _ _ hread
  have hle := length_le_of_loads fun mem =>
    hinside 0 mem _ _ _ (readSegmentTo_run hread 0 mem)
  exact absurd hle (by decide)

end Mwr.Elf
