import Mathlib.Data.List.Basic
import Mathlib.Data.List.Perm.Basic
import Mwr.CodeLib.Exec
import Mwr.Elf.Libelf

/-!
# Zero padding

The ranges of physical memory that the segments of a file take, and what the
filter of `read_segments` knows about them.

* `overlaps_iff` says in integers what the comparison of the filter finds.  It
  compares two paddings, and it misses one that ends at the top of the address
  space, where the sum of the header wraps to zero.
* `clear_iff` derives from it when the padding of every segment stays clear of
  the other segments.
* `loadAll_perm` is the consequence for the memory: segments that take disjoint
  ranges may be loaded in any order, if their data are found.
  `placed_of_orderIrrelevant` says that those that are read from wherever the file
  stands may not.
-/

namespace Mwr.Elf

open Mwr.CodeLib (Bytes)
open Mwr.CodeLib.Exec

variable {c : ElfClass}

/-! ## Ranges -/

/-- The end of the range that is backed by the file. -/
def Phdr.fileEnd (phdr : Phdr c) : Nat := phdr.paddr.toNat + phdr.filesz.toNat

/-- The end of the range in memory. -/
def Phdr.memEnd (phdr : Phdr c) : Nat := phdr.paddr.toNat + phdr.memsz.toNat

/-- An address that the segment fills with zeros. -/
def Segment.Zero (seg : Segment) (a : Nat) : Prop :=
  seg.phys.toNat + seg.filesz.toNat ≤ a ∧ a < seg.phys.toNat + seg.size.toNat

/-- An address of the segment. -/
def Segment.Holds (seg : Segment) (a : Nat) : Prop :=
  seg.phys.toNat ≤ a ∧ a < seg.phys.toNat + seg.size.toNat

instance (seg : Segment) (a : Nat) : Decidable (seg.Zero a) :=
  inferInstanceAs (Decidable (_ ∧ _))

instance (seg : Segment) (a : Nat) : Decidable (seg.Holds a) :=
  inferInstanceAs (Decidable (_ ∧ _))

/-- What a linker guarantees for the `PT_LOAD` headers of one file. -/
structure Layout (phdrs : List (Phdr c)) : Prop where
  filesz_le : ∀ phdr ∈ phdrs, phdr.filesz.toNat ≤ phdr.memsz.toNat
  memEnd_le : ∀ phdr ∈ phdrs, phdr.memEnd ≤ 2 ^ c.bits
  disjoint : ∀ i j : Fin phdrs.length, i ≠ j → ∀ a,
    ¬ ((phdrs[i].paddr.toNat ≤ a ∧ a < phdrs[i].fileEnd) ∧
      phdrs[j].paddr.toNat ≤ a ∧ a < phdrs[j].fileEnd)

/-- No address that one segment fills with zeros belongs to another segment. -/
def Clear (segs : List Segment) : Prop :=
  ∀ i j : Fin segs.length, i ≠ j → ∀ a, ¬ (segs[i].Zero a ∧ segs[j].Holds a)

/-! ## The comparison of the filter -/

/-- The sum that the filter takes as the end of a padding wraps to zero: for the
other header a sum in the width of the header, for its own header a sum of 64
bits. -/
def Phdr.Wraps (phdr other : Phdr c) : Prop :=
  other.memEnd = 2 ^ c.bits ∨ phdr.memEnd = 2 ^ 64

instance (phdr other : Phdr c) : Decidable (phdr.Wraps other) :=
  inferInstanceAs (Decidable (_ ∨ _))

theorem bits_le (c : ElfClass) : 2 ^ c.bits ≤ 2 ^ 64 := by
  cases c <;> decide

theorem toNat_setWidth_word (x : Word c) : (x.setWidth 64).toNat = x.toNat := by
  have hx : x.toNat < 2 ^ c.bits := x.isLt
  have hle := bits_le c
  rw [BitVec.toNat_setWidth, Nat.mod_eq_of_lt (by omega)]

/-- A sum of 64 bits that is at most `2 ^ 64`. -/
theorem toNat_add_wide {x y : Word c} (h : x.toNat + y.toNat ≤ 2 ^ 64) :
    (x.setWidth 64 + y.setWidth 64 : BitVec 64).toNat =
      if x.toNat + y.toNat = 2 ^ 64 then 0 else x.toNat + y.toNat := by
  rw [BitVec.toNat_add, toNat_setWidth_word, toNat_setWidth_word]
  split
  · rename_i heq
    rw [heq, Nat.mod_self]
  · exact Nat.mod_eq_of_lt (by omega)

/-- A sum in the width of the header that is at most the size of its address
space. -/
theorem toNat_add_word {x y : Word c} (h : x.toNat + y.toNat ≤ 2 ^ c.bits) :
    ((x + y).setWidth 64 : BitVec 64).toNat =
      if x.toNat + y.toNat = 2 ^ c.bits then 0 else x.toNat + y.toNat := by
  rw [toNat_setWidth_word, BitVec.toNat_add]
  split
  · rename_i heq
    rw [heq, Nat.mod_self]
  · exact Nat.mod_eq_of_lt (by omega)

/-- The filter finds that two paddings overlap, unless the end of one of them has
wrapped. -/
theorem overlaps_iff {phdr other : Phdr c} (hphdr : phdr.memEnd ≤ 2 ^ c.bits)
    (hother : other.memEnd ≤ 2 ^ c.bits) (hpad : phdr.fileEnd < phdr.memEnd)
    (hfile : other.fileEnd ≤ other.memEnd) :
    phdr.overlaps other ↔
      other.fileEnd < phdr.memEnd ∧ phdr.fileEnd < other.memEnd ∧ ¬ phdr.Wraps other := by
  have hle := bits_le c
  have hs0 : (phdr.paddr.setWidth 64 + phdr.filesz.setWidth 64 : BitVec 64).toNat =
      if phdr.fileEnd = 2 ^ 64 then 0 else phdr.fileEnd :=
    toNat_add_wide (Nat.le_trans (Nat.le_of_lt hpad) (Nat.le_trans hphdr hle))
  have he0 : (phdr.paddr.setWidth 64 + phdr.memsz.setWidth 64 : BitVec 64).toNat =
      if phdr.memEnd = 2 ^ 64 then 0 else phdr.memEnd :=
    toNat_add_wide (Nat.le_trans hphdr hle)
  have hs1 : ((other.paddr + other.filesz).setWidth 64 : BitVec 64).toNat =
      if other.fileEnd = 2 ^ c.bits then 0 else other.fileEnd :=
    toNat_add_word (Nat.le_trans hfile hother)
  have he1 : ((other.paddr + other.memsz).setWidth 64 : BitVec 64).toNat =
      if other.memEnd = 2 ^ c.bits then 0 else other.memEnd := toNat_add_word hother
  rw [Phdr.overlaps, Bool.and_eq_true, decide_eq_true_iff, decide_eq_true_iff, BitVec.lt_def,
    BitVec.lt_def, hs0, he0, hs1, he1, Phdr.Wraps]
  generalize 2 ^ c.bits = top at *
  split_ifs <;> omega

/-! ## What the filter leaves -/

variable {phdrs : List (Phdr c)}

/-- The header has a padding, and the filter finds no other that overlaps it. -/
def Kept (phdrs : List (Phdr c)) (i : Fin phdrs.length) : Prop :=
  phdrs[i].fileEnd < phdrs[i].memEnd ∧ ∀ j : Fin phdrs.length, i ≠ j → ¬ phdrs[i].overlaps phdrs[j]

instance (i : Fin phdrs.length) : Decidable (Kept phdrs i) :=
  inferInstanceAs (Decidable (_ ∧ _))

theorem any_overlaps_iff (i : Fin phdrs.length) (phdr : Phdr c) :
    (phdrs.zipIdx.any fun other => (i : Nat) ≠ other.2 && phdr.overlaps other.1) ↔
      ∃ j : Fin phdrs.length, i ≠ j ∧ phdr.overlaps phdrs[j] := by
  simp only [List.any_eq_true, Bool.and_eq_true, decide_eq_true_iff, Prod.exists,
    List.mem_zipIdx_iff_getElem?]
  constructor
  · rintro ⟨other, j, hj, hne, hover⟩
    rcases List.getElem?_eq_some_iff.mp hj with ⟨hlt, rfl⟩
    exact ⟨⟨j, hlt⟩, fun h => hne (congrArg Fin.val h), hover⟩
  · rintro ⟨j, hne, hover⟩
    exact ⟨phdrs[j], j, List.getElem?_eq_getElem j.isLt, fun h => hne (Fin.ext h), hover⟩

/-- The end of the segment of `phdrs[i]`. -/
theorem segment_end (h : Layout phdrs) (i : Fin phdrs.length) :
    phdrs[i].paddr.toNat + (paddedSize phdrs i phdrs[i]).toNat =
      if Kept phdrs i then phdrs[i].memEnd else phdrs[i].fileEnd := by
  have hle := h.filesz_le phdrs[i] (List.getElem_mem i.isLt)
  have hgt : phdrs[i].memsz.setWidth 64 > phdrs[i].filesz.setWidth 64 ↔
      phdrs[i].fileEnd < phdrs[i].memEnd := by
    rw [gt_iff_lt, BitVec.lt_def, toNat_setWidth_word, toNat_setWidth_word, Phdr.fileEnd,
      Phdr.memEnd]
    omega
  have hcond := and_congr hgt (any_overlaps_iff i phdrs[i])
  rw [paddedSize]
  by_cases hpad : phdrs[i].fileEnd < phdrs[i].memEnd
  · by_cases hover : ∃ j : Fin phdrs.length, i ≠ j ∧ phdrs[i].overlaps phdrs[j]
    · have hnot : ¬ Kept phdrs i := by
        rcases hover with ⟨j, hne, hj⟩
        exact fun hk => hk.2 j hne hj
      rw [if_pos (hcond.mpr ⟨hpad, hover⟩), if_neg hnot, toNat_setWidth_word, Phdr.fileEnd]
    · have hkept : Kept phdrs i := ⟨hpad, fun j hne hj => hover ⟨j, hne, hj⟩⟩
      rw [if_neg (fun hc => hover (hcond.mp hc).2), if_pos hkept, toNat_setWidth_word, Phdr.memEnd]
  · have heq : phdrs[i].memEnd = phdrs[i].fileEnd := by
      rw [Phdr.fileEnd, Phdr.memEnd] at *
      omega
    rw [if_neg (fun hc => hpad (hcond.mp hc).1), if_neg (fun hk => hpad hk.1),
      toNat_setWidth_word, ← heq, Phdr.memEnd]

theorem zero_iff (h : Layout phdrs) (i : Fin phdrs.length) (a : Nat) :
    (segmentOf phdrs i phdrs[i]).Zero a ↔
      Kept phdrs i ∧ phdrs[i].fileEnd ≤ a ∧ a < phdrs[i].memEnd := by
  rw [Segment.Zero]
  simp only [segmentOf, toNat_setWidth_word, segment_end h]
  rw [← Phdr.fileEnd]
  by_cases hk : Kept phdrs i
  · rw [if_pos hk]
    simp only [hk, true_and]
  · rw [if_neg hk]
    constructor
    · intro hzero
      omega
    · intro hzero
      exact absurd hzero.1 hk

theorem holds_iff (h : Layout phdrs) (i : Fin phdrs.length) (a : Nat) :
    (segmentOf phdrs i phdrs[i]).Holds a ↔
      phdrs[i].paddr.toNat ≤ a ∧
        a < if Kept phdrs i then phdrs[i].memEnd else phdrs[i].fileEnd := by
  rw [Segment.Holds]
  simp only [segmentOf, toNat_setWidth_word, segment_end h]

/-- The segments of different headers, in terms of the headers. -/
theorem clear_segmentsOf_iff :
    Clear (segmentsOf phdrs) ↔ ∀ i j : Fin phdrs.length, i ≠ j → ∀ a,
      ¬ ((segmentOf phdrs i phdrs[i]).Zero a ∧ (segmentOf phdrs j phdrs[j]).Holds a) := by
  have hlen : (segmentsOf phdrs).length = phdrs.length := List.length_mapIdx
  have hget : ∀ i : Fin (segmentsOf phdrs).length,
      (segmentsOf phdrs)[i] = segmentOf phdrs i phdrs[i.cast hlen] :=
    fun i => List.getElem_mapIdx ..
  constructor
  · intro hclear i j hne a
    have h := hclear (i.cast hlen.symm) (j.cast hlen.symm) 
      (by simpa [Fin.ext_iff] using hne) a
    rw [hget, hget] at h
    exact h
  · intro hclear i j hne a
    rw [hget, hget]
    exact hclear (i.cast hlen) (j.cast hlen) (by simpa [Fin.ext_iff] using hne) a

/-! ## When it suffices -/

/-- The padding of a header ends inside the range of another one that is backed by
the file.  The two paddings do not overlap then. -/
def Phdr.EndsInside (phdr other : Phdr c) : Prop :=
  other.paddr.toNat < phdr.memEnd ∧ phdr.memEnd ≤ other.fileEnd

instance (phdr other : Phdr c) : Decidable (phdr.EndsInside other) :=
  inferInstanceAs (Decidable (_ ∧ _))

/-- The paddings of two headers overlap, the end of one has wrapped to zero, and
the other segment keeps its padding or is backed by the file there. -/
def Hidden (phdrs : List (Phdr c)) (i j : Fin phdrs.length) : Prop :=
  phdrs[i].Wraps phdrs[j] ∧ phdrs[j].fileEnd < phdrs[i].memEnd ∧
    phdrs[i].fileEnd < phdrs[j].memEnd ∧
    ((phdrs[j].paddr.toNat < phdrs[j].fileEnd ∧ phdrs[i].fileEnd < phdrs[j].fileEnd) ∨
      Kept phdrs j)

instance (i j : Fin phdrs.length) : Decidable (Hidden phdrs i j) :=
  inferInstanceAs (Decidable (_ ∧ _))

/-- Every padding that the filter keeps is harmless. -/
def FilterSuffices (phdrs : List (Phdr c)) : Prop :=
  ∀ i j : Fin phdrs.length, i ≠ j → Kept phdrs i →
    ¬ phdrs[i].EndsInside phdrs[j] ∧ ¬ Hidden phdrs i j

instance (phdrs : List (Phdr c)) : Decidable (FilterSuffices phdrs) :=
  inferInstanceAs (Decidable (∀ _, _))

/-- The padding of one header and the segment of another. -/
theorem kept_clear_iff (h : Layout phdrs) {i j : Fin phdrs.length} (hne : i ≠ j)
    (hk : Kept phdrs i) :
    (∀ a, ¬ ((segmentOf phdrs i phdrs[i]).Zero a ∧ (segmentOf phdrs j phdrs[j]).Holds a)) ↔
      ¬ phdrs[i].EndsInside phdrs[j] ∧ ¬ Hidden phdrs i j := by
  have hi := h.memEnd_le phdrs[i] (List.getElem_mem i.isLt)
  have hj := h.memEnd_le phdrs[j] (List.getElem_mem j.isLt)
  have hsize := h.filesz_le phdrs[j] (List.getElem_mem j.isLt)
  have hle : phdrs[j].fileEnd ≤ phdrs[j].memEnd := Nat.add_le_add_left hsize _
  have hlow : phdrs[j].paddr.toNat ≤ phdrs[j].fileEnd := Nat.le_add_right _ _
  have hmiss := mt (overlaps_iff hi hj hk.1 hle).mpr (hk.2 j hne)
  simp only [zero_iff h, holds_iff h, hk, true_and, Phdr.EndsInside, Hidden]
  by_cases hkj : Kept phdrs j
  · have hpad := hkj.1
    simp only [hkj, if_true, or_true, and_true]
    constructor
    · intro hall
      have hmax := hall (max phdrs[i].fileEnd phdrs[j].paddr.toNat)
      have hpi := hk.1
      omega
    · intro hno a ha
      by_cases hw : phdrs[i].Wraps phdrs[j]
      · simp only [hw, true_and] at hno
        omega
      · simp only [hw, not_false_eq_true, and_true] at hmiss
        omega
  · simp only [hkj, if_false, or_false]
    constructor
    · intro hall
      have hmax := hall (max phdrs[i].fileEnd phdrs[j].paddr.toNat)
      have hpi := hk.1
      omega
    · intro hno a ha
      by_cases hw : phdrs[i].Wraps phdrs[j]
      · simp only [hw, true_and] at hno
        omega
      · simp only [hw, not_false_eq_true, and_true] at hmiss
        omega

theorem clear_iff (h : Layout phdrs) : Clear (segmentsOf phdrs) ↔ FilterSuffices phdrs := by
  rw [clear_segmentsOf_iff]
  constructor
  · intro hclear i j hne hk
    exact (kept_clear_iff h hne hk).mp (hclear i j hne)
  · intro hfilter i j hne a ⟨hzero, hholds⟩
    have hk : Kept phdrs i := ((zero_iff h i a).mp hzero).1
    exact (kept_clear_iff h hne hk).mpr (hfilter i j hne hk) a ⟨hzero, hholds⟩

/-! ## Loading -/

/-- The content of a physical memory. -/
abbrev Memory := Nat → UInt8

/-- The memory after `bytes` have been stored from `a` on. -/
def store (mem : Memory) (a : Nat) (bytes : Bytes) : Memory := fun x =>
  if a ≤ x then bytes[x - a]?.getD (mem x) else mem x

/-- Load segments one after the other, each to its physical address. -/
def loadAll : List Segment → Memory → Fd Memory
  | [], mem => return mem
  | seg :: segs, mem => do
    let bytes ← readSegment seg
    loadAll segs (store mem seg.phys.toNat bytes)

/-- Loading in one order gives what loading in any other order gives, wherever the
file stands before. -/
def OrderIrrelevant (segs : List Segment) : Prop :=
  ∀ (order order' : List Segment) (mem mem' : Memory) (file file' : File),
    order.Perm segs → order'.Perm segs → (loadAll order mem).run file = .ok (mem', file') →
    ∃ file'', (loadAll order' mem).run file = .ok (mem', file'')

/-- Stores to disjoint ranges commute. -/
theorem store_comm {a b : Nat} {xs ys : Bytes}
    (h : ∀ x, ¬ ((a ≤ x ∧ x < a + xs.length) ∧ b ≤ x ∧ x < b + ys.length)) (mem : Memory) :
    store (store mem a xs) b ys = store (store mem b ys) a xs := by
  funext x
  have hx := h x
  simp only [store]
  by_cases ha : a ≤ x
  · by_cases hb : b ≤ x
    · rcases Nat.lt_or_ge (x - a) xs.length with hlt | hge
      · have hnone : ys[x - b]? = none := List.getElem?_eq_none (by omega)
        simp [ha, hb, hnone]
      · have hnone : xs[x - a]? = none := List.getElem?_eq_none hge
        simp [ha, hb, hnone]
    · simp [ha, hb]
  · simp [ha]

/-- A store changes nothing outside of its range. -/
theorem store_of_outside {a x : Nat} {bytes : Bytes} (h : ¬ (a ≤ x ∧ x < a + bytes.length))
    (mem : Memory) : store mem a bytes x = mem x := by
  rw [store]
  split
  next hle => rw [List.getElem?_eq_none (by omega), Option.getD_none]
  next => rfl

/-- The offset is one that `lseek` refuses, and the refusal is noticed. -/
def Segment.Unreachable (seg : Segment) : Prop := ¬ seg.offset.toNat < 2 ^ 63 ∧ seg.offset ≠ -1

instance (seg : Segment) : Decidable seg.Unreachable := inferInstanceAs (Decidable (_ ∧ _))

/-- Where the data of a segment are read.  `lseek` refuses the offset `-1` with `-1`, so that the
segment is read from wherever the file stands. -/
def Segment.start (seg : Segment) (pos : Nat) : Nat :=
  if seg.offset = -1 then pos else seg.offset.toNat

/-- The file has the data of a segment, at an offset that can be reached. -/
def Readable (data : Bytes) (pos : Nat) (seg : Segment) : Prop :=
  ¬ seg.Unreachable ∧
    ((data.drop (seg.start pos)).take seg.filesz.toNat).length = seg.filesz.toNat

/-- What `read_segment` stores. -/
def contents (data : Bytes) (pos : Nat) (seg : Segment) : Bytes :=
  (data.drop (seg.start pos)).take seg.filesz.toNat ++
    if seg.filesz < seg.size then List.replicate (seg.size - seg.filesz).toNat 0 else []

theorem seekTo_segment {seg : Segment} (h : ¬ seg.Unreachable) (message : String) (file : File) :
    (seekTo seg.offset message).run file = .ok ((), { file with pos := seg.start file.pos }) := by
  rw [Segment.Unreachable, not_and_or, not_not, not_not] at h
  by_cases hoffset : seg.offset = -1
  · rw [Segment.start, if_pos hoffset, hoffset]
    rfl
  · rw [Segment.start, if_neg hoffset, seekTo_run (h.resolve_right hoffset)]

theorem readSegment_run {seg : Segment} {file : File} (h : Readable file.data file.pos seg) :
    (readSegment seg).run file =
      .ok (contents file.data file.pos seg, { file with pos := 0 }) := by
  rw [readSegment, run_bind_of_ok (seekTo_segment h.1 _ file),
    run_bind_of_ok (readExactly_run h.2 _), run_bind_of_ok (seekTo_run (by decide) _ _), contents]
  split
  · rfl
  · rw [List.append_nil]
    rfl

theorem readable_of_readSegment {seg : Segment} {file : File} {r : Bytes × File}
    (h : (readSegment seg).run file = .ok r) : Readable file.data file.pos seg := by
  rw [readSegment] at h
  by_cases hreach : seg.Unreachable
  · rw [run_bind_of_error (seekTo_run_error hreach.1 hreach.2 _ file)] at h
    cases h
  · refine ⟨hreach, ?_⟩
    rw [run_bind_of_ok (seekTo_segment hreach _ file)] at h
    by_contra hlen
    rw [run_bind_of_error (readExactly_run_error hlen _)] at h
    cases h

/-- The memory after some segments have been stored.  The first one is read with the file at
`pos`, and every other one with the file at its beginning. -/
def loaded (data : Bytes) : Nat → List Segment → Memory → Memory
  | _, [], mem => mem
  | pos, seg :: segs, mem => loaded data 0 segs (store mem seg.phys.toNat (contents data pos seg))

theorem loadAll_run {segs : List Segment} {file : File} (mem : Memory)
    (h : ∀ seg ∈ segs, Readable file.data file.pos seg ∧ Readable file.data 0 seg) :
    ∃ file', (loadAll segs mem).run file = .ok (loaded file.data file.pos segs mem, file') := by
  induction segs generalizing mem file with
  | nil => exact ⟨file, rfl⟩
  | cons seg segs ih =>
    have hseg := readSegment_run (h seg List.mem_cons_self).1
    rw [loadAll, run_bind_of_ok hseg]
    refine ih _ fun seg' hseg' => ?_
    have hzero := (h seg' (List.mem_cons_of_mem seg hseg')).2
    exact ⟨hzero, hzero⟩

/-- What has been loaded could be read. -/
theorem readable_of_loadAll {segs : List Segment} {file : File} (mem : Memory) {r : Memory × File}
    (h : (loadAll segs mem).run file = .ok r) :
    ∀ seg ∈ segs, ∃ pos, Readable file.data pos seg := by
  induction segs generalizing mem file with
  | nil => exact fun seg hseg => by cases hseg
  | cons seg segs ih =>
    rw [loadAll] at h
    rcases run_bind_eq_ok.mp h with ⟨bytes, file', hread, hrest⟩
    have hseg := readable_of_readSegment hread
    rw [readSegment_run hseg] at hread
    cases hread
    rw [List.forall_mem_cons]
    have htail := ih _ hrest
    exact ⟨⟨_, hseg⟩, htail⟩

/-! ## Segments that are found -/

/-- The data of the segment do not depend on where the file stands. -/
def Segment.Placed (seg : Segment) : Prop := seg.offset ≠ -1 ∨ seg.filesz = 0

instance (seg : Segment) : Decidable seg.Placed := inferInstanceAs (Decidable (_ ∨ _))

theorem Segment.Placed.readable {seg : Segment} (h : seg.Placed) {data : Bytes} {pos : Nat}
    (hread : Readable data pos seg) (pos' : Nat) : Readable data pos' seg := by
  refine ⟨hread.1, ?_⟩
  rcases h with hoffset | hzero
  · have hlength := hread.2
    rwa [Segment.start, if_neg hoffset] at hlength ⊢
  · rw [hzero]
    rfl

theorem Segment.Placed.contents_eq {seg : Segment} (h : seg.Placed) (data : Bytes)
    (pos pos' : Nat) : contents data pos seg = contents data pos' seg := by
  rcases h with hoffset | hzero
  · rw [contents, contents, Segment.start, Segment.start, if_neg hoffset, if_neg hoffset]
  · rw [contents, contents, hzero]
    rfl

theorem loaded_eq_foldl {segs : List Segment} (h : ∀ seg ∈ segs, seg.Placed) (data : Bytes)
    (pos : Nat) (mem : Memory) :
    loaded data pos segs mem =
      segs.foldl (fun mem seg => store mem seg.phys.toNat (contents data 0 seg)) mem := by
  induction segs generalizing pos mem with
  | nil => rfl
  | cons seg segs ih =>
    rw [loaded, (h seg List.mem_cons_self).contents_eq data pos 0]
    exact ih (fun seg' hseg' => h seg' (List.mem_cons_of_mem seg hseg')) _ _

/-! ## Segments that stay clear of each other -/

theorem contents_length {data : Bytes} {pos : Nat} {seg : Segment} (h : Readable data pos seg)
    (hle : seg.filesz.toNat ≤ seg.size.toNat) :
    (contents data pos seg).length = seg.size.toNat := by
  rw [contents, List.length_append, h.2]
  split
  · rename_i hlt
    have hlt : seg.filesz.toNat < seg.size.toNat := hlt
    rw [List.length_replicate, BitVec.toNat_sub_of_le (Nat.le_of_lt hlt)]
    omega
  · rename_i hnlt
    have hnlt : ¬ seg.filesz.toNat < seg.size.toNat := hnlt
    rw [List.length_nil]
    omega

theorem filesz_le_size (h : Layout phdrs) (i : Fin phdrs.length) :
    (segmentOf phdrs i phdrs[i]).filesz.toNat ≤ (segmentOf phdrs i phdrs[i]).size.toNat := by
  have hend := segment_end h i
  have hle := h.filesz_le phdrs[i] (List.getElem_mem i.isLt)
  simp only [segmentOf, toNat_setWidth_word]
  rw [Phdr.memEnd, Phdr.fileEnd] at hend
  split at hend <;> omega

/-- Segments of different headers take disjoint ranges when the paddings are
clear. -/
theorem holds_disjoint (h : Layout phdrs) (hclear : Clear (segmentsOf phdrs))
    {i j : Fin phdrs.length} (hne : i ≠ j) (a : Nat) :
    ¬ ((segmentOf phdrs i phdrs[i]).Holds a ∧ (segmentOf phdrs j phdrs[j]).Holds a) := by
  rw [clear_segmentsOf_iff] at hclear
  rintro ⟨hi, hj⟩
  have hzi : ¬ (segmentOf phdrs i phdrs[i]).Zero a := fun hz => hclear i j hne a ⟨hz, hj⟩
  have hzj : ¬ (segmentOf phdrs j phdrs[j]).Zero a := fun hz => hclear j i hne.symm a ⟨hz, hi⟩
  have hfile := h.disjoint i j hne a
  rw [Segment.Holds] at hi hj
  rw [Segment.Zero] at hzi hzj
  simp only [segmentOf, toNat_setWidth_word] at hi hj hzi hzj
  rw [Phdr.fileEnd, Phdr.fileEnd] at hfile
  omega

/-- Segments that stay clear of each other, and whose data are found, may be loaded in any
order. -/
theorem loadAll_perm (h : Layout phdrs) (hclear : Clear (segmentsOf phdrs))
    (hplaced : ∀ seg ∈ segmentsOf phdrs, seg.Placed) : OrderIrrelevant (segmentsOf phdrs) := by
  intro order order' mem mem' file file' horder horder' hload
  have hperm : order.Perm order' := horder.trans horder'.symm
  have hread : ∀ seg ∈ order, ∀ pos, Readable file.data pos seg := by
    intro seg hseg pos
    obtain ⟨pos', hpos⟩ := readable_of_loadAll mem hload seg hseg
    exact (hplaced seg (horder.mem_iff.mp hseg)).readable hpos pos
  have hread' : ∀ seg ∈ order', ∀ pos, Readable file.data pos seg :=
    fun seg hseg => hread seg (hperm.mem_iff.mpr hseg)
  rcases loadAll_run mem fun seg hseg => ⟨hread seg hseg _, hread seg hseg 0⟩ with ⟨f, hf⟩
  rcases loadAll_run mem fun seg hseg => ⟨hread' seg hseg _, hread' seg hseg 0⟩ with ⟨f', hf'⟩
  rw [hload, Except.ok.injEq, Prod.mk.injEq] at hf
  refine ⟨f', ?_⟩
  rw [hf', hf.1, loaded_eq_foldl fun seg hseg => hplaced seg (horder.mem_iff.mp hseg),
    loaded_eq_foldl fun seg hseg => hplaced seg (horder'.mem_iff.mp hseg), hperm.foldl_eq' ?_ mem]
  intro x hx y hy z
  rcases List.mem_mapIdx.mp (horder.mem_iff.mp hx) with ⟨i, hi, rfl⟩
  rcases List.mem_mapIdx.mp (horder.mem_iff.mp hy) with ⟨j, hj, rfl⟩
  by_cases hij : i = j
  · subst hij
    rfl
  · have hne : (⟨i, hi⟩ : Fin phdrs.length) ≠ ⟨j, hj⟩ := fun heq => hij (congrArg Fin.val heq)
    refine store_comm (fun a => ?_) z
    rw [contents_length (hread _ hx 0) (filesz_le_size h ⟨i, hi⟩),
      contents_length (hread _ hy 0) (filesz_le_size h ⟨j, hj⟩)]
    exact holds_disjoint h hclear hne a

/-! ## When the order does not matter -/

theorem orderIrrelevant_of_length_le_one {segs : List Segment} (h : segs.length ≤ 1) :
    OrderIrrelevant segs := by
  intro order order' mem mem' file file' horder horder' hload
  have hsame : ∀ other : List Segment, other.Perm segs → other = segs := by
    intro other hother
    match segs, h with
    | [], _ => exact hother.eq_nil
    | [seg], _ => exact List.perm_singleton.mp hother
  rw [hsame order horder] at hload
  rw [hsame order' horder']
  exact ⟨file', hload⟩

theorem orderIrrelevant_of_unreachable {segs : List Segment} {seg : Segment} (hseg : seg ∈ segs)
    (h : seg.Unreachable) : OrderIrrelevant segs := by
  intro order order' mem mem' file file' horder _ hload
  obtain ⟨pos, hread⟩ := readable_of_loadAll mem hload seg (horder.mem_iff.mpr hseg)
  exact absurd h hread.1

/-- A file of `n + 1` bytes, of which only the first one is zero. -/
def markedData (n : Nat) : Bytes := 0 :: List.replicate n 1

theorem readable_markedData {seg : Segment} (h : ¬ seg.Unreachable) {n : Nat} (hn : 2 ^ 65 ≤ n)
    {pos : Nat} (hpos : pos ≤ 1) : Readable (markedData n) pos seg := by
  refine ⟨h, ?_⟩
  rw [Segment.Unreachable, not_and_or, not_not, not_not] at h
  have hstart : seg.start pos < 2 ^ 63 := by
    rw [Segment.start]
    split
    next => omega
    next hne => exact h.resolve_right hne
  have hfilesz : seg.filesz.toNat < 2 ^ 64 := seg.filesz.isLt
  rw [List.length_take, List.length_drop, markedData, List.length_cons, List.length_replicate]
  omega

/-- The first byte of a segment that is read from wherever the file stands. -/
theorem head_contents {seg : Segment} (h : ¬ seg.Placed) {n : Nat} (hn : 2 ^ 65 ≤ n) {pos : Nat}
    (hpos : pos ≤ 1) : (contents (markedData n) pos seg)[0]? = some (UInt8.ofNat pos) := by
  rw [Segment.Placed, not_or, not_not] at h
  have hfilesz : 0 < seg.filesz.toNat := by
    refine Nat.pos_of_ne_zero fun hzero => h.2 ?_
    exact BitVec.eq_of_toNat_eq hzero
  have hreach : ¬ seg.Unreachable := fun hnot => hnot.2 h.1
  have hread := readable_markedData hreach hn hpos
  rw [contents, List.getElem?_append_left (by rw [hread.2]; exact hfilesz),
    List.getElem?_take_of_lt hfilesz, List.getElem?_drop, Segment.start, if_pos h.1, Nat.add_zero]
  match pos, hpos with
  | 0, _ => rfl
  | 1, _ =>
    show (List.replicate n (1 : UInt8))[0]? = some 1
    rw [List.getElem?_replicate, if_pos (by omega)]

/-- Segments that do not hold an address leave it as it is. -/
theorem loaded_of_not_holds {data : Bytes} {a : Nat} {segs : List Segment} {pos : Nat}
    (h : ∀ seg ∈ segs, Readable data pos seg ∧ Readable data 0 seg ∧
      seg.filesz.toNat ≤ seg.size.toNat ∧ ¬ seg.Holds a) (mem : Memory) :
    loaded data pos segs mem a = mem a := by
  induction segs generalizing pos mem with
  | nil => rfl
  | cons seg segs ih =>
    obtain ⟨hread, -, hle, hholds⟩ := h seg List.mem_cons_self
    have hrest : ∀ seg' ∈ segs, Readable data 0 seg' ∧ Readable data 0 seg' ∧
        seg'.filesz.toNat ≤ seg'.size.toNat ∧ ¬ seg'.Holds a := by
      intro seg' hseg'
      obtain ⟨-, hzero⟩ := h seg' (List.mem_cons_of_mem seg hseg')
      exact ⟨hzero.1, hzero⟩
    rw [loaded, ih hrest]
    refine store_of_outside ?_ mem
    rw [contents_length hread hle]
    exact hholds

theorem pos_of_not_placed {seg : Segment} (h : ¬ seg.Placed) : 0 < seg.filesz.toNat := by
  rw [Segment.Placed, not_or] at h
  exact Nat.pos_of_ne_zero fun hzero => h.2 (BitVec.eq_of_toNat_eq hzero)

/-- The other segments do not hold the first byte of a segment. -/
theorem not_holds_phys (h : Layout phdrs) (hclear : Clear (segmentsOf phdrs)) {i : Nat}
    (hi : i < phdrs.length) (hfilesz : 0 < (segmentOf phdrs i phdrs[i]).filesz.toNat) :
    ∀ other ∈ (segmentsOf phdrs).eraseIdx i, other.filesz.toNat ≤ other.size.toNat ∧
      ¬ other.Holds (segmentOf phdrs i phdrs[i]).phys.toNat := by
  intro other hother
  obtain ⟨j, hj, hne, rfl⟩ := List.mem_eraseIdx_iff_getElem.mp hother
  simp only [segmentsOf, List.length_mapIdx] at hj
  simp only [segmentsOf, List.getElem_mapIdx]
  refine ⟨filesz_le_size h ⟨j, hj⟩, fun hholds => ?_⟩
  have hle : (segmentOf phdrs i phdrs[i]).filesz.toNat ≤ (segmentOf phdrs i phdrs[i]).size.toNat :=
    filesz_le_size h ⟨i, hi⟩
  have hself : (segmentOf phdrs i phdrs[i]).Holds (segmentOf phdrs i phdrs[i]).phys.toNat :=
    ⟨Nat.le_refl _, by omega⟩
  have hdistinct : (⟨i, hi⟩ : Fin phdrs.length) ≠ ⟨j, hj⟩ := fun heq =>
    hne (congrArg Fin.val heq).symm
  exact holds_disjoint h hclear hdistinct _ ⟨hself, hholds⟩

/-- The first byte of a segment that is read from wherever the file stands, in the memory. -/
theorem loaded_first {seg : Segment} (hplaced : ¬ seg.Placed) {n : Nat} (hn : 2 ^ 65 ≤ n)
    {pos : Nat} (hpos : pos ≤ 1) {segs : List Segment}
    (h : ∀ other ∈ segs, ¬ other.Unreachable ∧ other.filesz.toNat ≤ other.size.toNat ∧
      ¬ other.Holds seg.phys.toNat) (mem : Memory) :
    loaded (markedData n) pos (seg :: segs) mem seg.phys.toNat = UInt8.ofNat pos := by
  have hrest : ∀ other ∈ segs, Readable (markedData n) 0 other ∧ Readable (markedData n) 0 other ∧
      other.filesz.toNat ≤ other.size.toNat ∧ ¬ other.Holds seg.phys.toNat := by
    intro other hother
    obtain ⟨hreach, hholds⟩ := h other hother
    have hread := readable_markedData hreach hn (Nat.zero_le 1)
    exact ⟨hread, hread, hholds⟩
  rw [loaded, loaded_of_not_holds hrest, store, if_pos (Nat.le_refl _), Nat.sub_self,
    head_contents hplaced hn hpos, Option.getD_some]

/-- A segment that is read from wherever the file stands has other bytes when it comes first
than when it comes second. -/
theorem placed_of_orderIrrelevant (h : Layout phdrs) (hclear : Clear (segmentsOf phdrs))
    (horder : OrderIrrelevant (segmentsOf phdrs)) (hlength : 1 < phdrs.length)
    (hreach : ∀ seg ∈ segmentsOf phdrs, ¬ seg.Unreachable) :
    ∀ seg ∈ segmentsOf phdrs, seg.Placed := by
  intro seg hseg
  by_contra hplaced
  obtain ⟨i, hi, rfl⟩ := List.mem_mapIdx.mp hseg
  obtain ⟨n, hn⟩ : ∃ n, 2 ^ 65 ≤ n := ⟨_, Nat.le_refl _⟩
  have hlen : (segmentsOf phdrs).length = phdrs.length := List.length_mapIdx
  have hperm : (segmentOf phdrs i phdrs[i] :: (segmentsOf phdrs).eraseIdx i).Perm
      (segmentsOf phdrs) := by
    have hi' : i < (segmentsOf phdrs).length := hlen ▸ hi
    have hget : (segmentsOf phdrs)[i] = segmentOf phdrs i phdrs[i] := List.getElem_mapIdx ..
    rw [← hget]
    exact List.getElem_cons_eraseIdx_perm _
  have hothers := not_holds_phys h hclear hi (pos_of_not_placed hplaced)
  generalize segmentOf phdrs i phdrs[i] = seg at *
  have hmem : ∀ other ∈ (segmentsOf phdrs).eraseIdx i, ¬ other.Unreachable ∧
      other.filesz.toNat ≤ other.size.toNat ∧ ¬ other.Holds seg.phys.toNat := fun other hother =>
    ⟨hreach other (List.mem_of_mem_eraseIdx hother), hothers other hother⟩
  cases hrest : (segmentsOf phdrs).eraseIdx i with
  | nil =>
    have hone := hperm.length_eq
    rw [hrest, hlen, List.length_singleton] at hone
    omega
  | cons other rest =>
    rw [hrest] at hperm hmem
    have hread : ∀ s ∈ seg :: other :: rest, ∀ pos ≤ 1, Readable (markedData n) pos s :=
      fun s hs pos hpos => readable_markedData (hreach s (hperm.mem_iff.mp hs)) hn hpos
    have hswap : (other :: seg :: rest).Perm (segmentsOf phdrs) := (List.Perm.swap ..).trans hperm
    -- the same file at its second byte, with this segment in the first and in the second place
    have hrun : ∀ segs : List Segment, segs.Perm (seg :: other :: rest) → ∃ f,
        (loadAll segs fun _ => 0).run ⟨markedData n, 1⟩ =
          .ok (loaded (markedData n) 1 segs fun _ => 0, f) := fun segs hsegs =>
      loadAll_run _ fun s hs => ⟨hread s (hsegs.mem_iff.mp hs) 1 (Nat.le_refl 1),
        hread s (hsegs.mem_iff.mp hs) 0 (Nat.zero_le 1)⟩
    obtain ⟨f, hfirst⟩ := hrun (seg :: other :: rest) (.refl _)
    obtain ⟨f', hsecond⟩ := hrun (other :: seg :: rest) (.swap ..)
    obtain ⟨f'', hsame⟩ := horder _ _ _ _ _ _ hperm hswap hfirst
    rw [hsecond, Except.ok.injEq, Prod.mk.injEq] at hsame
    have hbyte := congrFun hsame.1 seg.phys.toNat
    rw [loaded_first hplaced hn (Nat.le_refl 1) hmem, loaded,
      loaded_first hplaced hn (Nat.zero_le 1) fun s hs => hmem s (List.mem_cons_of_mem other hs)]
      at hbyte
    exact absurd hbyte (by decide)

/-! ## The headers -/

/-- The order of the segments does not matter for their data: there is only one of them, or no
order of them can be loaded, as `lseek` refuses an offset and the refusal is noticed, or the data
of each of them are found wherever the file stands. -/
def SeekSuffices (phdrs : List (Phdr c)) : Prop :=
  phdrs.length ≤ 1 ∨
    (∃ phdr ∈ phdrs, 2 ^ 63 ≤ phdr.offset.toNat ∧ phdr.offset.toNat ≠ 2 ^ 64 - 1) ∨
    ∀ phdr ∈ phdrs, phdr.offset.toNat ≠ 2 ^ 64 - 1 ∨ phdr.filesz.toNat = 0

instance (phdrs : List (Phdr c)) : Decidable (SeekSuffices phdrs) :=
  inferInstanceAs (Decidable (_ ∨ _ ∨ _))

theorem mem_segmentsOf {seg : Segment} : seg ∈ segmentsOf phdrs ↔
    ∃ i : Fin phdrs.length, segmentOf phdrs i phdrs[i] = seg := by
  rw [segmentsOf, List.mem_mapIdx]
  constructor
  · rintro ⟨i, hi, heq⟩
    exact ⟨⟨i, hi⟩, heq⟩
  · rintro ⟨i, heq⟩
    exact ⟨i, i.isLt, heq⟩

theorem offset_segmentOf (phdrs : List (Phdr c)) (i : Nat) (phdr : Phdr c) :
    (segmentOf phdrs i phdr).offset.toNat = phdr.offset.toNat ∧
      ((segmentOf phdrs i phdr).offset = -1 ↔ phdr.offset.toNat = 2 ^ 64 - 1) := by
  have hoffset : (segmentOf phdrs i phdr).offset.toNat = phdr.offset.toNat :=
    toNat_setWidth_word phdr.offset
  refine ⟨hoffset, ?_⟩
  rw [← hoffset, ← BitVec.toNat_inj]
  rfl

theorem filesz_segmentOf (phdrs : List (Phdr c)) (i : Nat) (phdr : Phdr c) :
    (segmentOf phdrs i phdr).filesz.toNat = phdr.filesz.toNat :=
  toNat_setWidth_word phdr.filesz

theorem unreachable_segmentOf (i : Nat) (phdr : Phdr c) :
    (segmentOf phdrs i phdr).Unreachable ↔
      2 ^ 63 ≤ phdr.offset.toNat ∧ phdr.offset.toNat ≠ 2 ^ 64 - 1 := by
  obtain ⟨hoffset, hneg⟩ := offset_segmentOf phdrs i phdr
  rw [Segment.Unreachable, hoffset, Nat.not_lt, ne_eq, hneg]

theorem placed_segmentOf (i : Nat) (phdr : Phdr c) :
    (segmentOf phdrs i phdr).Placed ↔
      phdr.offset.toNat ≠ 2 ^ 64 - 1 ∨ phdr.filesz.toNat = 0 := by
  rw [Segment.Placed, ne_eq, (offset_segmentOf phdrs i phdr).2, ← filesz_segmentOf phdrs i,
    ← BitVec.toNat_inj]
  rfl

/-- The condition, in terms of the segments. -/
theorem seekSuffices_iff : SeekSuffices phdrs ↔ phdrs.length ≤ 1 ∨
    (∃ seg ∈ segmentsOf phdrs, seg.Unreachable) ∨ ∀ seg ∈ segmentsOf phdrs, seg.Placed := by
  refine or_congr_right (or_congr ?_ ?_)
  · constructor
    · rintro ⟨phdr, hphdr, h⟩
      obtain ⟨i, hi, rfl⟩ := List.getElem_of_mem hphdr
      exact ⟨_, mem_segmentsOf.mpr ⟨⟨i, hi⟩, rfl⟩, (unreachable_segmentOf i _).mpr h⟩
    · rintro ⟨seg, hseg, h⟩
      obtain ⟨i, rfl⟩ := mem_segmentsOf.mp hseg
      exact ⟨_, List.getElem_mem i.isLt, (unreachable_segmentOf i _).mp h⟩
  · constructor
    · intro h seg hseg
      obtain ⟨i, rfl⟩ := mem_segmentsOf.mp hseg
      exact (placed_segmentOf i _).mpr (h _ (List.getElem_mem i.isLt))
    · intro h phdr hphdr
      obtain ⟨i, hi, rfl⟩ := List.getElem_of_mem hphdr
      exact (placed_segmentOf i _).mp (h _ (mem_segmentsOf.mpr ⟨⟨i, hi⟩, rfl⟩))

/-! ## The result -/

/-- The paddings of the segments that either reader returns for the `PT_LOAD`
headers `phdrs` stay clear of the other segments, and the segments may be loaded
in any order, exactly when the filter suffices and the order does not matter for
the data. -/
theorem segments_clear_iff (phdrs : List (Phdr c)) (hload : ∀ phdr ∈ phdrs, phdr.type = PT_LOAD)
    (h : Layout phdrs) :
    Libelf.segmentsOf phdrs = segmentsOf phdrs ∧
      (Clear (segmentsOf phdrs) ∧ OrderIrrelevant (segmentsOf phdrs) ↔
        FilterSuffices phdrs ∧ SeekSuffices phdrs) := by
  refine ⟨?_, ?_, ?_⟩
  · rw [Libelf.segmentsOf_eq, List.filter_eq_self.mpr (by simpa using hload)]
  · rintro ⟨hclear, horder⟩
    refine ⟨(clear_iff h).mp hclear, ?_⟩
    rw [seekSuffices_iff, or_iff_not_imp_left, Nat.not_le, or_iff_not_imp_left]
    intro hlength hreach
    simp only [not_exists, not_and] at hreach
    exact placed_of_orderIrrelevant h hclear horder hlength hreach
  · rintro ⟨hfilter, hseek⟩
    have hclear := (clear_iff h).mpr hfilter
    refine ⟨hclear, ?_⟩
    rcases seekSuffices_iff.mp hseek with hlength | ⟨seg, hseg, hreach⟩ | hplaced
    · exact orderIrrelevant_of_length_le_one (by rwa [segmentsOf, List.length_mapIdx])
    · exact orderIrrelevant_of_unreachable hseg hreach
    · exact loadAll_perm h hclear hplaced

/-- A `PT_LOAD` header of 32 bits at its virtual address. -/
def loadHeader (paddr filesz memsz : BitVec 32) : Phdr .elf32 where
  type := PT_LOAD
  flags := PF_R
  offset := 0x1000
  vaddr := paddr
  paddr := paddr
  filesz := filesz
  memsz := memsz
  align := 1

/-- Headers whose ranges in the file follow each other. -/
theorem layout_pair {p q : Phdr c} (hp : p.filesz.toNat ≤ p.memsz.toNat)
    (hq : q.filesz.toNat ≤ q.memsz.toNat) (hpend : p.memEnd ≤ 2 ^ c.bits)
    (hqend : q.memEnd ≤ 2 ^ c.bits) (h : p.fileEnd ≤ q.paddr.toNat) : Layout [p, q] where
  filesz_le := by simp [hp, hq]
  memEnd_le := by simp [hpend, hqend]
  disjoint := by
    intro i j hne a
    match i, j, hne with
    | 0, 0, hne => exact absurd rfl hne
    | 0, 1, _ =>
      show ¬ ((p.paddr.toNat ≤ a ∧ a < p.fileEnd) ∧ q.paddr.toNat ≤ a ∧ a < q.fileEnd)
      omega
    | 1, 0, _ =>
      show ¬ ((q.paddr.toNat ≤ a ∧ a < q.fileEnd) ∧ p.paddr.toNat ≤ a ∧ a < p.fileEnd)
      omega
    | 1, 1, hne => exact absurd rfl hne

/-- A padding that ends where the next segment begins. -/
theorem adjacent_clear :
    Clear (segmentsOf [loadHeader 0 0x10 0x30, loadHeader 0x30 0x20 0x40]) ∧
      OrderIrrelevant (segmentsOf [loadHeader 0 0x10 0x30, loadHeader 0x30 0x20 0x40]) :=
  (segments_clear_iff [loadHeader 0 0x10 0x30, loadHeader 0x30 0x20 0x40] (by decide)
    (layout_pair (by decide) (by decide) (by decide) (by decide) (by decide))).2.mpr (by decide)

/-- A padding that ends in the middle of the next segment: the first segment is
padded over the first bytes of the second one. -/
theorem straddling_not_clear :
    Layout [loadHeader 0 0x10 0x40, loadHeader 0x30 0x20 0x20] ∧
      segmentsOf [loadHeader 0 0x10 0x40, loadHeader 0x30 0x20 0x20] =
        [{ virt := 0, phys := 0, size := 0x40, filesz := 0x10, offset := 0x1000,
           r := true, w := false, x := false },
         { virt := 0x30, phys := 0x30, size := 0x20, filesz := 0x20, offset := 0x1000,
           r := true, w := false, x := false }] ∧
      ¬ Clear (segmentsOf [loadHeader 0 0x10 0x40, loadHeader 0x30 0x20 0x20]) := by
  refine ⟨layout_pair (by decide) (by decide) (by decide) (by decide) (by decide), by decide,
    fun hclear => ?_⟩
  exact hclear ⟨0, by decide⟩ ⟨1, by decide⟩ (by decide) 0x30 (by decide)

end Mwr.Elf
