import Mathlib.Data.BitVec
import Mathlib.Tactic.Ring
import Mwr.Elf.Model

/-!
# From virtual to physical addresses

What `to_phys` does, in both readers.  The end of a segment is a sum of 64 bits, so
that a segment that reaches the top of the address space has an end below its
beginning, and no address is found in it (`toPhys_eq`).
-/

namespace Mwr.Elf

/-- The address is one of the `size` addresses from `seg.virt` on. -/
def Segment.Contains (seg : Segment) (virt : BitVec 64) : Prop :=
  seg.virt.toNat ≤ virt.toNat ∧ virt.toNat < seg.virt.toNat + seg.size.toNat

/-- The segment ends below the top of the address space. -/
def Segment.EndsBelowTop (seg : Segment) : Prop :=
  seg.virt.toNat + seg.size.toNat < 2 ^ 64

instance (seg : Segment) (virt : BitVec 64) : Decidable (seg.Contains virt) :=
  inferInstanceAs (Decidable (_ ∧ _))

instance (seg : Segment) : Decidable seg.EndsBelowTop := Nat.decLt _ _

/-- The first segment that contains the address. -/
def firstSegment (segments : List Segment) (virt : BitVec 64) : Option Segment :=
  segments.find? fun seg => seg.Contains virt

/-- The first one of those that end below the top. -/
def foundSegment (segments : List Segment) (virt : BitVec 64) : Option Segment :=
  segments.find? fun seg => seg.EndsBelowTop ∧ seg.Contains virt

/-- What a segment adds to its addresses; without a segment they stay as they are. -/
def displacement : Option Segment → BitVec 64
  | none => 0
  | some seg => seg.phys - seg.virt

/-- The physical address is the one that the segments give to the virtual one. -/
structure Translates (segments : List Segment) (virt phys : BitVec 64) : Prop where
  inside : ∀ seg, firstSegment segments virt = some seg → phys = seg.phys + (virt - seg.virt)
  outside : (∀ seg ∈ segments, ¬ seg.Contains virt) → phys = virt
  /-- An address that a segment contains comes back unchanged only if the segment says so. -/
  unchanged : phys = virt → ∀ seg, firstSegment segments virt = some seg → seg.phys = seg.virt

/-! ## The comparison -/

/-- The comparison finds an address in a segment unless the end of the segment wraps. -/
theorem found_iff (seg : Segment) (virt : BitVec 64) :
    (virt ≥ seg.virt ∧ virt < seg.virt + seg.size) ↔ seg.EndsBelowTop ∧ seg.Contains virt := by
  have hvirt : virt.toNat < 2 ^ 64 := virt.isLt
  have hsize : seg.size.toNat < 2 ^ 64 := seg.size.isLt
  have hbase : seg.virt.toNat < 2 ^ 64 := seg.virt.isLt
  rw [ge_iff_le, BitVec.le_def, BitVec.lt_def, BitVec.toNat_add, Segment.EndsBelowTop,
    Segment.Contains]
  by_cases hend : seg.virt.toNat + seg.size.toNat < 2 ^ 64
  · rw [Nat.mod_eq_of_lt hend]
    exact (and_iff_right hend).symm
  · have hwrap : (seg.virt.toNat + seg.size.toNat) % 2 ^ 64 =
        seg.virt.toNat + seg.size.toNat - 2 ^ 64 := by
      rw [Nat.mod_eq_sub_mod (Nat.not_lt.mp hend), Nat.mod_eq_of_lt (by omega)]
    rw [hwrap]
    omega

theorem add_displacement (seg : Segment) (virt : BitVec 64) :
    virt + displacement (some seg) = seg.phys + (virt - seg.virt) := by
  rw [displacement]
  ring

theorem toPhys_eq (segments : List Segment) (virt : BitVec 64) :
    toPhys segments virt =
      virt + displacement (foundSegment segments virt) := by
  unfold foundSegment
  induction segments with
  | nil => exact (BitVec.add_zero virt).symm
  | cons seg segments ih =>
    rw [toPhys, List.find?_cons]
    by_cases h : seg.EndsBelowTop ∧ seg.Contains virt
    · rw [if_pos ((found_iff seg virt).mpr h), decide_eq_true h]
      show _ = virt + displacement (some seg)
      rw [add_displacement]
      ring
    · rw [if_neg fun hfound => h ((found_iff seg virt).mp hfound), decide_eq_false h]
      exact ih

/-! ## The translation -/

theorem firstSegment_eq_none_iff {segments : List Segment} {virt : BitVec 64} :
    firstSegment segments virt = none ↔ ∀ seg ∈ segments, ¬ seg.Contains virt := by
  rw [firstSegment, List.find?_eq_none]
  simp only [decide_eq_true_eq]

theorem translates_iff {segments : List Segment} {virt phys : BitVec 64} :
    Translates segments virt phys ↔ phys = virt + displacement (firstSegment segments virt) := by
  cases hfirst : firstSegment segments virt with
  | none =>
    have hnone := firstSegment_eq_none_iff.mp hfirst
    constructor
    · intro h
      rw [h.outside hnone]
      exact (BitVec.add_zero virt).symm
    · intro h
      have hphys : phys = virt := h.trans (BitVec.add_zero virt)
      exact ⟨fun seg hseg => (nomatch hfirst.symm.trans hseg), fun _ => hphys,
        fun _ seg hseg => (nomatch hfirst.symm.trans hseg)⟩
  | some seg =>
    rw [add_displacement]
    constructor
    · exact fun h => h.inside seg hfirst
    · intro h
      refine ⟨fun seg' hseg' => ?_, fun hnone => ?_, fun hsame seg' hseg' => ?_⟩
      · cases hfirst.symm.trans hseg'
        exact h
      · rw [firstSegment_eq_none_iff.mpr hnone] at hfirst
        cases hfirst
      · cases hfirst.symm.trans hseg'
        have hzero : seg.phys - seg.virt = 0 := by
          have h := h.symm.trans hsame
          calc seg.phys - seg.virt = seg.phys + (virt - seg.virt) - virt := by ring
            _ = 0 := by rw [h, sub_self]
        exact sub_eq_zero.mp hzero

/-- A segment that is found although another one contains the address comes behind it. -/
theorem foundSegment_of_first {segments : List Segment} {virt : BitVec 64} {seg : Segment}
    (h : firstSegment segments virt = some seg) (hend : seg.EndsBelowTop) :
    foundSegment segments virt = some seg := by
  rw [firstSegment, List.find?_eq_some_iff_append] at h
  obtain ⟨hseg, pre, post, hsplit, hpre⟩ := h
  rw [foundSegment, List.find?_eq_some_iff_append]
  refine ⟨decide_eq_true ⟨hend, of_decide_eq_true hseg⟩, pre, post, hsplit, ?_⟩
  intro other hother
  have hnot := hpre other hother
  simp only [Bool.not_eq_true', decide_eq_false_iff_not] at hnot ⊢
  exact fun hfound => hnot hfound.2

theorem foundSegment_of_none {segments : List Segment} {virt : BitVec 64}
    (h : firstSegment segments virt = none) : foundSegment segments virt = none := by
  rw [firstSegment_eq_none_iff] at h
  rw [foundSegment, List.find?_eq_none]
  intro seg hseg hfound
  exact h seg hseg (of_decide_eq_true hfound).2

/-- `to_phys` translates an address exactly if the first segment that contains it ends below
the top of the address space, or moves it as far as the one that is found in its place. -/
theorem toPhys_translates_iff (segments : List Segment) (virt : BitVec 64) :
    Translates segments virt (toPhys segments virt) ↔
      ∀ seg, firstSegment segments virt = some seg →
        seg.EndsBelowTop ∨ seg.phys - seg.virt = displacement (foundSegment segments virt) := by
  rw [translates_iff, toPhys_eq, add_right_inj]
  show displacement (foundSegment segments virt) = displacement (firstSegment segments virt) ↔ _
  cases hfirst : firstSegment segments virt with
  | none =>
    rw [foundSegment_of_none hfirst]
    exact iff_of_true rfl nofun
  | some seg =>
    constructor
    · intro h seg' hseg'
      cases hseg'
      exact .inr h.symm
    · intro h
      rcases h seg rfl with hend | hsame
      · rw [foundSegment_of_first hfirst hend]
      · exact hsame.symm

/-- A kernel in the last two gigabytes of the address space, loaded to the bottom of the
memory. -/
def kernelSegment : Segment where
  virt := 0xffffffff80000000
  phys := 0
  size := 0x80000000
  filesz := 0x1000
  offset := 0x1000
  r := true
  w := false
  x := true

/-- Its addresses are not translated. -/
theorem toPhys_kernel :
    toPhys [kernelSegment] 0xffffffff80001000 = 0xffffffff80001000 ∧
      ¬ Translates [kernelSegment] 0xffffffff80001000
        (toPhys [kernelSegment] 0xffffffff80001000) := by
  refine ⟨by decide, fun h => ?_⟩
  have hinside := h.inside kernelSegment (by decide)
  exact absurd hinside (by decide)

end Mwr.Elf
