import Mwr.Fdt.Progress

/-!
# Blobs from elsewhere

What `fdtdecompile` does with any buffer, whoever has written it.

* `rawSource` reads bytes without looking whether they are there, behind the
  check of the source.  `rawSource_eq` says that the check suffices.
* `traverse_entries` counts nodes and properties against the bytes that they take.
-/

namespace Mwr.Fdt

open Mwr.CodeLib
open Mwr.CodeLib.Bytes
open Mwr.CodeLib.Exec

/-! ## Reading from memory -/

/-- `*ptr` in a buffer. -/
def deref (buffer : Bytes) (ptr : Nat) : Read Nat UInt8 :=
  match buffer[ptr]? with
  | none => throw .segfault
  | some byte => return byte

/-- `class fdtreader_mem` with the access to memory spelled out. -/
def rawSource (buffer : Bytes) : Source Nat where
  getc := do
    let ptr ← get
    reportOn (ptr ≥ buffer.length) "reading beyond end of buffer"
    let byte ← deref buffer ptr
    set (ptr + 1)
    return byte
  seek := fun offset => do
    let curoff ← get
    set offset.toNat
    reportOn (offset.toNat ≥ buffer.length) "seeking beyond end of buffer"
    return UInt32.ofNat curoff

/-- `fdtdecompile(buffer, buflen)` with the access to memory spelled out. -/
def fdtdecompileRaw (host : Host) (buffer : Bytes) : Except Fault FdtNode := do
  let (root, _) ← (decompile host (rawSource buffer) (buffer.length + 1)).run 0
  return root

theorem rawSource_getc (buffer : Bytes) : (rawSource buffer).getc = (memSource buffer).getc := by
  funext ptr
  show (rawSource buffer).getc.run ptr = (memSource buffer).getc.run ptr
  by_cases h : ptr < buffer.length
  · have hbyte : buffer[ptr]? = some buffer[ptr] := List.getElem?_eq_getElem h
    rw [getc_run hbyte]
    simp [rawSource, reportOn, deref, hbyte, Nat.not_le.mpr h]
  · have hle : buffer.length ≤ ptr := Nat.not_lt.mp h
    simp [rawSource, memSource, reportOn, hle]

theorem rawSource_seek (buffer : Bytes) : (rawSource buffer).seek = (memSource buffer).seek := by
  funext offset ptr
  show ((rawSource buffer).seek offset).run ptr = ((memSource buffer).seek offset).run ptr
  by_cases h : offset.toNat < buffer.length
  · rw [seek_run h]
    simp [rawSource, reportOn, Nat.not_le.mpr h]
  · have hle : buffer.length ≤ offset.toNat := Nat.not_lt.mp h
    simp [rawSource, memSource, reportOn, hle]

/-- The check in front of the access never lets one outside of the buffer pass. -/
theorem rawSource_eq (buffer : Bytes) : rawSource buffer = memSource buffer := by
  have hgetc := rawSource_getc buffer
  have hseek := rawSource_seek buffer
  cases h : rawSource buffer with
  | mk getc seek =>
    rw [h] at hgetc hseek
    dsimp only at hgetc hseek
    rw [hgetc, hseek]

theorem fdtdecompileRaw_eq (host : Host) (buffer : Bytes) :
    fdtdecompileRaw host buffer = fdtdecompile host buffer := by
  rw [fdtdecompileRaw, rawSource_eq, fdtdecompile]

/-! ## The size of the tree -/

section Entries

/-- The nodes and the properties of a tree. -/
def FdtNode.entries (t : FdtNode) : Nat :=
  t.nodes.length + t.allProps.length

theorem entries_new (name : Bytes) : (FdtNode.new name).entries = 1 := rfl

theorem entries_addProperty (t : FdtNode) (prop : FdtProp) :
    (t.addProperty prop).entries = t.entries + 1 := by
  cases t with
  | mk name props children =>
    simp only [FdtNode.addProperty, FdtNode.entries, FdtNode.nodes_mk, FdtNode.allProps_mk,
      List.length_append, List.length_cons, List.length_nil]
    omega

theorem entries_addChild (t child : FdtNode) :
    (t.addChild child).entries = t.entries + child.entries := by
  cases t with
  | mk name props children =>
    simp only [FdtNode.addChild, FdtNode.entries, FdtNode.nodes_mk, FdtNode.allProps_mk,
      List.flatMap_append, List.flatMap_singleton, List.length_append, List.length_cons]
    omega

variable {host : Host} {buf : Bytes} {p q : Nat}

/-- Every node and every property that the loop adds takes eight bytes at least. -/
theorem traverseLoop_entries {fuel : Nat} {visit : FdtNode → Read Nat FdtNode}
    (hbuf : buf.length < 2 ^ 32)
    (hvisit : ∀ parent p t q, (visit parent).run p = .ok (t, q) →
      8 * t.entries + p ≤ 8 * parent.entries + q) {rounds : Nat} {parent t : FdtNode}
    (h : (traverseLoop host (memSource buf) fuel visit rounds parent).run p = .ok (t, q)) :
    8 * t.entries + p ≤ 8 * parent.entries + q := by
  induction rounds generalizing p parent with
  | zero =>
    cases h
    exact Nat.le_refl _
  | succ rounds ih =>
    obtain ⟨token, p₁, htoken, h⟩ := run_bind_eq_ok.1 h
    obtain ⟨-, rfl⟩ := read_inv htoken
    split at h
    next =>
      obtain ⟨name, p₂, hname, h⟩ := run_bind_eq_ok.1 h
      obtain ⟨child, p₃, hchild, h⟩ := run_bind_eq_ok.1 h
      have hstart := readString_size hname
      have hbelow := hvisit _ _ _ _ hchild
      have hrest := ih h
      rw [entries_new] at hbelow
      rw [entries_addChild] at hrest
      omega
    next =>
      split at h
      next =>
        obtain ⟨prop, p₂, hprop, h⟩ := run_bind_eq_ok.1 h
        have hstart := (readProp_inv hbuf hprop).2.2
        have hrest := ih h
        rw [entries_addProperty] at hrest
        omega
      next =>
        split at h
        next =>
          have hrest := ih h
          omega
        next =>
          split at h
          next =>
            cases h
            omega
          next => cases h

theorem traverse_entries {fuel depth : Nat} (hbuf : buf.length < 2 ^ 32) {parent t : FdtNode}
    (h : (traverse host (memSource buf) fuel depth parent).run p = .ok (t, q)) :
    8 * t.entries + p ≤ 8 * parent.entries + q := by
  induction depth generalizing p parent t q with
  | zero => cases h
  | succ depth ih => exact traverseLoop_entries hbuf (fun _ _ _ _ h => ih h) h

theorem decompile_entries {fuel : Nat} (hbuf : buf.length < 2 ^ 32) {t : FdtNode}
    (h : (decompile host (memSource buf) fuel).run p = .ok (t, q)) :
    t.entries ≤ buf.length / 8 := by
  obtain ⟨name, p₀, p₁, p₂, hp₀, hname, hroot, hend⟩ := decompile_inv h
  -- the root has a token and a name in front of what `traverse` reads, too
  have hstart := readString_size hname
  have hbelow := traverse_entries hbuf hroot
  rw [entries_new] at hbelow
  omega

end Entries

/-! ## Any buffer -/

/-- A report, or the bound of the embedding. -/
def ReportOrFuel (e : Fault) : Prop :=
  (∃ message, e = .report message) ∨ e = .fuel

/-- The reader fails in no other way than with a report. -/
theorem decompile_error {host : Host} {buf : Bytes} (hbuf : buf.length < 2 ^ 32) {e : Fault}
    (h : (decompile host (memSource buf) (buf.length + 1)).run 0 = .error e) :
    ∃ message, e = .report message := by
  have hreport : ∀ message, ReportOrFuel (.report message) := fun message => .inl ⟨message, rfl⟩
  have hends : fdtdecompile host buf ≠ .error .fuel := fdtdecompile_ne_fuel hbuf
  have hfails : Fails ReportOrFuel (decompile host (memSource buf) (buf.length + 1)) :=
    fails_decompile (memSource_throws hreport) hreport (.inr rfl) _
  unfold fdtdecompile at hends
  rw [h] at hends
  obtain hmessage | rfl := hfails 0 e h
  · exact hmessage
  · exact absurd rfl hends

/-- For any buffer the reader ends, with a report or with a tree that is no larger
than the buffer allows, and every byte that it reads is in the buffer. -/
theorem fdtdecompile_untrusted (host : Host) (buf : Bytes) (hbuf : buf.length < 2 ^ 32) :
    (∃ t, fdtdecompileRaw host buf = .ok t ∧
      t.nodes.length + t.allProps.length ≤ buf.length / 8) ∨
    ∃ message, fdtdecompileRaw host buf = .error (.report message) := by
  rw [fdtdecompileRaw_eq]
  unfold fdtdecompile
  cases hrun : (decompile host (memSource buf) (buf.length + 1)).run 0 with
  | error e =>
    obtain ⟨message, rfl⟩ := decompile_error hbuf hrun
    exact .inr ⟨message, rfl⟩
  | ok r =>
    obtain ⟨t, q⟩ := r
    exact .inl ⟨t, rfl, decompile_entries hbuf hrun⟩

/-- A blob that ends behind its magic number. -/
theorem fdtdecompile_untrusted_truncated :
    (∃ t, fdtdecompileRaw .littleEndian [0xd0, 0x0d, 0xfe, 0xed] = .ok t ∧
      t.nodes.length + t.allProps.length ≤ ([0xd0, 0x0d, 0xfe, 0xed] : Bytes).length / 8) ∨
    ∃ message, fdtdecompileRaw .littleEndian [0xd0, 0x0d, 0xfe, 0xed] =
      .error (.report message) :=
  fdtdecompile_untrusted .littleEndian [0xd0, 0x0d, 0xfe, 0xed] (by decide)

end Mwr.Fdt
