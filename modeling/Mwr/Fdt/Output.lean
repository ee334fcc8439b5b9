import Mwr.CodeLib.Memory
import Mwr.Fdt.Writer

/-!
# Writing to memory and to a file

The two overloads of `fdtcompile`, with the memory of the process and the content of the
file spelled out.

* `rawSink` stores a byte at an address, behind the check of the source.
  `mirrors_rawSink` says that it does to the buffer what `memSink` does, and that
  the check suffices.
* `fileSink` writes to a file, which grows at its end (`putAll_file`) and is patched
  in its middle (`medium_file`).
* `fdtcompile_exact` puts the two side by side.
-/

namespace Mwr.Fdt

open Mwr.CodeLib
open Mwr.CodeLib.Bytes
open Mwr.CodeLib.Exec
open Mwr.CodeLib.Memory

variable {δ δ' : Type} {host : Host}

/-! ## A device that mirrors another one -/

/-- The device `sink'` does what `sink` does, on the states that `f` makes of those of
`sink`. -/
structure Mirrors (sink : Sink δ) (sink' : Sink δ') (f : δ → δ') : Prop where
  seek : ∀ off d, sink'.seek off (f d) = (sink.seek off d).map f
  putc : ∀ b d, sink'.putc b (f d) = (sink.putc b d).map f

namespace Mirrors

variable {sink : Sink δ} {sink' : Sink δ'} {f : δ → δ'} (h : Mirrors sink sink' f)
include h

theorem putAll_eq (bs : Bytes) (d : δ) : putAll sink' bs (f d) = (putAll sink bs d).map f := by
  induction bs generalizing d with
  | nil => rfl
  | cons b bs ih => exact bind_eq_map (h.putc b d) ih

theorem putWordAt_eq (off x : UInt32) (d : δ) :
    putWordAt host sink' off x (f d) = (putWordAt host sink off x d).map f :=
  bind_eq_map (h.seek off d) (h.putAll_eq _)

theorem patchHeader_eq (total struct strings stringOff : UInt32) (d : δ) :
    patchHeader host sink' total struct strings stringOff (f d) =
      (patchHeader host sink total struct strings stringOff d).map f :=
  bind_eq_map (h.putWordAt_eq _ _ d) fun _ => bind_eq_map (h.putWordAt_eq _ _ _) fun _ =>
    bind_eq_map (h.putWordAt_eq _ _ _) (h.putWordAt_eq _ _)

/-- The writer leaves the state that mirrors the one it leaves on the other device. -/
theorem compile_eq (t : FdtNode) (d : δ) :
    (compile host sink' t).run ⟨[], f d⟩ =
      ((compile host sink t).run ⟨[], d⟩).map fun r => (r.1, ⟨r.2.strings, f r.2.dev⟩) := by
  rw [acts_compile t (f d), acts_compile t d]
  exact bind_eq_map (bind_eq_map (h.putAll_eq _ d) (h.patchHeader_eq _ _ _ _)) fun _ => rfl

end Mirrors

/-! ## Memory -/

/-- The fields of `fdtwriter_mem`, and the memory of the process. -/
structure RawWriter where
  mem : Memory
  buf : Nat
  ptr : Nat
  /-- `m_end` -/
  stop : Nat

/-- `*m_ptr = byte`, which is a fault outside of the buffer. -/
def RawWriter.store (dev : RawWriter) (byte : UInt8) : Except Fault RawWriter :=
  if dev.buf ≤ dev.ptr ∧ dev.ptr < dev.stop then
    return { dev with mem := Function.update dev.mem dev.ptr byte }
  else
    throw .segfault

/-- `class fdtwriter_mem` with the access to memory spelled out. -/
def rawSink : Sink RawWriter where
  seek := fun offset dev =>
    if dev.buf + offset.toNat ≥ dev.stop then
      throw (.report "writing beyond end of buffer")
    else
      return { dev with ptr := dev.buf + offset.toNat }
  putc := fun byte dev => do
    if dev.ptr ≥ dev.stop then
      throw (.report "writing beyond end of buffer")
    let dev ← dev.store byte
    return { dev with ptr := dev.ptr + 1 }

/-- `fdtcompile(root, buffer, buflen)`: the memory of the process afterwards. -/
def fdtcompileRaw (host : Host) (root : FdtNode) (buffer buflen : Nat) (mem : Memory) :
    Except Fault Memory := do
  let (_, w) ← (compile host rawSink root).run ⟨[], ⟨mem, buffer, buffer, buffer + buflen⟩⟩
  return w.dev.mem

/-- The writer whose buffer stands at an address of the memory. -/
def place (mem : Memory) (buffer : Nat) (dev : MemWriter) : RawWriter where
  mem := overlay mem buffer dev.buf
  buf := buffer
  ptr := buffer + dev.ptr
  stop := buffer + dev.buf.length

/-- The check in front of a store never lets one outside of the buffer pass. -/
theorem mirrors_rawSink (mem : Memory) (buffer : Nat) :
    Mirrors memSink rawSink (place mem buffer) where
  seek := by
    intro off dev
    by_cases h : off.toNat < dev.buf.length
    · simp [rawSink, memSink, place, Nat.not_le.mpr h, Except.map]
    · simp [rawSink, memSink, place, Nat.not_lt.mp h, Except.map]
  putc := by
    intro b dev
    by_cases h : dev.ptr < dev.buf.length
    · have hstore : (place mem buffer dev).store b =
          .ok { place mem buffer dev with
            mem := Function.update (overlay mem buffer dev.buf) (buffer + dev.ptr) b } :=
        if_pos ⟨Nat.le_add_right _ _, Nat.add_lt_add_left h buffer⟩
      have hnot : ¬ (place mem buffer dev).ptr ≥ (place mem buffer dev).stop :=
        Nat.not_le.mpr (Nat.add_lt_add_left h buffer)
      rw [← overlay_set mem h] at hstore
      simp only [rawSink, if_neg hnot, hstore, memSink, ge_iff_le, if_neg (Nat.not_le.mpr h)]
      simp [Except.map, place, Nat.add_assoc]
    · simp [rawSink, memSink, place, Nat.not_lt.mp h, Except.map]

/-- A call does to the bytes at the address of the buffer what it does to a buffer. -/
theorem fdtcompileRaw_eq (t : FdtNode) (buffer buflen : Nat) (mem : Memory) :
    fdtcompileRaw host t buffer buflen mem =
      (fdtcompile host t (window mem buffer buflen)).map (overlay mem buffer) := by
  have hplace : place mem buffer ⟨window mem buffer buflen, 0⟩ =
      ⟨mem, buffer, buffer, buffer + buflen⟩ := by
    rw [place, overlay_window, length_window, Nat.add_zero]
  have hcompile : (compile host rawSink t).run ⟨[], place mem buffer _⟩ = _ :=
    (mirrors_rawSink mem buffer).compile_eq t ⟨window mem buffer buflen, 0⟩
  rw [fdtcompileRaw, fdtcompile, ← hplace, hcompile]
  cases (compile host memSink t).run ⟨[], ⟨window mem buffer buflen, 0⟩⟩ <;> rfl

/-! ## Files -/

/-- The content of a file that is open, and the position in it. -/
structure FileWriter where
  content : Bytes
  pos : Nat

/-- `m_file.write(&byte, 1)`.  A gap between the end of the file and the position is filled
with zeros. -/
def FileWriter.write (dev : FileWriter) (byte : UInt8) : FileWriter where
  content := (dev.content ++ zeros (dev.pos + 1 - dev.content.length)).set dev.pos byte
  pos := dev.pos + 1

/-- `class fdtwriter_file` on a file whose writes succeed. -/
def fileSink : Sink FileWriter where
  seek := fun offset dev => return { dev with pos := offset.toNat }
  putc := fun byte dev => return dev.write byte

/-- `fdtcompile(root, filename)`: the content of the file afterwards, if it can be opened. -/
def fdtcompileFile (host : Host) (root : FdtNode) (filename : Bytes) (opened : Bool) :
    Except Fault Bytes := do
  if !opened then
    throw (.report s!"cannot open {text filename}")
  let (_, w) ← (compile host fileSink root).run ⟨[], ⟨[], 0⟩⟩
  return w.dev.content

/-- What is written at the end makes the file longer. -/
theorem putAll_file (bs content : Bytes) :
    putAll fileSink bs ⟨content, content.length⟩ =
      .ok ⟨content ++ bs, (content ++ bs).length⟩ := by
  induction bs generalizing content with
  | nil => rw [List.append_nil, putAll]
  | cons b bs ih =>
    have hwrite : fileSink.putc b ⟨content, content.length⟩ =
        .ok ⟨content ++ [b], (content ++ [b]).length⟩ := by
      have hset : (content ++ zeros 1).set content.length b = content ++ [b] := by
        rw [List.set_append_right _ _ (Nat.le_refl _), Nat.sub_self]
        rfl
      have hgap : content.length + 1 - content.length = 1 := Nat.add_sub_cancel_left _ 1
      rw [List.length_append, List.length_singleton, ← hset]
      show Except.ok (FileWriter.write _ b) = _
      rw [FileWriter.write, hgap]
    rw [putAll, hwrite, ok_bind, ih, List.append_assoc, List.singleton_append]

/-- What is written before the end leaves the length of the file alone. -/
theorem medium_file (n : Nat) : Medium fileSink n FileWriter.mk where
  seek := fun _ _ => rfl
  putc := by
    intro content p b hlen hlt
    have hgap : p + 1 - content.length = 0 := by omega
    show Except.ok (FileWriter.write _ b) = _
    rw [FileWriter.write, hgap, zeros, List.replicate_zero, List.append_nil]

theorem fdtcompileFile_eq (t : FdtNode) (filename : Bytes) :
    fdtcompileFile host t filename true = .ok (blob host t) := by
  have hcompile : Acts (compile host fileSink t) [] _ _ _ := acts_compile t
  have hrun := hcompile ⟨[], 0⟩
  have hput : putAll fileSink (draft host t) ⟨[], 0⟩ = _ := putAll_file (draft host t) []
  beta_reduce at hrun
  rw [hput, ok_bind, List.nil_append, draft, (medium_file _).patchHeader_eq rfl] at hrun
  rw [fdtcompileFile, hrun]
  rfl

/-! ## The two overloads -/

/-- The bytes have been stored at an address, and nothing else has changed. -/
structure Stored (mem mem' : Memory) (a : Nat) (bytes : Bytes) : Prop where
  inside : window mem' a bytes.length = bytes
  outside : ∀ x, x < a ∨ a + bytes.length ≤ x → mem' x = mem x

theorem stored_overlay (mem : Memory) (a : Nat) (bytes : Bytes) :
    Stored mem (overlay mem a bytes) a bytes :=
  ⟨window_overlay mem a bytes, fun _ h => overlay_of_outside mem h⟩

/-- A call writes the bytes of the file to the buffer and leaves the rest of it alone, or it
reports that the buffer is too short for them; no store misses the buffer. -/
theorem fdtcompile_exact (host : Host) (t : FdtNode) (filename : Bytes) :
    ∃ bytes, fdtcompileFile host t filename true = .ok bytes ∧
      At bytes 4 (word host (UInt32.ofNat bytes.length)) ∧
      ∀ buffer buflen mem,
        (bytes.length ≤ buflen → ∃ mem',
          fdtcompileRaw host t buffer buflen mem = .ok mem' ∧ Stored mem mem' buffer bytes) ∧
        (buflen < bytes.length →
          fdtcompileRaw host t buffer buflen mem =
            .error (.report "writing beyond end of buffer")) := by
  have htotal := (blobAt host t []).totalSize
  rw [List.append_nil] at htotal
  refine ⟨blob host t, fdtcompileFile_eq t filename, htotal, fun buffer buflen mem => ?_⟩
  rw [fdtcompileRaw_eq, fdtcompile_eq, length_window]
  constructor
  · intro hle
    refine ⟨overlay mem buffer (blob host t), ?_, stored_overlay mem buffer _⟩
    -- the bytes of the buffer behind the blob are put back where they were
    rw [if_pos hle, Except.map, overlay_append, drop_window, overlay_window]
  · intro hlt
    rw [if_neg (Nat.not_le.mpr hlt)]
    rfl

end Mwr.Fdt
