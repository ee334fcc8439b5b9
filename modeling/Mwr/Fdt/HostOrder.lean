import Mwr.Fdt.Output
import Mwr.Fdt.Reader

/-!
# The byte order of the host

The two configurations of the source put the bytes of a word in opposite orders.  The
magic number is the first word of every blob and no palindrome, so that

* no tree is written to the same bytes by both (`blob_ne`), and
* a blob that one of them reads is refused by the other (`fdtdecompile_of_magic`).
-/

namespace Mwr.Fdt

open Mwr.CodeLib
open Mwr.CodeLib.Bytes
open Mwr.CodeLib.Exec

variable {host host' : Host} {buf : Bytes}

/-- The magic number as the other configuration reads it. -/
def FDT_MAGIC_SWAPPED : UInt32 := 0xedfe0dd0

theorem word_magic_of_ne (h : host' ≠ host) :
    word host FDT_MAGIC = word host' FDT_MAGIC_SWAPPED := by
  cases host <;> cases host' <;> first | exact absurd rfl h | decide

theorem word_magic_ne (h : host' ≠ host) : word host' FDT_MAGIC ≠ word host FDT_MAGIC := by
  cases host <;> cases host' <;> first | exact absurd rfl h | decide

/-! ## Writing -/

theorem blob_magic (host : Host) (t : FdtNode) : At (blob host t) 0 (word host FDT_MAGIC) := by
  have h := (blobAt host t []).magic
  rwa [List.append_nil] at h

/-- Two words at one place are one word. -/
theorem eq_of_at_word {p : Nat} {x y : UInt32} (hx : At buf p (word host x))
    (hy : At buf p (word host' y)) : word host x = word host' y :=
  (List.prefix_of_prefix_length_le hx hy (by rw [length_word, length_word])).eq_of_length
    (by rw [length_word, length_word])

theorem blob_ne (h : host' ≠ host) (t : FdtNode) (rest rest' : Bytes) :
    blob host' t ++ rest' ≠ blob host t ++ rest := by
  intro heq
  have hmagic := (blobAt host t rest).magic
  rw [← heq] at hmagic
  exact word_magic_ne h (eq_of_at_word (blobAt host' t rest').magic hmagic)

/-! ## Reading -/

theorem fdtdecompile_magic {t : FdtNode} (h : fdtdecompile host buf = .ok t) :
    At buf 0 (word host FDT_MAGIC) := by
  obtain ⟨q, hrun⟩ := fst_eq_ok h
  obtain ⟨magic, p, hread, hrest⟩ := run_bind_eq_ok.mp hrun
  obtain ⟨_, _, hreport, _⟩ := run_bind_eq_ok.mp hrest
  by_cases hmagic : magic = FDT_MAGIC
  · rw [← hmagic]
    exact (read_inv hread).1
  · rw [reportOn, if_pos hmagic] at hreport
    cases hreport

/-- The other configuration stops at the magic number. -/
theorem fdtdecompile_of_magic (h : host' ≠ host) (hmagic : At buf 0 (word host FDT_MAGIC)) :
    fdtdecompile host' buf =
      .error (.report s!"invalid fdt header: {hex8 FDT_MAGIC_SWAPPED}") := by
  rw [word_magic_of_ne h] at hmagic
  have hrun : (decompile host' (memSource buf) (buf.length + 1)).run 0 =
      .error (.report s!"invalid fdt header: {hex8 FDT_MAGIC_SWAPPED}") := by
    rw [decompile, run_bind_of_ok (read_run hmagic)]
    exact run_bind_of_error rfl
  rw [fdtdecompile, hrun]
  rfl

/-! ## The two configurations -/

/-- The tree goes to the same bytes in both configurations, in a file and in any buffer
that is long enough, with the magic number most significant byte first, and what one of
them decodes to this tree the other one decodes to it as well. -/
structure HostIndependent (t : FdtNode) : Prop where
  file : ∀ filename, fdtcompileFile .bigEndian t filename true =
    fdtcompileFile .littleEndian t filename true
  memory : ∀ buffer, fdtcompile .bigEndian t buffer = fdtcompile .littleEndian t buffer
  magic : ∀ host filename bytes, fdtcompileFile host t filename true = .ok bytes →
    At bytes 0 (bigEndian FDT_MAGIC)
  blob : ∀ host host' buf, fdtdecompile host buf = .ok t → fdtdecompile host' buf = .ok t

theorem bigEndian_ne : Host.bigEndian ≠ .littleEndian := nofun

theorem fdtcompileFile_ne (t : FdtNode) (filename : Bytes) :
    fdtcompileFile .bigEndian t filename true ≠ fdtcompileFile .littleEndian t filename true := by
  intro h
  rw [fdtcompileFile_eq, fdtcompileFile_eq] at h
  have hne := blob_ne bigEndian_ne t [] []
  rw [List.append_nil, List.append_nil] at hne
  exact hne (Except.ok.inj h)

theorem fdtcompile_ne {t : FdtNode} {buffer bytes : Bytes}
    (h : fdtcompile .littleEndian t buffer = .ok bytes) :
    fdtcompile .bigEndian t buffer ≠ .ok bytes := by
  intro hbig
  rw [fdtcompile_eq] at h hbig
  split at h
  · split at hbig
    · rw [← h] at hbig
      exact blob_ne bigEndian_ne t _ _ (Except.ok.inj hbig)
    · cases hbig
  · cases h

/-- No tree is the same for both configurations, and none of the four fields holds for it
where there is anything to compare. -/
theorem host_dependent (t : FdtNode) :
    ¬ HostIndependent t ∧
    (∀ filename, fdtcompileFile .bigEndian t filename true ≠
      fdtcompileFile .littleEndian t filename true) ∧
    (∀ buffer bytes, fdtcompile .littleEndian t buffer = .ok bytes →
      fdtcompile .bigEndian t buffer ≠ .ok bytes) ∧
    (∀ filename bytes, fdtcompileFile .bigEndian t filename true = .ok bytes →
      ¬ At bytes 0 (bigEndian FDT_MAGIC)) ∧
    ∀ host host' buf, host' ≠ host → fdtdecompile host buf = .ok t →
      fdtdecompile host' buf =
        .error (.report s!"invalid fdt header: {hex8 FDT_MAGIC_SWAPPED}") := by
  refine ⟨fun h => fdtcompileFile_ne t [] (h.file []), fdtcompileFile_ne t,
    fun _ _ => fdtcompile_ne, ?_, ?_⟩
  · intro filename bytes h hmagic
    rw [fdtcompileFile_eq] at h
    cases h
    have hword : word .bigEndian FDT_MAGIC = word .littleEndian FDT_MAGIC :=
      eq_of_at_word (blob_magic .bigEndian t) hmagic
    exact word_magic_ne bigEndian_ne hword
  · intro host host' buf hne h
    exact fdtdecompile_of_magic hne (fdtdecompile_magic h)

/-- The tree that is only a root. -/
theorem host_dependent_root : ¬ ∀ t, HostIndependent t := by
  intro h
  have hfile := (h (.new (str "/"))).file (str "a.dtb")
  rw [fdtcompileFile_eq, fdtcompileFile_eq] at hfile
  have hne : blob .bigEndian (.new (str "/")) ≠ blob .littleEndian (.new (str "/")) := by
    decide +kernel
  exact hne (Except.ok.inj hfile)

end Mwr.Fdt
