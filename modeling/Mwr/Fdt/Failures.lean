import Mwr.Fdt.Reader

/-!
# What the reader throws

The reader throws reports, and what its source throws.  This holds for every
source, so that the lemmas `fails_*` bound the failures of the reader by those of
the source.

The first section is about the parts that have no bound in the embedding or one
that suffices.  The loop of `read_string` and the recursion of `traverse`, in the
second section, may use up theirs.
-/

namespace Mwr.Fdt

open Mwr.CodeLib
open Mwr.CodeLib.Bytes
open Mwr.CodeLib.Exec

variable {σ : Type} {host : Host} {src : Source σ} {P : Fault → Prop}

/-- Every failure of the source has the property `P`. -/
structure Source.Throws (P : Fault → Prop) (src : Source σ) : Prop where
  getc : Fails P src.getc
  seek : ∀ offset, Fails P (src.seek offset)

/-- A buffer in memory throws reports only. -/
theorem memSource_throws {buf : Bytes} (hreport : ∀ message, P (.report message)) :
    (memSource buf).Throws P where
  getc := by
    intro p e h
    cases hb : buf[p]? with
    | none =>
      simp only [memSource, StateT.run_bind, run_get_eq, ok_bind, hb] at h
      cases h
      exact hreport _
    | some b =>
      rw [getc_run hb] at h
      cases h
  seek := by
    intro offset p e h
    by_cases hlt : offset.toNat < buf.length
    · rw [seek_run hlt] at h
      cases h
    · simp only [memSource, StateT.run_bind, run_get_eq, ok_bind, Nat.not_lt.mp hlt] at h
      cases h
      exact hreport _

theorem fails_reportOn (hreport : ∀ message, P (.report message)) (cond : Prop) [Decidable cond]
    (message : String) : Fails P (reportOn cond message : Read σ Unit) :=
  fails_ite (fails_throw (hreport message)) (fails_pure _)

/-! ## Words and values -/

section Values

variable (hsrc : src.Throws P)
include hsrc

theorem fails_read : Fails P (read host src) := by
  unfold read
  refine hsrc.getc.bind fun _ => hsrc.getc.bind fun _ => hsrc.getc.bind fun _ =>
    hsrc.getc.bind fun _ => ?_
  cases host <;> exact fails_pure _

theorem fails_skip {fuel len : Nat} (hfuel : pad len < fuel) :
    Fails P (alignLoop (do let _ ← src.getc) fuel len) := by
  induction fuel generalizing len with
  | zero => omega
  | succ fuel ih =>
    unfold alignLoop
    split
    next => exact fails_pure _
    next hmod =>
      have hpad := pad_of_not_mod hmod
      exact (hsrc.getc.bind fun _ => fails_pure _).bind fun _ => ih (by omega)

theorem fails_readIntLoop (n : Nat) (data : List UInt32) :
    Fails P (readIntLoop host src n data) := by
  induction n generalizing data with
  | zero => exact fails_pure _
  | succ n ih => exact (fails_read hsrc).bind fun _ => ih _

theorem fails_readIntData (len : UInt32) : Fails P (readIntData host src len) :=
  fails_ite (fails_pure _) ((fails_readIntLoop hsrc _ _).bind fun _ => fails_pure _)

theorem fails_readStrLoop (curoff : UInt32) (n : Nat) (result : List Bytes) (s : Bytes) :
    Fails P (readStrLoop src curoff n result s) := by
  induction n generalizing result s with
  | zero => exact fails_pure _
  | succ n ih =>
    exact hsrc.getc.bind fun _ => fails_ite (ih _ _)
      (fails_ite (ih _ _) ((hsrc.seek _).bind fun _ => fails_pure _))

theorem fails_readStrData (len : UInt32) : Fails P (readStrData src len) := by
  refine (hsrc.seek _).bind fun _ => (hsrc.seek _).bind fun _ =>
    (fails_readStrLoop hsrc _ _ _ _).bind fun r => ?_
  match r with
  | none => exact fails_pure _
  | some _ =>
    exact fails_ite ((hsrc.seek _).bind fun _ => fails_pure _)
      ((fails_skip hsrc (pad_lt _)).bind fun _ => fails_pure _)

omit hsrc in
theorem fails_attempt {α : Type} {m : Read σ (Option α)} (make : α → FdtProp)
    {next : Read σ FdtProp} (hm : Fails P m) (hnext : Fails P next) :
    Fails P (attempt m make next) := by
  refine hm.bind fun r => ?_
  cases r with
  | none => exact hnext
  | some v => exact fails_pure _

theorem fails_readValue (hreport : ∀ message, P (.report message)) (name : Bytes)
    (len : UInt32) : Fails P (readValue host src name len) := by
  have hnumbers : Fails P (readIntData host src len) := fails_readIntData hsrc len
  have hstrings : Fails P (readStrData src len) := fails_readStrData hsrc len
  have hunknown := fails_attempt (.ofStrings name) hstrings
    (fails_attempt (.ofNumbers name) hnumbers
      (fails_throw (hreport s!"error reading property '{text name}'")))
  have hstrFirst := fails_ite (c := isStrProperty name)
    (fails_attempt (.ofStrings name) hstrings hunknown) hunknown
  exact fails_ite (fails_attempt (.ofNumbers name) hnumbers hstrFirst) hstrFirst

end Values

/-! ## Names and nodes -/

section Nodes

variable (hsrc : src.Throws P) (hreport : ∀ message, P (.report message)) (hfuel : P .fuel)
include hsrc hfuel

theorem fails_readStringLoop (fuel : Nat) (s : Bytes) : Fails P (readStringLoop src fuel s) := by
  induction fuel generalizing s with
  | zero => exact fails_throw hfuel
  | succ fuel ih => exact hsrc.getc.bind fun _ => fails_ite (fails_pure _) (ih _)

theorem fails_readString (fuel : Nat) (align : Bool) : Fails P (readString src fuel align) := by
  refine (fails_readStringLoop hsrc hfuel _ _).bind fun _ => ?_
  cases align with
  | false => exact fails_pure _
  | true => exact (fails_skip hsrc (pad_lt _)).bind fun _ => fails_pure _

theorem fails_readStrtab (fuel : Nat) (offset : UInt32) :
    Fails P (readStrtab host src fuel offset) :=
  (hsrc.seek _).bind fun _ => (fails_read hsrc).bind fun _ => (hsrc.seek _).bind fun _ =>
    (fails_readString hsrc hfuel _ _).bind fun _ => (hsrc.seek _).bind fun _ => fails_pure _

include hreport

theorem fails_readProp (fuel : Nat) : Fails P (readProp host src fuel) :=
  (fails_read hsrc).bind fun _ => (fails_read hsrc).bind fun _ =>
    (fails_readStrtab hsrc hfuel _ _).bind fun _ => fails_readValue hsrc hreport _ _

theorem fails_traverseLoop (fuel : Nat) {visit : FdtNode → Read σ FdtNode}
    (hvisit : ∀ parent, Fails P (visit parent)) (rounds : Nat) (parent : FdtNode) :
    Fails P (traverseLoop host src fuel visit rounds parent) := by
  induction rounds generalizing parent with
  | zero => exact fails_pure _
  | succ rounds ih =>
    exact (fails_read hsrc).bind fun _ =>
      fails_ite ((fails_readString hsrc hfuel _ _).bind fun _ => (hvisit _).bind fun _ => ih _)
        (fails_ite ((fails_readProp hsrc hreport hfuel _).bind fun _ => ih _)
          (fails_ite (ih _) (fails_ite (fails_pure _) (fails_throw (hreport _)))))

theorem fails_traverse (fuel depth : Nat) (parent : FdtNode) :
    Fails P (traverse host src fuel depth parent) := by
  induction depth generalizing parent with
  | zero => exact fails_throw hfuel
  | succ depth ih => exact fails_traverseLoop hsrc hreport hfuel fuel ih _ _

theorem fails_decompile (fuel : Nat) : Fails P (decompile host src fuel) :=
  (fails_read hsrc).bind fun _ => (fails_reportOn hreport _ _).bind fun _ =>
    (hsrc.seek _).bind fun _ => (fails_read hsrc).bind fun _ =>
    (fails_reportOn hreport _ _).bind fun _ =>
    (hsrc.seek _).bind fun _ => (fails_read hsrc).bind fun _ =>
    (hsrc.seek _).bind fun _ => (fails_read hsrc).bind fun _ =>
    (fails_reportOn hreport _ _).bind fun _ => (fails_readString hsrc hfuel _ _).bind fun _ =>
    (fails_traverse hsrc hreport hfuel _ _ _).bind fun _ =>
    (fails_read hsrc).bind fun _ => (fails_reportOn hreport _ _).bind fun _ => fails_pure _

end Nodes

end Mwr.Fdt
