import Mwr.HexFile.IhexAccept
import Mwr.HexFile.SrecAccept

/-!
# The loaders stay inside of their lines

`ihex_byte`, `srec_byte` and `vec_to` abort the process when they are asked for
something that is not there.  No line makes the loaders ask for it: every line is
read (`processLine_total`, `srecLine_total`), and a record has the data that its
type is going to look for.
-/

namespace Mwr.HexFile

open Mwr.CodeLib (Bytes)
open Mwr.CodeLib.Exec
open Mwr.Strings

/-- The number of bytes that the loop takes out of a record of the type. -/
def IhexType.needs : IhexType → Nat
  | exSeg | exLinAddr => 2
  | startSeg | startLinAddr => 4
  | _ => 0

theorem processLine_total (line : Bytes) :
    ∃ r, processLine line = .ok r ∧ r.type.needs ≤ r.data.length := by
  rcases processLine_cases line with ⟨chars, r, hlegal, hlen, hchars, rest, rfl⟩ | ⟨r, hr, htype⟩
  · refine ⟨_, processLine_taken hlegal rest hlen hchars, ?_⟩
    rw [Rec.Legal] at hlegal
    cases htype : r.type <;> rw [htype] at hlegal
    case data => exact Nat.zero_le _
    all_goals exact Nat.le_of_eq hlegal.1.symm
  · refine ⟨r, hr, ?_⟩
    cases h : r.type <;> rw [h] at htype
    all_goals first
      | exact Nat.zero_le _
      | exact absurd (by decide) htype

theorem vecTo_total {n : Nat} {vec : Bytes} (h : n ≤ vec.length) :
    ∃ value, vecTo n vec = .ok value := by
  rw [vecTo, if_neg (Nat.not_lt.mpr h)]
  exact ⟨_, rfl⟩

/-- The loop of `ihex` ends with the object, or with the report at its end. -/
theorem ihexLoop_total (filename : Bytes) (self : Ihex) (lines : List Bytes) :
    (∃ self', ihexLoop filename self lines = .ok self') ∨
      ∃ message, ihexLoop filename self lines = .error (.report message) := by
  induction lines generalizing self with
  | nil =>
    rw [ihexLoop]
    split
    · exact .inr ⟨_, rfl⟩
    · exact .inl ⟨self, rfl⟩
  | cons line lines ih =>
    obtain ⟨r, hr, hneeds⟩ := processLine_total (trim line)
    rw [ihexLoop, hr, ok_bind]
    cases htype : r.type <;> rw [htype] at hneeds
    case eof => exact .inl ⟨self, rfl⟩
    case exSeg | startSeg | exLinAddr | startLinAddr =>
      simp only [IhexType.needs] at hneeds
      obtain ⟨value, hvalue⟩ := vecTo_total hneeds
      simp only [hvalue, ok_bind]
      exact ih _
    all_goals exact ih _

theorem srecLoop_total (self : Srec) (lines : List Bytes) :
    ∃ self', srecLoop self lines = .ok self' := by
  induction lines generalizing self with
  | nil => exact ⟨self, rfl⟩
  | cons line lines ih =>
    obtain ⟨self', hline⟩ := SrecLoad.srecLine_total self (trim line)
    rw [srecLoop, hline, ok_bind]
    exact ih self'

/-- No content of a file aborts the process: `ihex` returns or throws its report, and `srec`
returns. -/
theorem loaders_never_abort (filename content : Bytes) :
    (∀ lines self, (∃ self', ihexLoop filename self lines = .ok self') ∨
      ∃ message, ihexLoop filename self lines = .error (.report message)) ∧
    (∀ lines self, ∃ self', srecLoop self lines = .ok self') ∧
    (∀ message, ihex filename (some content) ≠ .error (.error message)) ∧
    ∀ message, srec filename (some content) ≠ .error (.error message) := by
  refine ⟨fun lines self => ihexLoop_total filename self lines,
    fun lines self => srecLoop_total self lines, ?_, ?_⟩
  · intro message h
    rcases ihexLoop_total filename
      { segOffset := 0, linearOffset := 0, startAddr := 0, records := [] }
      (getlines content) with ⟨self, hself⟩ | ⟨report, hreport⟩
    · rw [ihex, hself] at h
      cases h
    · rw [ihex, hreport] at h
      cases h
  · intro message h
    obtain ⟨self, hself⟩ := srecLoop_total { entry := 0, header := [], records := [] }
      (getlines content)
    rw [srec, hself] at h
    cases h

end Mwr.HexFile
