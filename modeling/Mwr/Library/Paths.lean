import Mathlib.Data.List.TakeWhile
import Mwr.CodeLib.Digits
import Mwr.CodeLib.UniqueText
import Mwr.Library.Model

/-!
# The paths of libraries

The file names of paths, and the places that `copy_library` copies to.

* `slash_not_mem_filename` and `filename_filename` say what a file name is.
* A path for a copy is below `temp_dir()` (`isCopy_copyPath`), and it has the stem and the number
  that it is made of (`copyPath_inj`).
-/

namespace Mwr.Library

open Mwr.CodeLib
open Mwr.CodeLib.Bytes
open Mwr.CodeLib.Digits

variable {host : Host} {path path' : Bytes}

/-! ## File names -/

theorem slash_not_mem_filename (path : Bytes) : '/'.toUInt8 ∉ filename path := by
  intro hmem
  rw [filename, List.mem_reverse] at hmem
  have hne := List.mem_takeWhile_imp hmem
  simp at hne

theorem filename_of_notMem (h : '/'.toUInt8 ∉ path) : filename path = path := by
  have hall : ∀ ch ∈ path.reverse, decide (ch ≠ '/'.toUInt8) = true := by
    intro ch hch
    rw [decide_eq_true_iff]
    rintro rfl
    exact h (List.mem_reverse.1 hch)
  rw [filename, List.takeWhile_eq_self_iff.2 hall, List.reverse_reverse]

theorem filename_filename (path : Bytes) : filename (filename path) = filename path :=
  filename_of_notMem (slash_not_mem_filename path)

/-- The stem is that of the file name. -/
theorem filenameNoext_filename (path : Bytes) :
    filenameNoext (filename path) = filenameNoext path := by
  unfold filenameNoext
  rw [filename_filename]

theorem slash_not_mem_filenameNoext (path : Bytes) : '/'.toUInt8 ∉ filenameNoext path := by
  intro hmem
  unfold filenameNoext at hmem
  dsimp only at hmem
  split at hmem
  next =>
    rw [List.mem_reverse] at hmem
    have htail := List.mem_of_mem_drop hmem
    exact slash_not_mem_filename path (List.mem_reverse.1 (List.dropWhile_subset _ htail))
  next => exact slash_not_mem_filename path hmem

/-! ## Copies -/

theorem isAbsolutePath_copyPath (host : Host) (path : Bytes) (n : Nat) :
    isAbsolutePath (host.copyPath path n) = true := by
  have habsolute := host.tempDir_absolute
  rw [Host.copyPath]
  cases hdir : host.tempDir with
  | nil =>
    rw [hdir] at habsolute
    cases habsolute
  | cons ch rest =>
    rw [hdir] at habsolute
    exact habsolute

/-- A path for a copy: a file name with a number, below `temp_dir()`. -/
def Host.IsCopy (host : Host) (path : Bytes) : Prop :=
  ∃ (name : Bytes) (n : Nat), '/'.toUInt8 ∉ name ∧
    path = host.tempDir ++ str "/" ++ name ++ str "-" ++ str (toString n) ++ str ".so"

theorem isCopy_copyPath (host : Host) (path : Bytes) (n : Nat) :
    host.IsCopy (host.copyPath path n) :=
  ⟨filenameNoext path, n, slash_not_mem_filenameNoext path, rfl⟩

theorem str_toString (n : Nat) : str (toString n) = numeral 10 n := by
  show (String.ofList (Nat.toDigits 10 n)).toList.map _ = _
  rw [String.toList_ofList]
  rfl

theorem dash_not_mem_numeral (n : Nat) : ∀ ch ∈ (numeral 10 n).reverse, ¬ ch = '-'.toUInt8 := by
  rintro ch hch rfl
  have hdigit := isDigit_of_mem_numeral (by decide) (by decide) (List.mem_reverse.1 hch)
  revert hdigit
  decide

/-- Nothing but the stem and the number decides the place of a copy, and they can be read from
it. -/
theorem copyPath_inj {n n' : Nat} (h : host.copyPath path n = host.copyPath path' n') :
    filenameNoext path = filenameNoext path' ∧ n = n' := by
  rw [Host.copyPath, Host.copyPath, str_toString, str_toString] at h
  have hfront := List.append_cancel_right h
  simp only [List.append_assoc] at hfront
  have hname := congrArg List.reverse (List.append_cancel_left (List.append_cancel_left hfront))
  simp only [List.reverse_append, List.append_assoc] at hname
  obtain ⟨hnumber, hstem⟩ := UniqueText.until_inj (p := fun ch => ch = '-'.toUInt8)
    (dash_not_mem_numeral n) (dash_not_mem_numeral n') rfl rfl hname
  constructor
  · exact List.reverse_injective (List.cons.inj hstem).2
  · have hvalue := congrArg (value 10) (List.reverse_injective hnumber)
    rwa [value_numeral (by decide) (by decide), value_numeral (by decide) (by decide)] at hvalue

end Mwr.Library
