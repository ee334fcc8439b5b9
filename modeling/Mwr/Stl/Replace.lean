import Mwr.CodeLib.Loop
import Mwr.CodeLib.Substring
import Mwr.Stl.Strings

/-!
# Replacing in place

A translation of `replace` of `src/mwr/stl/strings.cpp`.  A string has no maximal
size here.

* `find_eq_some` and `find_eq_none` say where the next occurrence is found in a
  string of which a part is already done.
* `replace_returns` follows the loop along the cut of the string at the
  occurrences of the search string.
* `replace_terminates_iff` is about the empty search string, which is found
  everywhere.
-/

namespace Mwr.Strings

open Mwr.CodeLib (Bytes)
open Mwr.CodeLib.Loop Mwr.CodeLib.Substring

/-! ## The code -/

/-- `str.find(search, index)`: the first position from `index` on at which
`search` is found, also when it is empty. -/
def find (str search : Bytes) (index : Nat) : Option Nat :=
  (List.range' index (str.length + 1 - index)).find? fun i => search.isPrefixOf (str.drop i)

/-- The variables of the loop of `replace`. -/
structure ReplaceState where
  str : Bytes
  index : Nat
  count : Nat

/-- A round of the loop of `replace`.  The result is the string and the count. -/
def replaceRound (search repl : Bytes) (s : ReplaceState) :
    Round ReplaceState (Bytes × Nat) :=
  match find s.str search s.index with
  | none => .done (s.str, s.count)
  | some index =>
    .next {
      str := s.str.take index ++ repl ++ s.str.drop (index + search.length)
      index := index + repl.length
      count := s.count + 1 }

/-- `replace(str, search, repl)`, for `fuel` rounds at most.  The three arguments are distinct
objects, so that `search` and `repl` stay what they are. -/
def replace (fuel : Nat) (str search repl : Bytes) : Option (Bytes × Nat) :=
  run (replaceRound search repl) fuel { str := str, index := 0, count := 0 }

/-! ## Finding -/

/-- What `find` looks for, behind a part of the string. -/
theorem isPrefixOf_drop_append {search pre rest : Bytes} (i : Nat) :
    search.isPrefixOf ((pre ++ rest).drop (pre.length + i)) = true ↔ search <+: rest.drop i := by
  rw [List.isPrefixOf_iff_prefix, List.drop_append, List.drop_eq_nil_of_le (Nat.le_add_right _ _),
    List.nil_append, Nat.add_sub_cancel_left]

theorem find_eq_none {search pre rest : Bytes} (h : ¬ search <:+: rest) :
    find (pre ++ rest) search pre.length = none := by
  rw [find, List.find?_range'_eq_none]
  intro i hle hlt
  obtain ⟨i, rfl⟩ := Nat.exists_eq_add_of_le hle
  rw [Bool.not_eq_true', Bool.eq_false_iff, ne_eq, isPrefixOf_drop_append]
  intro hfound
  have hrest : rest.drop i <:+: rest := (List.drop_suffix i rest).isInfix
  exact h (hfound.isInfix.trans hrest)

theorem find_eq_some {search pre piece rest : Bytes} (h : FirstAt search piece rest) :
    find (pre ++ (piece ++ search ++ rest)) search pre.length =
      some (pre.length + piece.length) := by
  rw [find, List.find?_range'_eq_some]
  refine ⟨?_, ?_, ?_⟩
  · rw [isPrefixOf_drop_append, List.append_assoc, List.drop_left]
    exact List.prefix_append search rest
  · simp only [List.mem_range'_1, List.length_append]
    omega
  · intro i hle hlt
    obtain ⟨i, rfl⟩ := Nat.exists_eq_add_of_le hle
    rw [Bool.not_eq_true', Bool.eq_false_iff, ne_eq, isPrefixOf_drop_append]
    exact h i (Nat.lt_of_add_lt_add_left hlt)

/-- The empty string is found where the search begins. -/
theorem find_nil {str : Bytes} {index : Nat} (h : index ≤ str.length) :
    find str [] index = some index := by
  rw [find, List.find?_range'_eq_some]
  refine ⟨rfl, ?_, fun j hle hlt => absurd hle (Nat.not_le.mpr hlt)⟩
  rw [List.mem_range'_1]
  omega

/-! ## Replacing -/

/-- A round without an occurrence in what is left. -/
theorem replaceRound_last {search pre rest : Bytes} (repl : Bytes) (count : Nat)
    (h : ¬ search <:+: rest) :
    replaceRound search repl ⟨pre ++ rest, pre.length, count⟩ = .done (pre ++ rest, count) := by
  simp only [replaceRound, find_eq_none h]

/-- A round that replaces the first occurrence in what is left. -/
theorem replaceRound_cons {search pre piece rest : Bytes} (repl : Bytes) (count : Nat)
    (h : FirstAt search piece rest) :
    replaceRound search repl ⟨pre ++ (piece ++ search ++ rest), pre.length, count⟩ =
      .next ⟨pre ++ piece ++ repl ++ rest, (pre ++ piece ++ repl).length, count + 1⟩ := by
  have hstr : pre ++ (piece ++ search ++ rest) = pre ++ piece ++ (search ++ rest) := by
    simp only [List.append_assoc]
  have htake : (pre ++ (piece ++ search ++ rest)).take (pre.length + piece.length) =
      pre ++ piece := by
    rw [hstr, ← List.length_append, List.take_left]
  have hdrop : (pre ++ (piece ++ search ++ rest)).drop
      (pre.length + piece.length + search.length) = rest := by
    rw [hstr, ← List.drop_drop, ← List.length_append, List.drop_left, List.drop_left]
  simp only [replaceRound, find_eq_some h, htake, hdrop, List.length_append]

/-- The loop from a state in which `pre` is done: it is never read again. -/
theorem replaceRound_returns {search rest : Bytes} {pieces : List Bytes} (repl : Bytes)
    (hcut : Cut search rest pieces) (pre : Bytes) (count : Nat) :
    Returns (replaceRound search repl) ⟨pre ++ rest, pre.length, count⟩
      (pre ++ repl.intercalate pieces, count + (pieces.length - 1)) := by
  induction hcut generalizing pre count with
  | last hnone =>
    rw [List.intercalate_singleton]
    exact returns_of_done (replaceRound_last repl count hnone)
  | @cons piece rest pieces hfirst htail ih =>
    have hpos : 0 < pieces.length := List.length_pos_iff.mpr htail.ne_nil
    have hcount : count + ((piece :: pieces).length - 1) = count + 1 + (pieces.length - 1) := by
      rw [List.length_cons]
      omega
    refine returns_of_next (replaceRound_cons repl count hfirst) ?_
    rw [List.intercalate_cons_of_ne_nil htail.ne_nil, hcount, ← List.append_assoc,
      ← List.append_assoc]
    exact ih (pre ++ piece ++ repl) (count + 1)

theorem replace_returns {search str : Bytes} {pieces : List Bytes} (repl : Bytes)
    (hcut : Cut search str pieces) :
    ∃ fuel, replace fuel str search repl = some (repl.intercalate pieces, pieces.length - 1) := by
  have h := replaceRound_returns repl hcut [] 0
  rw [Nat.zero_add] at h
  exact h

/-- A string is cut in one way at the occurrences of `search`, which puts the pieces
together again.  `replace` ends with the pieces put together with `repl`, and returns
how many occurrences there are. -/
theorem replace_spec (str search repl : Bytes) (hsearch : search ≠ []) :
    ∃ pieces, Cut search str pieces ∧ (∀ other, Cut search str other → other = pieces) ∧
      search.intercalate pieces = str ∧
      ∃ fuel, replace fuel str search repl =
        some (repl.intercalate pieces, pieces.length - 1) := by
  obtain ⟨pieces, hcut⟩ := exists_cut hsearch str
  exact ⟨pieces, hcut, fun _ hother => hcut.unique hother, hcut.intercalate,
    replace_returns repl hcut⟩

theorem replace_spec_example :
    ∃ pieces, Cut ['a'.toUInt8] ['b'.toUInt8, 'a'.toUInt8, 'a'.toUInt8] pieces ∧
      (∀ other, Cut ['a'.toUInt8] ['b'.toUInt8, 'a'.toUInt8, 'a'.toUInt8] other →
        other = pieces) ∧
      (['a'.toUInt8] : Bytes).intercalate pieces = ['b'.toUInt8, 'a'.toUInt8, 'a'.toUInt8] ∧
      ∃ fuel, replace fuel ['b'.toUInt8, 'a'.toUInt8, 'a'.toUInt8] ['a'.toUInt8]
          ['a'.toUInt8, 'a'.toUInt8] =
        some ((['a'.toUInt8, 'a'.toUInt8] : Bytes).intercalate pieces, pieces.length - 1) :=
  replace_spec _ _ _ (by decide)

/-! ## The empty search string -/

/-- With an empty search string the loop never ends: the string is at least as
long as the index in every round. -/
theorem not_returns_nil (repl str : Bytes) (r : Bytes × Nat) :
    ¬ Returns (replaceRound [] repl) ⟨str, 0, 0⟩ r := by
  apply not_returns_of_invariant (I := fun s => s.index ≤ s.str.length)
  · intro s hs
    refine ⟨⟨s.str.take s.index ++ repl ++ s.str.drop s.index, s.index + repl.length,
      s.count + 1⟩, ?_, ?_⟩
    · simp only [replaceRound, find_nil hs, List.length_nil, Nat.add_zero]
    · simp only [List.length_append, List.length_take, List.length_drop]
      omega
  · exact Nat.zero_le _

/-- `replace` ends exactly when there is something to search for. -/
theorem replace_terminates_iff (str search repl : Bytes) :
    (∃ fuel r, replace fuel str search repl = some r) ↔ search ≠ [] := by
  constructor
  · rintro ⟨fuel, r, hr⟩ rfl
    exact not_returns_nil repl str r ⟨fuel, hr⟩
  · intro hsearch
    obtain ⟨pieces, hcut⟩ := exists_cut hsearch str
    obtain ⟨fuel, hfuel⟩ := replace_returns repl hcut
    exact ⟨fuel, _, hfuel⟩

/-- Nothing is replaced by nothing for ever. -/
theorem replace_nil_diverges : ¬ ∃ fuel r, replace fuel [] [] [] = some r := by
  rintro ⟨fuel, r, hr⟩
  exact not_returns_nil [] [] r ⟨fuel, hr⟩

end Mwr.Strings
