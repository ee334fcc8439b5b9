import Mathlib.Data.List.Basic
import Mathlib.Data.List.Infix
import Mathlib.Data.Nat.Find
import Mathlib.Tactic.TypeStar

/-!
# Occurrences of a string in another

A string is cut at the occurrences of a search string from left to right: at the
leftmost one first, and then behind it.  The cut is unique, the search string
puts its pieces together again, and it exists for every search string that is
not empty.
-/

namespace Mwr.CodeLib.Substring

variable {α : Type*} {search str rest piece : List α} {pieces : List (List α)}

/-- The first occurrence of `search` in `piece ++ search ++ rest` is the one
behind `piece`. -/
def FirstAt (search piece rest : List α) : Prop :=
  ∀ i < piece.length, ¬ search <+: (piece ++ search ++ rest).drop i

/-- `pieces` are what is left of a string between its occurrences of `search`,
which are taken from left to right and do not overlap. -/
inductive Cut (search : List α) : List α → List (List α) → Prop
  | last {rest : List α} : ¬ search <:+: rest → Cut search rest [rest]
  | cons {piece rest : List α} {pieces : List (List α)} :
      FirstAt search piece rest → Cut search rest pieces →
        Cut search (piece ++ search ++ rest) (piece :: pieces)

theorem Cut.ne_nil (h : Cut search str pieces) : pieces ≠ [] := by
  cases h <;> exact List.cons_ne_nil _ _

/-- The search string puts the pieces together again. -/
theorem Cut.intercalate (h : Cut search str pieces) : search.intercalate pieces = str := by
  induction h with
  | last _ => exact List.intercalate_singleton
  | cons _ htail ih => rw [List.intercalate_cons_of_ne_nil htail.ne_nil, ih]

/-! ## There is one cut -/

theorem Cut.inv (h : Cut search str pieces) :
    (¬ search <:+: str ∧ pieces = [str]) ∨
      ∃ piece rest tail, str = piece ++ search ++ rest ∧ pieces = piece :: tail ∧
        FirstAt search piece rest ∧ Cut search rest tail := by
  cases h with
  | last h => exact .inl ⟨h, rfl⟩
  | @cons piece rest tail hfirst htail =>
    exact .inr ⟨piece, rest, tail, rfl, rfl, hfirst, htail⟩

theorem isInfix_of_eq (h : str = piece ++ search ++ rest) : search <:+: str :=
  ⟨piece, rest, h.symm⟩

/-- An occurrence is not in front of the first one. -/
theorem FirstAt.le {piece' rest' : List α} (h : FirstAt search piece rest)
    (heq : piece ++ search ++ rest = piece' ++ search ++ rest') : piece.length ≤ piece'.length := by
  by_contra hlt
  refine h piece'.length (Nat.not_le.mp hlt) ⟨rest', ?_⟩
  rw [heq, List.append_assoc, List.drop_left]

theorem FirstAt.unique {piece' rest' : List α} (h : FirstAt search piece rest)
    (h' : FirstAt search piece' rest')
    (heq : piece ++ search ++ rest = piece' ++ search ++ rest') :
    piece = piece' ∧ rest = rest' := by
  have hlength : piece.length = piece'.length := Nat.le_antisymm (h.le heq) (h'.le heq.symm)
  rw [List.append_assoc, List.append_assoc] at heq
  obtain ⟨hpiece, hrest⟩ := List.append_inj heq hlength
  exact ⟨hpiece, List.append_cancel_left hrest⟩

theorem Cut.unique {pieces' : List (List α)} (h : Cut search str pieces)
    (h' : Cut search str pieces') : pieces' = pieces := by
  induction h generalizing pieces' with
  | last hnone =>
    obtain ⟨-, rfl⟩ | ⟨piece, rest, tail, heq, -, -, -⟩ := h'.inv
    · rfl
    · exact absurd (isInfix_of_eq heq) hnone
  | cons hfirst htail ih =>
    obtain ⟨hnone, -⟩ | ⟨piece, rest, tail, heq, rfl, hfirst', htail'⟩ := h'.inv
    · exact absurd (isInfix_of_eq rfl) hnone
    · obtain ⟨rfl, rfl⟩ := hfirst.unique hfirst' heq
      rw [ih htail']

/-! ## There is a cut -/

/-- A string that has an occurrence of `search` has a first one. -/
theorem exists_firstAt (h : search <:+: str) :
    ∃ piece rest, str = piece ++ search ++ rest ∧ FirstAt search piece rest := by
  classical
  have hex : ∃ i, search <+: str.drop i := by
    obtain ⟨piece, rest, rfl⟩ := h
    exact ⟨piece.length, rest, by rw [List.append_assoc, List.drop_left]⟩
  obtain ⟨rest, hrest⟩ := Nat.find_spec hex
  have hstr : str = str.take (Nat.find hex) ++ search ++ rest := by
    rw [List.append_assoc, hrest, List.take_append_drop]
  refine ⟨str.take (Nat.find hex), rest, hstr, ?_⟩
  intro i hi
  rw [← hstr]
  exact Nat.find_min hex (hi.trans_le (List.length_take_le _ _))

theorem exists_cut (hsearch : search ≠ []) (str : List α) : ∃ pieces, Cut search str pieces := by
  induction hn : str.length using Nat.strong_induction_on generalizing str with
  | h n ih =>
    by_cases h : search <:+: str
    · obtain ⟨piece, rest, rfl, hfirst⟩ := exists_firstAt h
      have hpos : 0 < search.length := List.length_pos_iff.mpr hsearch
      have hlt : rest.length < n := by
        simp only [← hn, List.length_append]
        omega
      obtain ⟨pieces, hpieces⟩ := ih rest.length hlt rest rfl
      exact ⟨piece :: pieces, .cons hfirst hpieces⟩
    · exact ⟨[str], .last h⟩

end Mwr.CodeLib.Substring
