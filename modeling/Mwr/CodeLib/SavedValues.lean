import Mathlib.Data.List.Basic
import Mathlib.Tactic.Common

/-!
# A stack of saved values

A value that changes, and a stack of copies that were saved of it.  A copy that is taken off the
stack becomes the value again.  When the stack is given up as a whole, only the copies that were
marked when they were saved do.

* `unwind` gives the stack up, and `Recoverable` is the invariant under which it leads back to the
  first value (`unwind_eq`).
* `depth` follows the height of the stack along a series of moves.  A `Balanced` series ends at
  the stack that it has started with (`Steps.stack_eq`).
-/

namespace Mwr.CodeLib.SavedValues

variable {α : Type*}

/-- A copy of the value. -/
structure Saved (α : Type*) where
  value : α
  /-- It is put back when the stack is given up. -/
  restore : Bool
  deriving DecidableEq, Repr

/-! ## Giving the stack up -/

/-- The value after the stack, whose head is its top, was given up. -/
def unwind : List (Saved α) → α → α
  | [], value => value
  | saved :: rest, value => unwind rest (if saved.restore then saved.value else value)

/-- A copy on the stack is put back when the stack is given up. -/
def Restoring (stack : List (Saved α)) : Prop := ∃ saved ∈ stack, saved.restore = true

instance (stack : List (Saved α)) : Decidable (Restoring stack) :=
  inferInstanceAs (Decidable (∃ saved ∈ stack, saved.restore = true))

/-- The value differs from the first one only while a copy is there that will be put back, and so
did each copy when it was saved. -/
def Recoverable (first : α) : List (Saved α) → α → Prop
  | [], value => value = first
  | saved :: rest, value =>
    (value = first ∨ Restoring (saved :: rest)) ∧ Recoverable first rest saved.value

variable {first value : α} {saved : Saved α} {stack : List (Saved α)}

theorem not_restoring_nil : ¬ Restoring ([] : List (Saved α)) := by
  rintro ⟨saved, hmem, -⟩
  exact absurd hmem List.not_mem_nil

theorem restoring_cons : Restoring (saved :: stack) ↔ saved.restore = true ∨ Restoring stack := by
  unfold Restoring
  rw [List.exists_mem_cons_iff]

theorem Recoverable.first_or (h : Recoverable first stack value) :
    value = first ∨ Restoring stack := by
  cases stack with
  | nil => exact .inl h
  | cons saved rest => exact h.1

theorem Recoverable.save (h : Recoverable first stack value) (restore : Bool) :
    Recoverable first (⟨value, restore⟩ :: stack) value :=
  ⟨h.first_or.imp_right fun hr => restoring_cons.2 (.inr hr), h⟩

/-- Any change is allowed while there is a copy that will be put back. -/
theorem Recoverable.change (h : Recoverable first stack value) (hr : Restoring stack)
    (value' : α) : Recoverable first stack value' := by
  cases stack with
  | nil => exact absurd hr not_restoring_nil
  | cons saved rest => exact ⟨.inr hr, h.2⟩

theorem Recoverable.takeBack (h : Recoverable first (saved :: stack) value) :
    Recoverable first stack saved.value := h.2

/-- Giving the stack up leads back to the first value. -/
theorem unwind_eq (h : Recoverable first stack value) : unwind stack value = first := by
  induction stack generalizing value with
  | nil => exact h
  | cons saved rest ih =>
    unfold unwind
    apply ih
    cases hrestore : saved.restore with
    | true => exact h.takeBack
    | false =>
      -- a copy that is not put back leaves the value, which may differ only for the rest
      show Recoverable first rest value
      have hvalue : value = first ∨ Restoring rest := by
        refine h.first_or.imp_right fun hr => ?_
        rcases restoring_cons.1 hr with hsaved | hr
        · exact absurd hsaved (by rw [hrestore]; exact Bool.false_ne_true)
        · exact hr
      have hrest : Recoverable first rest saved.value := h.takeBack
      cases rest with
      | nil => exact hvalue.resolve_right not_restoring_nil
      | cons next rest => exact ⟨hvalue, hrest.2⟩

/-! ## The height of the stack -/

inductive Move where
  | save
  | takeBack
  deriving DecidableEq, Repr

/-- The height after a series of moves, or `none` if it would take from below the start. -/
def depth : Nat → List Move → Option Nat
  | n, [] => some n
  | n, .save :: moves => depth (n + 1) moves
  | 0, .takeBack :: _ => none
  | n + 1, .takeBack :: moves => depth n moves

/-- Each copy that is saved is taken back, and no other one is. -/
def Balanced (moves : List Move) : Prop := depth 0 moves = some 0

instance (moves : List Move) : Decidable (Balanced moves) :=
  inferInstanceAs (Decidable (depth 0 moves = some 0))

/-- The stacks before and after a series of moves. -/
inductive Steps {β : Type*} : List β → List Move → List β → Prop
  | nil (stack : List β) : Steps stack [] stack
  | save {stack stack' : List β} {moves : List Move} (top : β)
      (h : Steps (top :: stack) moves stack') : Steps stack (.save :: moves) stack'
  | takeBack {stack stack' : List β} {moves : List Move} {top : β}
      (h : Steps stack moves stack') : Steps (top :: stack) (.takeBack :: moves) stack'

/-- What is below the start of the moves stays as it is. -/
theorem Steps.depth_eq {β : Type*} {stack stack' base : List β} {moves : List Move} {n m : Nat}
    (h : Steps stack moves stack') (hbase : stack.drop n = base) (hn : n ≤ stack.length)
    (hdepth : depth n moves = some m) : stack'.drop m = base ∧ m ≤ stack'.length := by
  induction h generalizing n with
  | nil stack =>
    cases hdepth
    exact ⟨hbase, hn⟩
  | save top h ih => exact ih hbase (Nat.succ_le_succ hn) hdepth
  | takeBack h ih =>
    cases n with
    | zero => cases hdepth
    | succ n => exact ih hbase (Nat.le_of_succ_le_succ hn) hdepth

/-- A balanced series of moves ends at the stack that it has started with. -/
theorem Steps.stack_eq {β : Type*} {stack stack' : List β} {moves : List Move}
    (h : Steps stack moves stack') (hbalanced : Balanced moves) : stack' = stack :=
  (h.depth_eq List.drop_zero (Nat.zero_le _) hbalanced).1

end Mwr.CodeLib.SavedValues
