import Mathlib.Data.List.Flatten
import Mathlib.Tactic.Common

/-!
# Messages in a stream

Calls that move messages over one end of a stream, each in as many pieces as it takes.  Only the
pieces are seen on the stream.

* `Framed` relates the messages of the calls that have returned, the part of the call in progress
  and all that has passed the end of the stream.  There is a lemma for each thing that can happen.
* `take_eq_of_framed` compares the two ends: as far as the sizes of the messages agree, the
  messages do.
-/

namespace Mwr.CodeLib.Framing

variable {α : Type}

/-- What has passed an end of a stream is the messages of the calls that have returned and the part
that the call in progress has moved.  An end that is closed may have moved something else behind the
messages, in a call that failed. -/
def Framed (done : List (List α)) (part : Option (List α)) (isOpen : Bool) (passed : List α) :
    Prop :=
  ∃ rest, passed = done.flatten ++ rest ∧
    (∀ p ∈ part, p ≠ [] ∨ isOpen = true → rest = p) ∧
    (part = none → isOpen = true → rest = [])

variable {done done' : List (List α)} {part : Option (List α)} {p xs passed passed' : List α}
  {isOpen : Bool}

theorem framed_nil : Framed ([] : List (List α)) none true [] :=
  ⟨[], rfl, nofun, fun _ _ => rfl⟩

theorem Framed.flatten_begins (h : Framed done part isOpen passed) : done.flatten <+: passed := by
  obtain ⟨rest, rfl, -, -⟩ := h
  exact List.prefix_append _ _

/-- A call starts. -/
theorem Framed.start (h : Framed done none isOpen passed) :
    Framed done (some []) isOpen passed := by
  obtain ⟨rest, heq, -, hnone⟩ := h
  refine ⟨rest, heq, fun p hp hor => ?_, nofun⟩
  cases hp
  rcases hor with hne | hopen
  · exact absurd rfl hne
  · exact hnone rfl hopen

/-- A piece passes the end. -/
theorem Framed.move (h : Framed done (some p) true passed) (xs : List α) :
    Framed done (some (p ++ xs)) true (passed ++ xs) := by
  obtain ⟨rest, rfl, hpart, -⟩ := h
  cases hpart p rfl (.inr rfl)
  refine ⟨p ++ xs, List.append_assoc _ _ _, fun p' hp' _ => ?_, nofun⟩
  cases hp'
  rfl

/-- The call returns. -/
theorem Framed.finish (h : Framed done (some p) isOpen passed) :
    Framed (done ++ [p]) none isOpen passed := by
  obtain ⟨rest, rfl, hpart, -⟩ := h
  by_cases hor : p ≠ [] ∨ isOpen = true
  · cases hpart p rfl hor
    refine ⟨[], ?_, nofun, fun _ _ => rfl⟩
    rw [List.flatten_append, List.flatten_singleton, List.append_nil]
  · -- a message of no bytes at an end that is closed
    rw [not_or, not_not] at hor
    obtain ⟨rfl, hclosed⟩ := hor
    refine ⟨rest, ?_, nofun, fun _ hopen => absurd hopen hclosed⟩
    rw [List.flatten_append, List.flatten_singleton, List.append_nil]

/-- The end may be closed. -/
theorem Framed.close {isOpen' : Bool} (h : Framed done part isOpen passed)
    (hopen : isOpen' = true → isOpen = true) : Framed done part isOpen' passed := by
  obtain ⟨rest, heq, hpart, hnone⟩ := h
  exact ⟨rest, heq, fun p hp hor => hpart p hp (hor.imp_right hopen),
    fun hp hopen' => hnone hp (hopen hopen')⟩

/-- The call fails, at an end that is closed. -/
theorem Framed.fail (h : Framed done part false passed) : Framed done none false passed := by
  obtain ⟨rest, heq, -, -⟩ := h
  exact ⟨rest, heq, nofun, nofun⟩

/-- Messages at the start of one stream are told apart by their sizes. -/
theorem eq_of_flatten_begins {ms ms' : List (List α)} (h : ms.flatten <+: passed)
    (h' : ms'.flatten <+: passed) (hsize : ms.map List.length = ms'.map List.length) :
    ms = ms' := by
  have hlength : ms.flatten.length = ms'.flatten.length := by
    rw [List.length_flatten, List.length_flatten, hsize]
  have hflatten : ms.flatten = ms'.flatten := by
    have hpre := List.prefix_of_prefix_length_le h h' (Nat.le_of_eq hlength)
    exact hpre.eq_of_length hlength
  exact List.eq_iff_flatten_eq.2 ⟨hflatten, hsize⟩

theorem flatten_take_begins (ms : List (List α)) (k : Nat) :
    (ms.take k).flatten <+: ms.flatten := by
  conv => rhs; rw [← List.take_append_drop k ms, List.flatten_append]
  exact List.prefix_append _ _

/-- What comes out of the far end of a stream, in calls of its own, are the messages that went in,
as far as the sizes agree. -/
theorem take_eq_of_framed {part' : Option (List α)} {isOpen' : Bool}
    (hin : Framed done part isOpen passed) (hout : Framed done' part' isOpen' passed')
    (hstream : passed' <+: passed) {k : Nat}
    (hsize : (done'.take k).map List.length = (done.take k).map List.length) :
    done'.take k = done.take k :=
  eq_of_flatten_begins
    (((flatten_take_begins done' k).trans hout.flatten_begins).trans hstream)
    ((flatten_take_begins done k).trans hin.flatten_begins) hsize

end Mwr.CodeLib.Framing
