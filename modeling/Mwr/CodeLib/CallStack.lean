import Mathlib.Data.List.Perm.Basic

/-!
# Calls in progress

Threads call the methods of an object that they share.  A call that has been
interrupted, because it waits or because it runs code that the caller gave it,
is recorded with its thread and the position it has reached.  A thread that is
called back may call the object again, so it can have several calls in progress,
and only the newest one can go on.

The calls of all threads are in one list, the newest ones first.  `perm_pop` and
the lemmas about `count` say what is in it after a step of one thread.
-/

namespace Mwr.CodeLib.CallStack

variable {κ : Type*} {p : κ → Bool} {calls : List (Nat × κ)} {thread : Nat} {call : κ}

/-- The newest call of a thread. -/
def top (calls : List (Nat × κ)) (thread : Nat) : Option κ :=
  (calls.find? fun e => e.1 == thread).map Prod.snd

/-- The thread calls the object. -/
def push (calls : List (Nat × κ)) (thread : Nat) (call : κ) : List (Nat × κ) :=
  (thread, call) :: calls

/-- The newest call of the thread ends. -/
def pop (calls : List (Nat × κ)) (thread : Nat) : List (Nat × κ) :=
  calls.eraseP fun e => e.1 == thread

/-- The newest call of the thread goes on to another position. -/
def advance (calls : List (Nat × κ)) (thread : Nat) (call : κ) : List (Nat × κ) :=
  push (pop calls thread) thread call

/-- The number of calls whose position has a property. -/
def count (p : κ → Bool) (calls : List (Nat × κ)) : Nat := calls.countP fun e => p e.2

theorem perm_pop (h : top calls thread = some call) :
    calls.Perm ((thread, call) :: pop calls thread) := by
  rw [top, Option.map_eq_some_iff] at h
  obtain ⟨⟨thread', call'⟩, hfind, hcall⟩ := h
  obtain ⟨hthread, before, after, rfl, hbefore⟩ := List.find?_eq_some_iff_append.1 hfind
  have hthread' : thread' = thread := eq_of_beq hthread
  cases hcall
  cases hthread'
  have hpop : pop ((thread, call') :: after) thread = after :=
    List.eraseP_cons_of_pos (beq_self_eq_true thread)
  have hskip : ∀ e ∈ before, ¬(e.1 == thread) = true := fun e he => by simpa using hbefore e he
  rw [pop, List.eraseP_append_right _ hskip, ← pop, hpop]
  exact List.perm_middle

theorem count_push (p : κ → Bool) (calls : List (Nat × κ)) (thread : Nat) (call : κ) :
    count p (push calls thread call) = count p calls + if p call then 1 else 0 := by
  rw [push, count, List.countP_cons]
  rfl

theorem count_pop (p : κ → Bool) (h : top calls thread = some call) :
    count p calls = count p (pop calls thread) + if p call then 1 else 0 := by
  rw [count, (perm_pop h).countP_eq, ← count_push p _ thread]
  rfl

theorem count_pop_le (p : κ → Bool) (calls : List (Nat × κ)) (thread : Nat) :
    count p (pop calls thread) ≤ count p calls :=
  List.eraseP_sublist.countP_le

end Mwr.CodeLib.CallStack
