import Mathlib.Control.Monad.Basic

/-!
# Stateful computations whose exceptions keep the state

A method of an object may throw after it has changed the object, and the caller
that catches the exception finds the object changed.  The embedding of such a
method is `ExceptT ε (StateM σ)`, and `exec` runs it: the result is a value or an
exception, with the state that is left in both cases.

The lemmas take a run of a sequence forwards, one part after the other.
-/

namespace Mwr.CodeLib.Throwing

variable {ε σ α β : Type}

/-- Run a computation, and keep the state if it throws. -/
def exec (x : ExceptT ε (StateM σ) α) (s : σ) : Except ε α × σ := x.run.run s

variable {x : ExceptT ε (StateM σ) α} {f : α → ExceptT ε (StateM σ) β} {s s' : σ}

/-- A sequence whose first part returns goes on with the second part. -/
theorem exec_bind_of_ok {a : α} (h : exec x s = (.ok a, s')) :
    exec (x >>= f) s = exec (f a) s' := by
  unfold exec at h ⊢
  rw [ExceptT.run_bind, StateT.run_bind, h]
  rfl

/-- A sequence whose first part throws throws the same exception. -/
theorem exec_bind_of_error {e : ε} (h : exec x s = (.error e, s')) :
    exec (x >>= f) s = (.error e, s') := by
  unfold exec at h ⊢
  rw [ExceptT.run_bind, StateT.run_bind, h]
  rfl

@[simp] theorem exec_get (s : σ) : exec (get : ExceptT ε (StateM σ) σ) s = (.ok s, s) := rfl

@[simp] theorem exec_modify (g : σ → σ) (s : σ) :
    exec (modify g : ExceptT ε (StateM σ) PUnit) s = (.ok ⟨⟩, g s) := rfl

@[simp] theorem exec_ofExcept (r : Except ε α) (s : σ) :
    exec (ofExcept r : ExceptT ε (StateM σ) α) s = (r, s) := by
  cases r <;> rfl

end Mwr.CodeLib.Throwing
