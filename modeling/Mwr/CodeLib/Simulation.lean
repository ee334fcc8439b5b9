import Mwr.CodeLib.Exec

/-!
# Two computations that notice a failure at different times

A computation may go on for a while where another one has failed already.  From there on
the late one is astray: it is in a state of which nothing is known but that it leads to a
failure in the end.

* `Strays P T T' y` says that from a state in `T` the computation `y` fails in `P` or ends
  in `T'`.
* `Sim R P T x y` says that from related states both succeed with the same value in related
  states, or the failure of `x` in `P` leads `y` to one in `P`, or astray into `T`.
* `Follows R P T x y` is both, so that `y` may have gone astray into `T` before.
* All of them compose along `>>=`.  A part that cannot go on astray, because it strays to nowhere,
  turns a late failure into one in time.
-/

namespace Mwr.CodeLib

open Exec

variable {ε σ τ α β : Type}

/-- The run fails in `P` or ends in a state of `T`. -/
def Lost (P : ε → Prop) (T : τ → Prop) : Except ε (β × τ) → Prop
  | .error e => P e
  | .ok (_, t) => T t

/-- The runs succeed with the same value in related states, or a failure of the first in `P`
loses the second. -/
def Agree (R : σ → τ → Prop) (P : ε → Prop) (T : τ → Prop) :
    Except ε (α × σ) → Except ε (α × τ) → Prop
  | .ok (a, s), r => ∃ t, r = .ok (a, t) ∧ R s t
  | .error e, r => P e → Lost P T r

def Strays (P : ε → Prop) (T T' : τ → Prop) (y : StateT τ (Except ε) β) : Prop :=
  ∀ t, T t → Lost P T' (y.run t)

def Sim (R : σ → τ → Prop) (P : ε → Prop) (T : τ → Prop) (x : StateT σ (Except ε) α)
    (y : StateT τ (Except ε) α) : Prop :=
  ∀ s t, R s t → Agree R P T (x.run s) (y.run t)

/-- No state at all. -/
def nowhere : τ → Prop := fun _ => False

variable {R : σ → τ → Prop} {P : ε → Prop} {T T₁ T' : τ → Prop}

/-! ## Going astray -/

namespace Strays

variable {y : StateT τ (Except ε) α} {g : α → StateT τ (Except ε) β}

theorem pure (a : α) : Strays P T T (Pure.pure a : StateT τ (Except ε) α) := fun _ h => h

theorem throw {e : ε} (h : P e) : Strays P T T' (throw e : StateT τ (Except ε) α) :=
  fun _ _ => h

/-- A sequence strays as its parts do, one after the other. -/
theorem bind (hy : Strays P T T₁ y) (hg : ∀ a, Strays P T₁ T' (g a)) :
    Strays P T T' (y >>= g) := by
  intro t ht
  have hlost := hy t ht
  cases h : y.run t with
  | error e =>
    rw [h] at hlost
    rw [run_bind_of_error h]
    exact hlost
  | ok r =>
    obtain ⟨a, t'⟩ := r
    rw [h] at hlost
    rw [run_bind_of_ok h]
    exact hg a t' hlost

theorem of_nowhere : Strays P (nowhere : τ → Prop) T y := fun _ h => absurd h id

/-- What fails at once needs nothing of what comes behind it. -/
theorem bind_nowhere (hy : Strays P T nowhere y) : Strays P T T' (y >>= g) :=
  hy.bind fun _ => of_nowhere

theorem ite {c : Prop} [Decidable c] {y' : StateT τ (Except ε) α} (hy : Strays P T T' y)
    (hy' : Strays P T T' y') : Strays P T T' (if c then y else y') := by
  split
  · exact hy
  · exact hy'

end Strays

/-! ## Going together -/

namespace Sim

variable {x : StateT σ (Except ε) α} {y : StateT τ (Except ε) α}
  {f : α → StateT σ (Except ε) β} {g : α → StateT τ (Except ε) β}

theorem pure (a : α) : Sim R P T (Pure.pure a) (Pure.pure a) := fun _ t h => ⟨t, rfl, h⟩

theorem throw (e : ε) : Sim R P T (throw e : StateT σ (Except ε) α) (throw e) :=
  fun _ _ _ h => h

/-- A sequence goes together if its parts do, and if the second part of `y` cannot get
back from where the first one has gone astray. -/
theorem bind (hx : Sim R P T₁ x y) (hf : ∀ a, Sim R P T (f a) (g a))
    (hg : ∀ a, Strays P T₁ T (g a)) : Sim R P T (x >>= f) (y >>= g) := by
  intro s t hst
  have hagree := hx s t hst
  cases h : x.run s with
  | ok r =>
    obtain ⟨a, s'⟩ := r
    rw [h] at hagree
    obtain ⟨t', hy, hst'⟩ := hagree
    rw [run_bind_of_ok h, run_bind_of_ok hy]
    exact hf a s' t' hst'
  | error e =>
    rw [h] at hagree
    rw [run_bind_of_error h]
    intro he
    have hstray := Strays.bind (y := y) (T := fun t' => t' = t) (fun _ ht => ht ▸ hagree he) hg
    exact hstray t rfl

/-- A first part that does not go astray. -/
theorem bind_strict (hx : Sim R P nowhere x y) (hf : ∀ a, Sim R P T (f a) (g a)) :
    Sim R P T (x >>= f) (y >>= g) :=
  hx.bind hf fun _ => Strays.of_nowhere

theorem ite {c : Prop} [Decidable c] {x' : StateT σ (Except ε) α} {y' : StateT τ (Except ε) α}
    (h : Sim R P T x y) (h' : Sim R P T x' y') :
    Sim R P T (if c then x else x') (if c then y else y') := by
  split
  · exact h
  · exact h'

end Sim

/-! ## Both -/

/-- The two go together, and `y` stays astray once it is. -/
structure Follows (R : σ → τ → Prop) (P : ε → Prop) (T : τ → Prop)
    (x : StateT σ (Except ε) α) (y : StateT τ (Except ε) α) : Prop where
  sim : Sim R P T x y
  strays : Strays P T T y

namespace Follows

variable {x : StateT σ (Except ε) α} {y : StateT τ (Except ε) α}
  {f : α → StateT σ (Except ε) β} {g : α → StateT τ (Except ε) β}

theorem pure (a : α) : Follows R P T (Pure.pure a) (Pure.pure a) := ⟨Sim.pure a, Strays.pure a⟩

theorem throw {e : ε} (h : P e) : Follows R P T (throw e : StateT σ (Except ε) α) (throw e) :=
  ⟨Sim.throw e, Strays.throw h⟩

theorem bind (hx : Follows R P T x y) (hf : ∀ a, Follows R P T (f a) (g a)) :
    Follows R P T (x >>= f) (y >>= g) :=
  ⟨hx.sim.bind (fun a => (hf a).sim) fun a => (hf a).strays,
    hx.strays.bind fun a => (hf a).strays⟩

theorem ite {c : Prop} [Decidable c] {x' : StateT σ (Except ε) α} {y' : StateT τ (Except ε) α}
    (h : Follows R P T x y) (h' : Follows R P T x' y') :
    Follows R P T (if c then x else x') (if c then y else y') :=
  ⟨h.sim.ite h'.sim, h.strays.ite h'.strays⟩

end Follows

end Mwr.CodeLib
