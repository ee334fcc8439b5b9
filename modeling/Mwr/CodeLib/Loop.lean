import Mathlib.Tactic.TypeStar

/-!
# Loops that end with a break

A round of `while (true)` goes on with another state or leaves the loop with a
result.  A loop is run with fuel, and what it does is stated for enough of it.

`returns_of_done` and `returns_of_next` follow a loop round by round.  `run_succ` says that
more fuel does not change a result, and `Returns.unique` that there is only one.
`Returns.of_invariant` is the rule for a condition that the rounds keep, and
`not_returns_of_invariant` the one for a loop that never ends.
-/

namespace Mwr.CodeLib.Loop

/-- What one round of a loop does. -/
inductive Round (σ ρ : Type*) where
  | next (s : σ)
  | done (r : ρ)

variable {σ ρ : Type*} {body : σ → Round σ ρ} {s s' : σ} {r : ρ}

/-- `fuel` rounds of a loop at most. -/
def run (body : σ → Round σ ρ) : Nat → σ → Option ρ
  | 0, _ => none
  | fuel + 1, s =>
    match body s with
    | .next s' => run body fuel s'
    | .done r => some r

/-- The loop ends with the result `r`. -/
def Returns (body : σ → Round σ ρ) (s : σ) (r : ρ) : Prop :=
  ∃ fuel, run body fuel s = some r

theorem run_succ_of_next (h : body s = .next s') (fuel : Nat) :
    run body (fuel + 1) s = run body fuel s' := by
  rw [run, h]

theorem run_succ_of_done (h : body s = .done r) (fuel : Nat) :
    run body (fuel + 1) s = some r := by
  rw [run, h]

theorem returns_of_done (h : body s = .done r) : Returns body s r :=
  ⟨1, run_succ_of_done h 0⟩

theorem returns_of_next (h : body s = .next s') (hr : Returns body s' r) : Returns body s r := by
  obtain ⟨fuel, hfuel⟩ := hr
  exact ⟨fuel + 1, (run_succ_of_next h fuel).trans hfuel⟩

theorem run_succ {fuel : Nat} (h : run body fuel s = some r) :
    run body (fuel + 1) s = some r := by
  induction fuel generalizing s with
  | zero => cases h
  | succ fuel ih =>
    cases hbody : body s with
    | next s' =>
      rw [run_succ_of_next hbody] at h ⊢
      exact ih h
    | done r' =>
      rw [run_succ_of_done hbody] at h ⊢
      exact h

theorem run_add {fuel : Nat} (h : run body fuel s = some r) (more : Nat) :
    run body (fuel + more) s = some r := by
  induction more with
  | zero => exact h
  | succ more ih => exact run_succ ih

theorem Returns.unique {r' : ρ} (h : Returns body s r) (h' : Returns body s r') : r = r' := by
  obtain ⟨fuel, hr⟩ := h
  obtain ⟨fuel', hr'⟩ := h'
  have hboth := run_add hr fuel'
  rw [Nat.add_comm, run_add hr' fuel] at hboth
  exact (Option.some.inj hboth).symm

/-- A condition that every round keeps holds at the round that ends the loop. -/
theorem Returns.of_invariant {I : σ → Prop} {Q : ρ → Prop}
    (hnext : ∀ s s', I s → body s = .next s' → I s')
    (hdone : ∀ s r, I s → body s = .done r → Q r)
    (h : Returns body s r) (hs : I s) : Q r := by
  obtain ⟨fuel, hfuel⟩ := h
  induction fuel generalizing s with
  | zero => cases hfuel
  | succ fuel ih =>
    cases hbody : body s with
    | next s' =>
      rw [run_succ_of_next hbody] at hfuel
      exact ih (hnext s s' hs hbody) hfuel
    | done r' =>
      rw [run_succ_of_done hbody] at hfuel
      exact Option.some.inj hfuel ▸ hdone s r' hs hbody

/-- A loop does not end when every round keeps a condition under which it goes
on. -/
theorem not_returns_of_invariant {I : σ → Prop}
    (hround : ∀ s, I s → ∃ s', body s = .next s' ∧ I s') (h : I s) : ¬ Returns body s r := by
  rintro ⟨fuel, hfuel⟩
  induction fuel generalizing s with
  | zero => cases hfuel
  | succ fuel ih =>
    obtain ⟨s', hnext, hs'⟩ := hround s h
    rw [run_succ_of_next hnext] at hfuel
    exact ih hs' hfuel

end Mwr.CodeLib.Loop
