import Mathlib.Tactic.TypeStar

/-!
# Transition systems

A `System` has initial states and labelled steps.  Its reachable states are
those at the end of a finite run, and `Reachable.invariant` is the rule that
proves something of all of them.

* `restrict` keeps the steps that meet a condition.  A reachable state of the
  restricted system is one at the end of a run whose steps all meet it.
* `ofStep` is the system of a step function, and `run` evaluates such a
  function along a list of labels, which shows that a given state is reachable.
* `countP_le_of_rank` bounds how often the labels of some kind occur in a run.
* `observe` keeps a history of the run beside the state of a step function, and
  `withHistory` does it for any system.
-/

namespace Mwr.CodeLib.Transition

/-- A labelled transition system. -/
structure System (σ ε : Type*) where
  init : σ → Prop
  step : σ → ε → σ → Prop

namespace System

variable {σ ε : Type*}

/-- The states at the end of a finite run. -/
inductive Reachable (M : System σ ε) : σ → Prop
  | init {s : σ} : M.init s → Reachable M s
  | step {s s' : σ} {e : ε} : Reachable M s → M.step s e s' → Reachable M s'

/-- What holds initially and is kept by every step holds in every reachable
state. -/
theorem Reachable.invariant {M : System σ ε} {I : σ → Prop} (hinit : ∀ s, M.init s → I s)
    (hstep : ∀ s e s', M.Reachable s → I s → M.step s e s' → I s') {s : σ}
    (h : M.Reachable s) : I s := by
  induction h with
  | init hs => exact hinit _ hs
  | step hs he ih => exact hstep _ _ _ hs ih he

/-- The system with the steps that meet a condition on the state before the step
and its label. -/
def restrict (M : System σ ε) (ok : σ → ε → Prop) : System σ ε where
  init := M.init
  step := fun s e s' => ok s e ∧ M.step s e s'

theorem Reachable.of_restrict {M : System σ ε} {ok : σ → ε → Prop} {s : σ}
    (h : (M.restrict ok).Reachable s) : M.Reachable s := by
  induction h with
  | init hs => exact .init hs
  | step _ he ih => exact .step ih he.2

/-- A run whose steps meet a condition meets a weaker one. -/
theorem Reachable.mono_restrict {M : System σ ε} {ok ok' : σ → ε → Prop}
    (himp : ∀ s e, ok s e → ok' s e) {s : σ} (h : (M.restrict ok).Reachable s) :
    (M.restrict ok').Reachable s := by
  induction h with
  | init hs => exact .init hs
  | step _ he ih => exact .step ih ⟨himp _ _ he.1, he.2⟩

/-- The system of a step function that is undefined where a label is not
enabled. -/
def ofStep (s₀ : σ) (f : σ → ε → Option σ) : System σ ε where
  init := fun s => s = s₀
  step := fun s e s' => f s e = some s'

/-- Take the steps of a list of labels. -/
def run (f : σ → ε → Option σ) : σ → List ε → Option σ
  | s, [] => some s
  | s, e :: es => (f s e).bind fun s' => run f s' es

theorem run_append (f : σ → ε → Option σ) (s : σ) (es es' : List ε) :
    run f s (es ++ es') = (run f s es).bind fun s' => run f s' es' := by
  induction es generalizing s with
  | nil => rfl
  | cons e es ih =>
    rw [List.cons_append, run, run]
    cases f s e with
    | none => rfl
    | some s' => exact ih s'

theorem reachable_of_run {s₀ : σ} {f : σ → ε → Option σ} {s s' : σ} (es : List ε)
    (hs : (ofStep s₀ f).Reachable s) (h : run f s es = some s') :
    (ofStep s₀ f).Reachable s' := by
  induction es generalizing s with
  | nil =>
    cases h
    exact hs
  | cons e es ih =>
    rw [run, Option.bind_eq_some_iff] at h
    obtain ⟨s₁, he, hrest⟩ := h
    exact ih (.step hs he) hrest

/-- A run whose steps are checked to meet the condition. -/
theorem reachable_restrict_of_run {s₀ : σ} {f : σ → ε → Option σ} {ok : σ → ε → Prop}
    [∀ s e, Decidable (ok s e)] {s s' : σ} (es : List ε)
    (hs : ((ofStep s₀ f).restrict ok).Reachable s)
    (h : run (fun s e => if ok s e then f s e else none) s es = some s') :
    ((ofStep s₀ f).restrict ok).Reachable s' := by
  induction es generalizing s with
  | nil =>
    cases h
    exact hs
  | cons e es ih =>
    rw [run, Option.bind_eq_some_iff] at h
    obtain ⟨s₁, he, hrest⟩ := h
    rw [Option.ite_none_right_eq_some] at he
    exact ih (.step hs he) hrest

/-- A run whose last state is checked. -/
theorem exists_reachable_of_run {s₀ : σ} {f : σ → ε → Option σ} {P : σ → Prop} [DecidablePred P]
    (es : List ε) (h : (run f s₀ es).any fun s => decide (P s)) :
    ∃ s, (ofStep s₀ f).Reachable s ∧ P s := by
  rw [Option.any_eq_true] at h
  obtain ⟨s, hrun, hP⟩ := h
  exact ⟨s, reachable_of_run es (.init rfl) hrun, of_decide_eq_true hP⟩

/-- A run whose steps and whose last state are checked. -/
theorem exists_reachable_restrict_of_run {s₀ : σ} {f : σ → ε → Option σ} {ok : σ → ε → Prop}
    [∀ s e, Decidable (ok s e)] {P : σ → Prop} [DecidablePred P] (es : List ε)
    (h : (run (fun s e => if ok s e then f s e else none) s₀ es).any fun s => decide (P s)) :
    ∃ s, ((ofStep s₀ f).restrict ok).Reachable s ∧ P s := by
  rw [Option.any_eq_true] at h
  obtain ⟨s, hrun, hP⟩ := h
  exact ⟨s, reachable_restrict_of_run es (.init rfl) hrun, of_decide_eq_true hP⟩

/-- What every step keeps holds at the end of a run. -/
theorem run_invariant {f : σ → ε → Option σ} {I : σ → Prop}
    (hstep : ∀ s e s', I s → f s e = some s' → I s') {s s' : σ} {es : List ε} (hs : I s)
    (h : run f s es = some s') : I s' := by
  induction es generalizing s with
  | nil =>
    cases h
    exact hs
  | cons e es ih =>
    rw [run, Option.bind_eq_some_iff] at h
    obtain ⟨s₁, he, hrest⟩ := h
    exact ih (hstep s e s₁ hs he) hrest

/-- Each label that meets `p` takes one from a rank, and each label that meets `q`
adds at most `k` to it. -/
theorem countP_le_of_rank {f : σ → ε → Option σ} {I : σ → Prop} {p q : ε → Bool} {k : Nat}
    {rank : σ → Nat} (hkeep : ∀ s e s', I s → f s e = some s' → I s')
    (hrank : ∀ s e s', I s → f s e = some s' →
      rank s' + (if p e then 1 else 0) ≤ rank s + if q e then k else 0)
    {s s' : σ} {es : List ε} (hs : I s) (h : run f s es = some s') :
    rank s' + es.countP p ≤ rank s + k * es.countP q := by
  induction es generalizing s with
  | nil =>
    cases h
    exact Nat.le_refl _
  | cons e es ih =>
    rw [run, Option.bind_eq_some_iff] at h
    obtain ⟨s₁, he, hrest⟩ := h
    have hfirst := hrank s e s₁ hs he
    have hlater := ih (hkeep s e s₁ hs he) hrest
    have hgain : k * (if q e then 1 else 0) = if q e then k else 0 := by
      split
      · exact Nat.mul_one k
      · exact Nat.mul_zero k
    rw [List.countP_cons, List.countP_cons, Nat.mul_add, hgain]
    omega

/-- A step function with a history beside the state, to which every step adds
something. -/
def observe {η : Type*} (f : σ → ε → Option σ) (note : σ → ε → σ → η → η) (p : σ × η) (e : ε) :
    Option (σ × η) :=
  (f p.1 e).map fun s => (s, note p.1 e s p.2)

theorem observe_eq_some {η : Type*} {f : σ → ε → Option σ} {note : σ → ε → σ → η → η}
    {p q : σ × η} {e : ε} (h : observe f note p e = some q) :
    f p.1 e = some q.1 ∧ q.2 = note p.1 e q.1 p.2 := by
  rw [observe, Option.map_eq_some_iff] at h
  obtain ⟨s, hstep, rfl⟩ := h
  exact ⟨hstep, rfl⟩

/-- A system with a history beside the state, to which every label adds something. -/
def withHistory {η : Type*} (M : System σ ε) (h₀ : η) (note : ε → η → η) : System (σ × η) ε where
  init := fun p => M.init p.1 ∧ p.2 = h₀
  step := fun p e q => M.step p.1 e q.1 ∧ q.2 = note e p.2

section History

variable {η : Type*} {M : System σ ε} {h₀ : η} {note : ε → η → η}

theorem Reachable.fst {p : σ × η} (h : (M.withHistory h₀ note).Reachable p) :
    M.Reachable p.1 := by
  induction h with
  | init hp => exact .init hp.1
  | step _ he ih => exact .step ih he.1

/-- Every reachable state has a history. -/
theorem Reachable.exists_history {s : σ} (h : M.Reachable s) :
    ∃ η₁, (M.withHistory h₀ note).Reachable (s, η₁) := by
  induction h with
  | init hs => exact ⟨h₀, .init ⟨hs, rfl⟩⟩
  | @step s s' e _ he ih =>
    obtain ⟨η₁, hη⟩ := ih
    exact ⟨note e η₁, .step hη ⟨he, rfl⟩⟩

end History

end System

end Mwr.CodeLib.Transition
