import Mathlib.Control.Monad.Basic
import Mathlib.Data.List.Forall2

/-!
# Stateful computations that may fail

The embedding of imperative code in this project is `StateT σ (Except ε)`: a
step reads and writes a state `σ`, or it ends the call with a failure `ε`.
This module holds the rules that take such a computation apart.

* `run_bind_of_ok` and `run_bind_of_error` run a sequence forwards, from the
  known result of its first part.
* `run_bind_eq_ok` takes a successful sequence apart backwards, into its two
  successful parts.
* `bind_eq_ok` does the same without a state, and `fst_eq_ok` forgets the last state of a run.
* `bind_eq_map` compares two sequences, part by part.
* `mapM_ok` is a loop whose rounds all succeed, and `mapM_forall₂` one whose results are related
  to what it goes over.
* `Fails` bounds the failures of a computation from any state by those of its
  parts.
* `Satisfies` is partial correctness, with a rule for each kind of step.
-/

namespace Mwr.CodeLib.Exec

variable {ε σ α β : Type}

/-- A sequence whose first part succeeds continues with the second part. -/
theorem run_bind_of_ok {x : StateT σ (Except ε) α} {f : α → StateT σ (Except ε) β}
    {s s' : σ} {a : α} (h : x.run s = .ok (a, s')) : (x >>= f).run s = (f a).run s' := by
  rw [StateT.run_bind, h]
  rfl

/-- A sequence whose first part fails fails in the same way. -/
theorem run_bind_of_error {x : StateT σ (Except ε) α} {f : α → StateT σ (Except ε) β}
    {s : σ} {e : ε} (h : x.run s = .error e) : (x >>= f).run s = .error e := by
  rw [StateT.run_bind, h]
  rfl

/-- A sequence succeeds exactly when both parts do. -/
theorem run_bind_eq_ok {x : StateT σ (Except ε) α} {f : α → StateT σ (Except ε) β}
    {s t : σ} {b : β} :
    (x >>= f).run s = .ok (b, t) ↔
      ∃ a s', x.run s = .ok (a, s') ∧ (f a).run s' = .ok (b, t) := by
  cases h : x.run s with
  | error e => simp [run_bind_of_error h]
  | ok p =>
    obtain ⟨a, s'⟩ := p
    rw [run_bind_of_ok h]
    constructor
    · intro hf
      exact ⟨a, s', rfl, hf⟩
    · rintro ⟨a', s'', heq, hf⟩
      cases heq
      exact hf

@[simp] theorem run_pure_eq (a : α) (s : σ) :
    (pure a : StateT σ (Except ε) α).run s = .ok (a, s) := rfl

@[simp] theorem run_get_eq (s : σ) :
    (get : StateT σ (Except ε) σ).run s = .ok (s, s) := rfl

@[simp] theorem run_set_eq (s s' : σ) :
    (set s' : StateT σ (Except ε) PUnit).run s = .ok (⟨⟩, s') := rfl

@[simp] theorem pure_eq_ok (a : α) : (pure a : Except ε α) = .ok a := rfl

@[simp] theorem throw_eq_error (e : ε) : (throw e : Except ε α) = .error e := rfl

@[simp] theorem ok_bind (a : α) (f : α → Except ε β) : (Except.ok a >>= f) = f a := rfl

@[simp] theorem error_bind (e : ε) (f : α → Except ε β) :
    ((Except.error e : Except ε α) >>= f) = .error e := rfl

theorem bind_eq_ok {x : Except ε α} {f : α → Except ε β} {b : β} :
    (x >>= f) = .ok b ↔ ∃ a, x = .ok a ∧ f a = .ok b := by
  cases x with
  | error e =>
    refine iff_of_false (fun h => ?_) fun ⟨a, ha, _⟩ => ?_
    · cases h
    · cases ha
  | ok a =>
    refine ⟨fun h => ⟨a, rfl, h⟩, fun ⟨a', ha, h⟩ => ?_⟩
    cases ha
    exact h

/-- A run of which only the value is kept. -/
theorem fst_eq_ok {x : Except ε (α × σ)} {a : α} (h : (x >>= fun r => .ok r.1) = .ok a) :
    ∃ s, x = .ok (a, s) := by
  cases x with
  | error e => cases h
  | ok r =>
    cases h
    exact ⟨r.2, rfl⟩

/-- Two sequences whose parts correspond. -/
theorem bind_eq_map {α' β' : Type} {x : Except ε α} {x' : Except ε α'} {f : α → α'}
    {g : α → Except ε β} {g' : α' → Except ε β'} {k : β → β'} (hx : x' = x.map f)
    (hg : ∀ a, g' (f a) = (g a).map k) : x' >>= g' = (x >>= g).map k := by
  rw [hx]
  cases x with
  | error e => rfl
  | ok a => exact hg a

/-- A loop whose rounds all succeed collects their results. -/
theorem mapM_ok {f : α → Except ε β} {g : α → β} {l : List α} (h : ∀ a ∈ l, f a = .ok (g a)) :
    l.mapM f = .ok (l.map g) := by
  induction l with
  | nil => rfl
  | cons a l ih =>
    have hhead := h a List.mem_cons_self
    have htail := ih fun b hb => h b (List.mem_cons_of_mem a hb)
    rw [List.mapM_cons, hhead, ok_bind, htail, ok_bind]
    rfl

/-- A loop whose rounds all succeed with a result that is related to the argument. -/
theorem mapM_forall₂ {f : α → Except ε β} {R : α → β → Prop} {l : List α}
    (h : ∀ a ∈ l, ∃ b, f a = .ok b ∧ R a b) : ∃ bs, l.mapM f = .ok bs ∧ List.Forall₂ R l bs := by
  induction l with
  | nil => exact ⟨[], rfl, .nil⟩
  | cons a l ih =>
    obtain ⟨b, hb, hR⟩ := h a List.mem_cons_self
    obtain ⟨bs, hbs, hRs⟩ := ih fun a' ha' => h a' (List.mem_cons_of_mem a ha')
    refine ⟨b :: bs, ?_, .cons hR hRs⟩
    rw [List.mapM_cons, hb, ok_bind, hbs, ok_bind]
    rfl

/-! ## The failures of a computation -/

/-- Every failure of the computation, from any state, has the property `P`. -/
def Fails (P : ε → Prop) (x : StateT σ (Except ε) α) : Prop :=
  ∀ s e, x.run s = .error e → P e

section Fails

variable {P : ε → Prop} {x : StateT σ (Except ε) α} {f : α → StateT σ (Except ε) β}

theorem fails_pure (a : α) : Fails P (pure a : StateT σ (Except ε) α) := nofun

theorem fails_throw {e : ε} (h : P e) : Fails P (throw e : StateT σ (Except ε) α) := by
  intro s e' he
  cases he
  exact h

theorem Fails.bind (hx : Fails P x) (hf : ∀ a, Fails P (f a)) : Fails P (x >>= f) := by
  intro s e he
  cases h : x.run s with
  | error e' =>
    rw [run_bind_of_error h] at he
    cases he
    exact hx s e h
  | ok r =>
    obtain ⟨a, s'⟩ := r
    rw [run_bind_of_ok h] at he
    exact hf a s' e he

theorem fails_ite {c : Prop} [Decidable c] {y : StateT σ (Except ε) α} (hx : Fails P x)
    (hy : Fails P y) : Fails P (if c then x else y) := by
  split
  · exact hx
  · exact hy

end Fails

/-! ## Partial correctness -/

/-- Every successful run from a state with `P` ends with `Q`. -/
def Satisfies (P : σ → Prop) (x : StateT σ (Except ε) α) (Q : α → σ → Prop) : Prop :=
  ∀ s a s', P s → x.run s = .ok (a, s') → Q a s'

section Satisfies

variable {P : σ → Prop} {Q : α → σ → Prop} {R : β → σ → Prop}
variable {x : StateT σ (Except ε) α} {f : α → StateT σ (Except ε) β}

theorem satisfies_pure {a : α} (h : ∀ s, P s → Q a s) :
    Satisfies P (pure a : StateT σ (Except ε) α) Q := by
  intro s b s' hs hrun
  cases hrun
  exact h s hs

theorem satisfies_throw (e : ε) : Satisfies P (throw e : StateT σ (Except ε) α) Q := nofun

theorem satisfies_get {Q : σ → σ → Prop} (h : ∀ s, P s → Q s s) :
    Satisfies P (get : StateT σ (Except ε) σ) Q := by
  intro s b s' hs hrun
  cases hrun
  exact h s hs

theorem satisfies_set {Q : PUnit → σ → Prop} {t : σ} (h : ∀ s, P s → Q ⟨⟩ t) :
    Satisfies P (set t : StateT σ (Except ε) PUnit) Q := by
  intro s b s' hs hrun
  cases hrun
  exact h s hs

theorem Satisfies.bind (hx : Satisfies P x Q) (hf : ∀ a, Satisfies (Q a) (f a) R) :
    Satisfies P (x >>= f) R := by
  intro s b t hs hrun
  obtain ⟨a, s', ha, hb⟩ := run_bind_eq_ok.1 hrun
  exact hf a s' b t (hx s a s' hs ha) hb

end Satisfies

end Mwr.CodeLib.Exec
