import Mwr.Subprocess.Model

/-!
# The pipes of a child process

The parent should have those pipe ends open that the object has in its fields.
`run` leaves the write end of the third pipe open in the parent, and all six ends
where `fork` fails, and `terminate` forgets its ends without closing them.

* `Accounted` says that the open ends are those in the fields.
* `Books` is the invariant: it tells a run in which `run` has been called from one
  in which it has not.
* `accounted_iff` is the result about runs.
-/

namespace Mwr.Subprocess

open Mwr.CodeLib.Transition

namespace State

/-- The pipe ends in the fields of the object. -/
def held (s : State) : List Nat :=
  s.stdin.toList ++ s.stdout.toList ++ s.stderr.toList

/-- The parent has open what the object holds. -/
def Accounted (s : State) : Prop := s.descriptors.Perm s.held

instance (s : State) : Decidable s.Accounted :=
  inferInstanceAs (Decidable (s.descriptors.Perm s.held))

/-- The parent has an end open that is in no field. -/
def Strays (s : State) : Prop := ∃ fd ∈ s.descriptors, fd ∉ s.held

/-- Nothing is open before the first call of `run`, and from then on there is
always an end open that the object has lost. -/
structure Books (ran : Bool) (s : State) : Prop where
  held : s.held ⊆ s.descriptors
  before : ran = false → s.descriptors = []
  after : ran = true → s.Strays

end State

/-- A call of `run`. -/
def Act.isRun : Act → Bool
  | .run .. => true
  | _ => false

open State

variable {ran : Bool} {s s' : State}

theorem State.Strays.not_accounted (h : s.Strays) : ¬ s.Accounted := by
  obtain ⟨fd, hopen, hlost⟩ := h
  intro haccounted
  exact hlost (haccounted.mem_iff.1 hopen)

/-! ## What the steps do -/

/-- A step that opens and closes nothing, and leaves the fields or resets them. -/
theorem State.Books.keep (h : Books ran s) (hdescriptors : s'.descriptors = s.descriptors)
    (hheld : s'.held ⊆ s.held) : Books ran s' where
  held := fun fd hfd => hdescriptors ▸ h.held (hheld hfd)
  before := fun hran => hdescriptors.trans (h.before hran)
  after := fun hran => by
    obtain ⟨fd, hopen, hlost⟩ := h.after hran
    exact ⟨fd, hdescriptors ▸ hopen, fun hfd => hlost (hheld hfd)⟩

/-- After `run`, the write end of the third pipe is open and in no field. -/
theorem books_run (h : Books ran s) {stdinPipe stdoutPipe stderrPipe : Except String Pipe}
    {fork : Option Nat} (hstep : step s (.run stdinPipe stdoutPipe stderrPipe fork) = some s') :
    Books true s' := by
  obtain ⟨i, o, e, hnodup, hrun⟩ := step_run hstep
  simp only [List.cons_append, List.nil_append, List.nodup_cons, List.mem_cons, not_or]
    at hnodup
  refine ⟨?_, nofun, fun _ => ⟨e.write, ?_, ?_⟩⟩
  · rcases hrun with rfl | ⟨pid, rfl⟩
    · intro fd hfd
      have hopen := h.held hfd
      simp only [List.mem_cons, hopen, or_true]
    · intro fd hfd
      simp only [State.held, Option.toList_some, List.cons_append, List.nil_append,
        List.mem_cons] at hfd
      grind
  · rcases hrun with rfl | ⟨pid, rfl⟩ <;> exact List.mem_cons_of_mem _ List.mem_cons_self
  · rcases hrun with rfl | ⟨pid, rfl⟩
    · intro hfd
      have hopen := h.held hfd
      grind
    · simp only [State.held, Option.toList_some, List.cons_append, List.nil_append,
        List.mem_cons]
      grind

theorem books_terminate (h : Books ran s) (killed interrupted : Bool) :
    Books ran (s.terminate killed interrupted).1 := by
  rcases terminate_cases killed interrupted (s := s) with ⟨-, heq⟩ | ⟨_, -, -, heq⟩ |
    ⟨_, _, _, _, -, -, -, heq⟩
  · rw [heq]
    exact h
  · rw [heq]
    exact h.keep rfl (List.Subset.refl _)
  · rw [heq]
    exact h.keep rfl (List.nil_subset _)

theorem books_step {a : Act} (h : Books ran s) (hstep : step s a = some s') :
    Books (ran || a.isRun) s' := by
  cases a with
  | run stdinPipe stdoutPipe stderrPipe fork =>
    rw [Act.isRun, Bool.or_true]
    exact books_run h hstep
  | isRunning =>
    simp only [step, Option.ite_none_left_eq_some] at hstep
    obtain ⟨-, hstep⟩ := hstep
    cases hstep
    show Books (ran || false) _
    rw [Bool.or_false]
    rcases isRunning_cases (s := s) with heq | ⟨pid, -, -, -, heq⟩
    · rw [heq]
      exact h
    · rw [heq]
      exact h.keep rfl (List.Subset.refl _)
  | terminate killed interrupted =>
    simp only [step, Option.ite_none_left_eq_some] at hstep
    obtain ⟨-, hstep⟩ := hstep
    cases hstep
    show Books (ran || false) _
    rw [Bool.or_false]
    exact books_terminate h killed interrupted
  | destroy killed interrupted =>
    simp only [step, Option.ite_none_left_eq_some] at hstep
    obtain ⟨-, hstep⟩ := hstep
    cases hstep
    show Books (ran || false) _
    rw [Bool.or_false]
    exact (books_terminate h killed interrupted).keep rfl (List.Subset.refl _)
  | exit pid =>
    simp only [step, Option.ite_none_right_eq_some] at hstep
    obtain ⟨-, hstep⟩ := hstep
    cases hstep
    show Books (ran || false) _
    rw [Bool.or_false]
    exact h.keep rfl (List.Subset.refl _)

/-! ## Whole runs -/

theorem books_of_run {es : List Act} (h : Books ran s) (hrun : System.run step s es = some s') :
    Books (ran || es.any Act.isRun) s' := by
  induction es generalizing ran s with
  | nil =>
    cases hrun
    rw [List.any_nil, Bool.or_false]
    exact h
  | cons a es ih =>
    rw [System.run, Option.bind_eq_some_iff] at hrun
    obtain ⟨s₁, hstep, hrest⟩ := hrun
    have hbooks := ih (books_step h hstep) hrest
    rw [List.any_cons, ← Bool.or_assoc]
    exact hbooks

/-- The parent has exactly the pipe ends in the fields open as long as `run` has
not been called, and never again afterwards. -/
theorem accounted_iff {es : List Act} {s : State} (h : System.run step initial es = some s) :
    s.Accounted ↔ ∀ a ∈ es, ¬ a.isRun := by
  have hinitial : Books false initial := ⟨List.nil_subset _, fun _ => rfl, nofun⟩
  have hbooks := books_of_run hinitial h
  rw [Bool.false_or] at hbooks
  constructor
  · intro haccounted a ha hrun
    have hany : es.any Act.isRun = true := List.any_eq_true.2 ⟨a, ha, hrun⟩
    exact (hbooks.after hany).not_accounted haccounted
  · intro hnone
    have hany : es.any Act.isRun = false := List.any_eq_false.2 hnone
    have hempty := hbooks.before hany
    have hheld : s.held = [] := List.subset_nil.1 (hempty ▸ hbooks.held)
    rw [Accounted, hempty, hheld]

/-- After the child has been terminated, the parent has four of its pipe ends open. -/
theorem accounted_iff_terminated :
    ∃ s, System.run step initial [started 100, .terminate true false] = some s ∧
      s.descriptors = [7, 8, 5, 4] ∧
      (s.Accounted ↔ ∀ a ∈ [started 100, .terminate true false], ¬ a.isRun) :=
  ⟨_, rfl, rfl, accounted_iff rfl⟩

/-- As soon as the child has been started, the parent has one end too many. -/
theorem write_end_kept :
    ∃ s, system.Reachable s ∧ s.descriptors = [7, 8, 5, 4] ∧ s.held = [4, 5, 7] ∧
      ¬ s.Accounted :=
  System.exists_reachable_of_run [started 100] (by decide +kernel)

end Mwr.Subprocess
