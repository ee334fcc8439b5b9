import Mwr.Subprocess.Model

/-!
# Signals to a child process

`terminate` sends a signal to the number in `m_pid`.  After `waitpid` has returned
this number, the operating system may give it to a process that has nothing to do
with the object.  `terminate` resets `m_pid` when it has waited for the child, and
`is_running`, which waits for a child that has exited, does not.

* `SafeSignals` says that no signal goes to a number that has been reaped, and
  that `terminate` resets the object after the exit has been seen.
* `Unseen` is the condition that no call of `is_running` finds the child exited.
* `safe_of_unseen` is the result about runs, and `killed_of_exited` says what
  follows a call that does not meet the condition.
-/

namespace Mwr.Subprocess

open Mwr.CodeLib.Transition

/-- Of the things that happened to a number, `waitpid` returning it is the last but
for signals. -/
def hasReaped (pid : Nat) : List Event → Bool
  | [] => false
  | .forked q :: log => q ≠ pid && hasReaped pid log
  | .reaped q :: log => q = pid || hasReaped pid log
  | .killed _ :: log | .exitSeen :: log => hasReaped pid log

/-- `is_running` has seen the exit of the newest child. -/
def hasSeenExit : List Event → Bool
  | [] | .forked _ :: _ => false
  | .exitSeen :: _ => true
  | .killed _ :: log | .reaped _ :: log => hasSeenExit log

/-- Every signal went to a number that had not been reaped. -/
def NoneReaped (log : List Event) : Prop :=
  ∀ newer pid older, log = newer ++ .killed pid :: older → hasReaped pid older = false

namespace State

/-- No signal has gone to a number that had been reaped, and after the exit of the
child has been seen, `terminate` leaves the object as it was before `run`. -/
structure SafeSignals (s : State) : Prop where
  killed : NoneReaped s.log
  terminated : hasSeenExit s.log → ∀ killed interrupted s',
    step s (.terminate killed interrupted) = some s' → s'.pid = none

/-- `is_running` is not called when the child has exited and nobody has waited for
it. -/
def Unseen (s : State) : Act → Prop
  | .isRunning => ∀ pid ∈ s.pid, pid ∈ s.exited → pid ∈ s.running
  | _ => True

instance (s : State) (a : Act) : Decidable (s.Unseen a) :=
  match a with
  | .isRunning =>
    decidable_of_iff (s.pid.all fun pid => decide (pid ∈ s.exited → pid ∈ s.running))
      (by simp [Unseen, Option.all_eq_true, imp_iff_not_or])
  | .run .. | .terminate .. | .destroy .. | .exit _ => inferInstanceAs (Decidable True)

/-- The invariant: the child in `m_pid` has not been reaped. -/
structure Unreaped (s : State) : Prop where
  pid : ∀ pid ∈ s.pid, hasReaped pid s.log = false
  killed : NoneReaped s.log
  unseen : hasSeenExit s.log = false

end State

open State

variable {s s' : State}

/-! ## What the steps do -/

theorem NoneReaped.cons {log : List Event} {event : Event} (h : NoneReaped log)
    (hevent : ∀ pid, event = .killed pid → hasReaped pid log = false) :
    NoneReaped (event :: log) := by
  intro newer pid older heq
  rw [List.cons_eq_append_iff] at heq
  rcases heq with ⟨-, hhead⟩ | ⟨newer', -, htail⟩
  · cases hhead
    exact hevent pid rfl
  · exact h newer' pid older htail

theorem unreaped_killed (h : s.Unreaped) {pid : Nat} (hpid : s.pid = some pid) :
    Unreaped { s with log := .killed pid :: s.log } where
  pid := h.pid
  killed := by
    refine h.killed.cons ?_
    intro q heq
    cases heq
    exact h.pid pid hpid
  unseen := h.unseen

theorem unreaped_terminate (h : s.Unreaped) (killed interrupted : Bool) :
    (s.terminate killed interrupted).1.Unreaped := by
  rcases terminate_cases killed interrupted (s := s) with ⟨-, heq⟩ | ⟨pid, hpid, -, heq⟩ |
    ⟨pid, running, exited, log, hpid, -, hlog, heq⟩
  · rw [heq]
    exact h
  · rw [heq]
    exact unreaped_killed h hpid
  · have hkilled := (unreaped_killed h hpid).killed
    rw [heq]
    rcases hlog with rfl | rfl
    · exact ⟨nofun, hkilled, h.unseen⟩
    · exact ⟨nofun, hkilled.cons nofun, h.unseen⟩

theorem unreaped_step {a : Act} (h : s.Unreaped) (hok : s.Unseen a)
    (hstep : step s a = some s') : s'.Unreaped := by
  cases a with
  | run stdinPipe stdoutPipe stderrPipe fork =>
    obtain ⟨i, o, e, -, rfl | ⟨pid, rfl⟩⟩ := step_run hstep
    · exact ⟨h.pid, h.killed, h.unseen⟩
    · refine ⟨?_, h.killed.cons nofun, rfl⟩
      intro q hq
      cases hq
      show (decide (pid ≠ pid) && hasReaped pid s.log) = false
      rw [decide_eq_false (not_not.2 rfl), Bool.false_and]
  | isRunning =>
    simp only [step, Option.ite_none_left_eq_some] at hstep
    obtain ⟨-, hstep⟩ := hstep
    cases hstep
    rcases isRunning_cases (s := s) with heq | ⟨pid, hpid, hrunning, hexited, -⟩
    · rw [heq]
      exact h
    · exact absurd (hok pid hpid hexited) hrunning
  | terminate killed interrupted =>
    simp only [step, Option.ite_none_left_eq_some] at hstep
    obtain ⟨-, hstep⟩ := hstep
    cases hstep
    exact unreaped_terminate h killed interrupted
  | destroy killed interrupted =>
    simp only [step, Option.ite_none_left_eq_some] at hstep
    obtain ⟨-, hstep⟩ := hstep
    cases hstep
    have hterminate := unreaped_terminate h killed interrupted
    exact ⟨hterminate.pid, hterminate.killed, hterminate.unseen⟩
  | exit pid =>
    simp only [step, Option.ite_none_right_eq_some] at hstep
    obtain ⟨-, hstep⟩ := hstep
    cases hstep
    exact ⟨h.pid, h.killed, h.unseen⟩

/-! ## Whole runs -/

/-- In a run in which no call of `is_running` finds the child exited, no signal
goes to a number that has been reaped. -/
theorem safe_of_unseen {s : State} (h : (system.restrict Unseen).Reachable s) :
    s.SafeSignals := by
  have hinv : s.Unreaped := by
    refine h.invariant (I := Unreaped) ?_ ?_
    · rintro _ rfl
      exact ⟨nofun, fun newer pid older heq => absurd heq (by simp [initial]), rfl⟩
    · intro s a s' _ hs hstep
      exact unreaped_step hs hstep.1 hstep.2
  exact ⟨hinv.killed, fun hseen => absurd hseen (by rw [hinv.unseen]; exact Bool.false_ne_true)⟩

/-- A child is terminated, and then another one that has exited by itself and has
the same number. -/
theorem safe_of_unseen_twice :
    ∃ s, (system.restrict Unseen).Reachable s ∧
      s.log = [.reaped 100, .killed 100, .forked 100, .reaped 100, .killed 100, .forked 100] ∧
      s.SafeSignals := by
  obtain ⟨s, h, hlog⟩ : ∃ s, (system.restrict Unseen).Reachable s ∧
      s.log = [.reaped 100, .killed 100, .forked 100, .reaped 100, .killed 100,
        .forked 100] :=
    System.exists_reachable_restrict_of_run
      [started 100, .isRunning, .terminate true false, .isRunning,
        .run (.ok ⟨9, 10⟩) (.ok ⟨11, 12⟩) (.ok ⟨13, 14⟩) (some 100), .exit 100,
        .terminate true false] (by decide +kernel)
  exact ⟨s, h, hlog, safe_of_unseen h⟩

/-- The child exits, `is_running` reaps it, and `terminate` sends a signal to a
process that does not exist any more. -/
theorem reaped_child_killed :
    ∃ s, system.Reachable s ∧ s.pid = some 100 ∧
      s.log = [.killed 100, .exitSeen, .reaped 100, .forked 100] ∧ ¬ s.SafeSignals := by
  obtain ⟨s, h, hpid, hlog⟩ : ∃ s, system.Reachable s ∧ s.pid = some 100 ∧
      s.log = [.killed 100, .exitSeen, .reaped 100, .forked 100] :=
    System.exists_reachable_of_run
      [started 100, .exit 100, .isRunning, .terminate false false] (by decide +kernel)
  refine ⟨s, h, hpid, hlog, fun hsafe => ?_⟩
  have hfalse := hsafe.killed [] 100 _ hlog
  cases hfalse

/-! ## What follows the other calls -/

theorem not_noneReaped_terminate {pid : Nat} (hpid : s.pid = some pid)
    (hreaped : hasReaped pid s.log = true) (killed interrupted : Bool) :
    ¬ NoneReaped (s.terminate killed interrupted).1.log := by
  have hsignal : ∀ newer, ¬ NoneReaped (newer ++ .killed pid :: s.log) := by
    intro newer hnone
    have hfalse := hnone newer pid s.log rfl
    rw [hreaped] at hfalse
    cases hfalse
  rcases terminate_cases killed interrupted (s := s) with ⟨hnopid, -⟩ | ⟨q, hq, -, heq⟩ |
    ⟨q, running, exited, log, hq, -, hlog, heq⟩
  · cases hnopid.symm.trans hpid
  · cases hq.symm.trans hpid
    rw [heq]
    exact hsignal []
  · cases hq.symm.trans hpid
    rw [heq]
    rcases hlog with rfl | rfl
    · exact hsignal []
    · exact hsignal [.reaped pid]

/-- A call of `is_running` that finds the child exited reaps it, and the next call
of `terminate` sends a signal to its number all the same.  If the signal cannot be
sent, the object keeps the number. -/
theorem killed_of_exited {pid : Nat} (hdestroyed : s.destroyed = false)
    (hpid : s.pid = some pid) (hrunning : pid ∉ s.running) (hexited : pid ∈ s.exited)
    (killed interrupted : Bool) :
    ∃ s₁ s₂, step s .isRunning = some s₁ ∧ step s₁ (.terminate killed interrupted) = some s₂ ∧
      hasSeenExit s₁.log ∧ ¬ NoneReaped s₂.log ∧ (killed = false → s₂.pid = some pid) := by
  let s₁ : State := { s.reap pid with log := .exitSeen :: .reaped pid :: s.log }
  have hseen : s.isRunning.1 = s₁ := by
    simp only [State.isRunning, hpid, if_neg hrunning, if_pos hexited]
    rfl
  have hreaped : hasReaped pid s₁.log = true := by
    show (decide (pid = pid) || hasReaped pid s.log) = true
    rw [decide_eq_true rfl, Bool.true_or]
  refine ⟨s₁, (s₁.terminate killed interrupted).1, ?_, ?_, rfl, ?_, ?_⟩
  · simp only [step, hdestroyed, Bool.false_eq_true, if_false, hseen]
  · have hdestroyed' : s₁.destroyed = false := hdestroyed
    simp only [step, hdestroyed', Bool.false_eq_true, if_false]
  · exact not_noneReaped_terminate (s := s₁) hpid hreaped killed interrupted
  · rintro rfl
    have hpid' : s₁.pid = some pid := hpid
    simp only [State.terminate, hpid', Bool.false_eq_true, if_false]

end Mwr.Subprocess
