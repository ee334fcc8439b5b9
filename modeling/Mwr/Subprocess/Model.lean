import Mwr.CodeLib.Exec
import Mwr.CodeLib.Transition
import Mwr.Core.Report

/-!
# Child processes

A translation of the class `subprocess` of `include/mwr/utils/subprocess.h` and
`src/mwr/utils/subprocess_posix.cpp` into a step function: `run`, `is_running`,
`terminate` and the destructor, in the process of the parent.

* `State` holds the fields of the object, and of the operating system the pipe
  ends that the parent has open and the children that nobody has waited for.
* A label has what the operating system answers.  A pipe end that is open is not
  handed out again, and neither is the number of a child that runs or has not
  been waited for.
* A child may exit between any two calls.
-/

namespace Mwr.Subprocess

open Mwr.CodeLib.Transition

/-! ## The data -/

/-- The two descriptors that `::pipe` returns. -/
structure Pipe where
  read : Nat
  write : Nat
  deriving DecidableEq, Repr

/-- What happens to the number of a process. -/
inductive Event where
  /-- `fork` returns it. -/
  | forked (pid : Nat)
  /-- `kill` is called with it. -/
  | killed (pid : Nat)
  /-- `waitpid` returns it. -/
  | reaped (pid : Nat)
  /-- `is_running` has seen that the child has exited. -/
  | exitSeen
  deriving DecidableEq, Repr

/-- The fields of the object, where a number below zero is `none`.  Around them:
whether the object has been destroyed, the pipe ends that the parent has open,
the children that run, those that have exited and that nobody has waited for, and
what has happened, the newest event first. -/
structure State where
  pid : Option Nat
  stdin : Option Nat
  stdout : Option Nat
  stderr : Option Nat
  destroyed : Bool
  descriptors : List Nat
  running : List Nat
  exited : List Nat
  log : List Event
  deriving DecidableEq, Repr

/-- The constructor. -/
def initial : State where
  pid := none
  stdin := none
  stdout := none
  stderr := none
  destroyed := false
  descriptors := []
  running := []
  exited := []
  log := []

/-! ## The methods -/

/-- `pipe(fds)`, whose failure aborts the process. -/
def createPipe (pipe : Except String Pipe) : Except Fault Pipe :=
  match pipe with
  | .error reason => .error (.error ("error creating pipe: " ++ reason))
  | .ok pipe => .ok pipe

namespace State

/-- The parent has both ends of a new pipe. -/
def openPipe (s : State) (pipe : Pipe) : State :=
  { s with descriptors := pipe.read :: pipe.write :: s.descriptors }

/-- `close(fd)`. -/
def close (s : State) (fd : Nat) : State :=
  { s with descriptors := s.descriptors.erase fd }

/-- `run(path, args)`, in the parent. -/
def run (s : State) (stdinPipe stdoutPipe stderrPipe : Except String Pipe) (fork : Option Nat) :
    Except Fault (State × Bool) := do
  let stdinPipe ← createPipe stdinPipe
  let stdoutPipe ← createPipe stdoutPipe
  let stderrPipe ← createPipe stderrPipe
  let s := ((s.openPipe stdinPipe).openPipe stdoutPipe).openPipe stderrPipe
  match fork with
  | none => return (s, false)
  | some pid =>
    let s := (s.close stdoutPipe.write).close stdinPipe.read
    return ({ s with
      pid := some pid
      stdin := some stdinPipe.write
      stdout := some stdoutPipe.read
      stderr := some stderrPipe.read
      running := pid :: s.running
      log := .forked pid :: s.log }, true)

/-- The operating system forgets a child that has been waited for. -/
def reap (s : State) (pid : Nat) : State :=
  { s with
    running := s.running.erase pid
    exited := s.exited.erase pid
    log := .reaped pid :: s.log }

/-- `is_running()`. -/
def isRunning (s : State) : State × Bool :=
  match s.pid with
  | none => (s, false)
  | some pid =>
    if pid ∈ s.running then (s, true)
    else if pid ∈ s.exited then
      let s := s.reap pid
      ({ s with log := .exitSeen :: s.log }, false)
    -- `waitpid` fails: there is no such child
    else (s, false)

/-- `terminate()`.  `waitpid` returns when the child has exited, or when a signal to
the parent interrupts it. -/
def terminate (s : State) (killed interrupted : Bool) : State × Bool :=
  match s.pid with
  | none => (s, false)
  | some pid =>
    let s := { s with log := .killed pid :: s.log }
    if killed then
      let s := if (pid ∈ s.running ∨ pid ∈ s.exited) ∧ ¬ interrupted then s.reap pid else s
      ({ s with stdin := none, stdout := none, stderr := none, pid := none }, true)
    else (s, false)

end State

/-! ## The steps -/

/-- What happens next. -/
inductive Act where
  | run (stdinPipe stdoutPipe stderrPipe : Except String Pipe) (fork : Option Nat)
  | isRunning
  | terminate (killed interrupted : Bool)
  /-- `~subprocess()`. -/
  | destroy (killed interrupted : Bool)
  /-- A child exits. -/
  | exit (pid : Nat)

/-- The descriptors of the pipes that are created. -/
def ends : Except String Pipe → List Nat
  | .error _ => []
  | .ok pipe => [pipe.read, pipe.write]

/-- The operating system hands out no descriptor that is open, and no number of a
child that has not been waited for. -/
def fresh (s : State) (stdinPipe stdoutPipe stderrPipe : Except String Pipe)
    (fork : Option Nat) : Bool :=
  decide (ends stdinPipe ++ ends stdoutPipe ++ ends stderrPipe ++ s.descriptors).Nodup &&
    fork.all fun pid => !(s.running ++ s.exited).contains pid

/-- One step, if it is possible.  There is none after the process has aborted. -/
def step (s : State) : Act → Option State
  | .run stdinPipe stdoutPipe stderrPipe fork =>
    if s.destroyed = false ∧ fresh s stdinPipe stdoutPipe stderrPipe fork then
      match s.run stdinPipe stdoutPipe stderrPipe fork with
      | .error _ => none
      | .ok (s, _) => some s
    else none
  | .isRunning => if s.destroyed then none else some s.isRunning.1
  | .terminate killed interrupted =>
    if s.destroyed then none else some (s.terminate killed interrupted).1
  | .destroy killed interrupted =>
    if s.destroyed then none
    else some { (s.terminate killed interrupted).1 with destroyed := true }
  | .exit pid =>
    if pid ∈ s.running then
      some { s with running := s.running.erase pid, exited := pid :: s.exited }
    else none

/-- The class as a transition system. -/
def system : System State Act :=
  .ofStep initial step

/-! ## Runs -/

/-- A child is started, with the pipes 3 and 4, 5 and 6, and 7 and 8. -/
def started (pid : Nat) : Act :=
  .run (.ok ⟨3, 4⟩) (.ok ⟨5, 6⟩) (.ok ⟨7, 8⟩) (some pid)

/-! ## What a step does -/

variable {s s' : State}

/-- `run` returns when all three pipes have been created.  If `fork` fails, they
stay as they are.  Otherwise two of the six ends are closed. -/
theorem step_run {stdinPipe stdoutPipe stderrPipe : Except String Pipe} {fork : Option Nat}
    (h : step s (.run stdinPipe stdoutPipe stderrPipe fork) = some s') :
    ∃ i o e : Pipe,
      ([i.read, i.write, o.read, o.write, e.read, e.write] ++ s.descriptors).Nodup ∧
      (s' = { s with descriptors :=
          e.read :: e.write :: o.read :: o.write :: i.read :: i.write :: s.descriptors } ∨
        ∃ pid, s' = { s with
          pid := some pid
          stdin := some i.write
          stdout := some o.read
          stderr := some e.read
          descriptors := e.read :: e.write :: o.read :: i.write :: s.descriptors
          running := pid :: s.running
          log := .forked pid :: s.log }) := by
  simp only [step, Option.ite_none_right_eq_some, fresh, Bool.and_eq_true,
    decide_eq_true_eq] at h
  obtain ⟨⟨-, hnodup, -⟩, h⟩ := h
  split at h
  next => cases h
  next s₁ started hrun =>
    cases h
    cases stdinPipe with
    | error reason => cases hrun
    | ok i =>
      cases stdoutPipe with
      | error reason => cases hrun
      | ok o =>
        cases stderrPipe with
        | error reason => cases hrun
        | ok e =>
          refine ⟨i, o, e, hnodup, ?_⟩
          cases fork with
          | none =>
            cases hrun
            exact .inl rfl
          | some pid =>
            have hclosed : (([e.read, e.write, o.read, o.write, i.read, i.write] ++
                s.descriptors).erase o.write).erase i.read =
                  e.read :: e.write :: o.read :: i.write :: s.descriptors := by
              simp only [ends, List.cons_append, List.nil_append, List.nodup_cons,
                List.mem_cons, not_or] at hnodup
              simp [hnodup, Ne.symm]
            cases hrun
            refine .inr ⟨pid, ?_⟩
            rw [← hclosed]
            rfl

/-- `is_running` changes no field, and reaps the child if it has exited. -/
theorem isRunning_cases :
    s.isRunning.1 = s ∨ ∃ pid, s.pid = some pid ∧ pid ∉ s.running ∧ pid ∈ s.exited ∧
      s.isRunning.1 = { s.reap pid with log := .exitSeen :: .reaped pid :: s.log } := by
  unfold State.isRunning
  split
  next => exact .inl rfl
  next pid hpid =>
    split
    next => exact .inl rfl
    next hrunning =>
      split
      next hexited => exact .inr ⟨pid, hpid, hrunning, hexited, rfl⟩
      next => exact .inl rfl

/-- `terminate` does nothing, or fails to send the signal, or resets the fields. -/
theorem terminate_cases (killed interrupted : Bool) :
    (s.pid = none ∧ (s.terminate killed interrupted).1 = s) ∨
    (∃ pid, s.pid = some pid ∧ killed = false ∧
      (s.terminate killed interrupted).1 = { s with log := .killed pid :: s.log }) ∨
    ∃ pid running exited log, s.pid = some pid ∧ killed = true ∧
      (log = [.killed pid] ∨ log = [.reaped pid, .killed pid]) ∧
      (s.terminate killed interrupted).1 =
        { s with
          pid := none, stdin := none, stdout := none, stderr := none
          running := running, exited := exited, log := log ++ s.log } := by
  unfold State.terminate
  split
  next hpid => exact .inl ⟨hpid, rfl⟩
  next pid hpid =>
    cases killed with
    | false => exact .inr (.inl ⟨pid, hpid, rfl, rfl⟩)
    | true =>
      refine .inr (.inr ?_)
      by_cases hreap : (pid ∈ s.running ∨ pid ∈ s.exited) ∧ ¬ interrupted = true
      · refine ⟨pid, s.running.erase pid, s.exited.erase pid, _, hpid, rfl, .inr rfl, ?_⟩
        simp only [if_true, if_pos hreap]
        rfl
      · refine ⟨pid, s.running, s.exited, _, hpid, rfl, .inl rfl, ?_⟩
        simp only [if_true, if_neg hreap]
        rfl

end Mwr.Subprocess
