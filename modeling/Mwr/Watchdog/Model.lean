import Mathlib.Algebra.Order.Ring.Int
import Mwr.CodeLib.Transition

/-!
# The watchdog

A translation of `include/mwr/utils/watchdog.h` into a step function.  A state
holds the fields of the object, the position of the worker thread in `work`, and
the clock.  A label is a call of another thread (or of a task that the worker is
running), one step of the worker, or the passing of time.

The mutex is held from `loop`, `armed`, `check` and `drain`, where other threads
have to wait; everywhere else the worker has dropped it or waits for it.  A call
of another thread holds it only inside its own step.

The time is counted in nanoseconds from the epoch of the clock.  `clock_t` counts
in 64 bits, and a sum or a difference that does not fit wraps around.  The heap of
the priority queue picks one of several tasks with the same timeout; here the label
picks it.
-/

namespace Mwr.Watchdog

open Mwr.CodeLib.Transition

/-! ## The clock -/

/-- The value of `clock_t::rep` for a number. -/
def wrap (n : Int) : Int := n.bmod (2 ^ 64)

/-- A number of nanoseconds that `clock_t` can represent. -/
def Representable (n : Int) : Prop := -2 ^ 63 ≤ n ∧ n < 2 ^ 63

instance (n : Int) : Decidable (Representable n) := inferInstanceAs (Decidable (_ ∧ _))

theorem representable_wrap (n : Int) : Representable (wrap n) := by
  rw [Representable, wrap]
  constructor
  · exact Int.le_bmod (by decide)
  · exact Int.bmod_lt (by decide)

theorem wrap_of_representable {n : Int} (h : Representable n) : wrap n = n := by
  rw [Representable] at h
  exact Int.bmod_eq_of_le (by omega) (by omega)

/-- The first argument of the two functions `schedule`. -/
inductive Delay where
  /-- A `clock_t::duration`. -/
  | duration (delta : Int64)
  /-- A `size_t`, which is cast to a duration. -/
  | nanoseconds (timeoutNs : UInt64)
  deriving DecidableEq, Repr

/-- The number of nanoseconds that the caller asks for. -/
def Delay.asked : Delay → Int
  | duration delta => delta.toInt
  | nanoseconds timeoutNs => timeoutNs.toNat

/-- The duration, `std::chrono::nanoseconds(timeout_ns)` for a `size_t`. -/
def Delay.count : Delay → Int
  | duration delta => delta.toInt
  | nanoseconds timeoutNs => wrap timeoutNs.toNat

/-! ## The data -/

/-- `struct task`.  The number identifies the call of `schedule`, `time` is when it
was made, and `delta` the argument it was called with. -/
structure Task where
  id : Nat
  timeout : Int
  time : Int
  delta : Delay
  timeout_eq : timeout = wrap (time + delta.count)
  deriving DecidableEq, Repr

/-- The time that the caller has asked for. -/
def Task.asked (task : Task) : Int := task.time + task.delta.asked

/-- The timeout is the time that the caller has asked for, if `clock_t` can represent
it. -/
theorem Task.timeout_of_representable {task : Task} (h : Representable task.asked) :
    task.timeout = task.asked := by
  have hcount : wrap (task.time + task.delta.count) = wrap task.asked := by
    rw [asked]
    cases task.delta with
    | duration delta => rfl
    | nanoseconds timeoutNs => simp only [Delay.count, Delay.asked, wrap, Int.add_bmod_bmod]
  rw [task.timeout_eq, hcount, wrap_of_representable h]

theorem Task.timeout_lt (task : Task) : task.timeout < 2 ^ 63 := by
  rw [task.timeout_eq]
  exact (representable_wrap _).2

/-- Where the worker is in `work`. -/
inductive Pc where
  /-- Waiting for the mutex for the first time. -/
  | launch
  /-- At the top of `while (true)`. -/
  | loop
  /-- Blocked in `m_cv.wait(lock)`. -/
  | idle
  /-- Woken in `m_cv.wait(lock)`, and waiting for the mutex. -/
  | idleWoken
  /-- Has read `next_timeout`. -/
  | armed (next : Int)
  /-- Spins until `next`. -/
  | spin (next : Int)
  /-- In `m_cv.wait_until`, before it evaluates the predicate. -/
  | check (next : Int)
  /-- Blocked in `m_cv.wait_until` with the deadline `next`. -/
  | blocked (next : Int)
  /-- Woken in `m_cv.wait_until`, and waiting for the mutex. -/
  | woken (next : Int)
  /-- The deadline has passed in `m_cv.wait_until`; waiting for the mutex. -/
  | expired
  /-- At the condition of the inner loop, or with `final` of the last loop. -/
  | drain (final : Bool)
  /-- Has popped a task and dropped the mutex.  `mark` is the number of tasks
  that had been scheduled then. -/
  | taken (final : Bool) (task : Task) (mark : Nat)
  /-- Runs the body of a task. -/
  | running (final : Bool)
  /-- `work` has returned. -/
  | exited
  deriving DecidableEq, Repr

/-- The worker holds the mutex. -/
def Pc.locked : Pc → Bool
  | .loop | .armed _ | .check _ | .drain _ => true
  | _ => false

/-- `m_cv.notify_one()`. -/
def Pc.notify : Pc → Pc
  | .idle => .idleWoken
  | .blocked next => .woken next
  | pc => pc

/-- The start of a task's body: when it was, which tasks were in the queue, and
how many had been scheduled when the task was popped. -/
structure Start where
  task : Task
  time : Int
  queued : List Task
  mark : Nat
  deriving DecidableEq, Repr

/-- The fields `m_tasks` and `m_terminate`, the worker and the clock.  The last
three fields record what has happened: how many tasks have been scheduled, which
bodies have been started, and which tasks a `cancel_all` has removed. -/
structure State where
  now : Int
  tasks : List Task
  terminate : Bool
  pc : Pc
  nextId : Nat
  started : List Start
  cancelled : List Nat
  deriving DecidableEq, Repr

/-- The constructor. -/
def initial (now : Int) : State where
  now := now
  tasks := []
  terminate := false
  pc := .launch
  nextId := 0
  started := []
  cancelled := []

/-- `m_tasks.top().timeout`, if the queue is not empty. -/
def topTimeout (tasks : List Task) : Option Int := (tasks.map Task.timeout).min?

/-- `task` may be the one at the top of the heap. -/
def IsTop (task : Task) (tasks : List Task) : Prop :=
  task ∈ tasks ∧ ∀ other ∈ tasks, task.timeout ≤ other.timeout

instance (task : Task) (tasks : List Task) : Decidable (IsTop task tasks) :=
  inferInstanceAs (Decidable (_ ∧ _))

/-- The predicate of `wait_until`:
`m_terminate || (!m_tasks.empty() && (m_tasks.top().timeout < clock_t::now()))`. -/
def State.waitDone (s : State) : Prop :=
  s.terminate ∨ ∃ m, topTimeout s.tasks = some m ∧ m < s.now

instance (s : State) : Decidable s.waitDone :=
  match h : topTimeout s.tasks with
  | none => decidable_of_iff (s.terminate = true) (by simp [State.waitDone, h])
  | some m => decidable_of_iff (s.terminate = true ∨ m < s.now) (by simp [State.waitDone, h])

/-- The condition of the inner loop:
`!m_tasks.empty() && (m_tasks.top().timeout <= clock_t::now())`. -/
def State.due (s : State) : Prop := ∃ m, topTimeout s.tasks = some m ∧ m ≤ s.now

instance (s : State) : Decidable s.due :=
  match h : topTimeout s.tasks with
  | none => isFalse (by simp [State.due, h])
  | some m => decidable_of_iff (m ≤ s.now) (by simp [State.due, h])

/-- What happens next. -/
inductive Act where
  /-- The clock advances. -/
  | tick (ns : Nat)
  | schedule (delta : Delay)
  | cancelAll
  /-- The destructor, up to `m_worker.join()`. -/
  | terminate
  /-- A condition variable wakes the worker for no reason. -/
  | wake
  /-- `wait_until` sees that the deadline has passed. -/
  | timeout
  /-- The worker takes its next step. -/
  | work
  /-- The worker pops the given task, which is at the top of the heap. -/
  | take (task : Task)
  deriving DecidableEq, Repr

/-- `threshold`, ten milliseconds. -/
def threshold : Int := 10000000

/-- A step of the worker other than popping a task. -/
def State.work (s : State) : Option State :=
  match s.pc with
  | .launch => some { s with pc := .loop }
  | .loop =>
    if s.terminate then
      some { s with pc := .drain true }
    else
      match topTimeout s.tasks with
      | none => some { s with pc := .idle }
      | some next => some { s with pc := .armed next }
  | .idle => none
  | .idleWoken => some { s with pc := .loop }
  | .armed next =>
    if wrap (next - s.now) ≤ threshold then some { s with pc := .spin next }
    else some { s with pc := .check next }
  | .spin next => if s.now < next then none else some { s with pc := .drain false }
  | .check next =>
    if s.waitDone then some { s with pc := .drain false }
    else some { s with pc := .blocked next }
  | .blocked _ => none
  | .woken next => some { s with pc := .check next }
  | .expired => some { s with pc := .drain false }
  | .drain final =>
    if s.due then none
    else some { s with pc := if final then .exited else .loop }
  | .taken final task mark =>
    some { s with pc := .running final, started := ⟨task, s.now, s.tasks, mark⟩ :: s.started }
  | .running final => some { s with pc := .drain final }
  | .exited => none

/-- `clock_t::now() + delta`. -/
def State.timeoutOf (s : State) (delta : Delay) : Int := wrap (s.now + delta.count)

/-- `schedule(delta, task)` and `schedule(timeout_ns, task)`. -/
def State.schedule (s : State) (delta : Delay) : State :=
  { s with
    tasks := s.tasks ++ [⟨s.nextId, s.timeoutOf delta, s.now, delta, rfl⟩]
    nextId := s.nextId + 1
    pc := s.pc.notify }

/-- `cancel_all()`. -/
def State.cancelAll (s : State) : State :=
  { s with
    tasks := []
    cancelled := s.tasks.map Task.id ++ s.cancelled
    pc := s.pc.notify }

/-- `~watchdog()`, before it waits for the worker. -/
def State.stop (s : State) : State := { s with terminate := true, pc := s.pc.notify }

/-- `auto task = m_tasks.top().func; m_tasks.pop(); lock.unlock();` -/
def State.pop (s : State) (final : Bool) (task : Task) : State :=
  { s with tasks := s.tasks.erase task, pc := .taken final task s.nextId }

/-- One step, if it is possible. -/
def step (s : State) : Act → Option State
  | .tick ns => some { s with now := s.now + ns }
  | .schedule delta => if s.pc.locked then none else some (s.schedule delta)
  | .cancelAll => if s.pc.locked then none else some s.cancelAll
  | .terminate => if s.pc.locked then none else some s.stop
  | .wake =>
    match s.pc with
    | .idle | .blocked _ => some { s with pc := s.pc.notify }
    | _ => none
  | .timeout =>
    match s.pc with
    | .blocked next => if s.now < next then none else some { s with pc := .expired }
    | _ => none
  | .work => s.work
  | .take task =>
    match s.pc with
    | .drain final =>
      if IsTop task s.tasks ∧ task.timeout ≤ s.now then some (s.pop final task) else none
    | _ => none

/-- The watchdog as a transition system. -/
def system (now : Int) : System State Act := .ofStep (initial now) step

theorem topTimeout_eq_some {tasks : List Task} {m : Int} :
    topTimeout tasks = some m ↔ (∃ t ∈ tasks, t.timeout = m) ∧ ∀ t ∈ tasks, m ≤ t.timeout := by
  rw [topTimeout, List.min?_eq_some_iff, List.mem_map, List.forall_mem_map]

theorem topTimeout_eq_none {tasks : List Task} : topTimeout tasks = none ↔ tasks = [] := by
  rw [topTimeout, List.min?_eq_none_iff, List.map_eq_nil_iff]

/-- The earliest timeout is before a time when some timeout is. -/
theorem topTimeout_lt {tasks : List Task} {time : Int} :
    (∃ m, topTimeout tasks = some m ∧ m < time) ↔ ∃ t ∈ tasks, t.timeout < time := by
  constructor
  · rintro ⟨m, hm, hlt⟩
    obtain ⟨⟨t, ht, rfl⟩, -⟩ := topTimeout_eq_some.1 hm
    exact ⟨t, ht, hlt⟩
  · rintro ⟨t, ht, hlt⟩
    cases hm : topTimeout tasks with
    | none =>
      rw [topTimeout_eq_none.1 hm] at ht
      cases ht
    | some m => exact ⟨m, rfl, Int.lt_of_le_of_lt ((topTimeout_eq_some.1 hm).2 t ht) hlt⟩

theorem State.waitDone_iff {s : State} :
    s.waitDone ↔ s.terminate ∨ ∃ t ∈ s.tasks, t.timeout < s.now :=
  or_congr_right topTimeout_lt

/-! ## What a step does -/

section Steps

variable {s s' : State}

/-- A call of another thread has to wait for the mutex. -/
theorem of_unless_locked {t : State}
    (h : (if s.pc.locked then none else some t) = some s') : s.pc.locked = false ∧ s' = t := by
  rw [Option.ite_none_left_eq_some, Option.some.injEq, Bool.not_eq_true] at h
  exact ⟨h.1, h.2.symm⟩

theorem step_schedule {delta : Delay} (h : step s (.schedule delta) = some s') :
    s.pc.locked = false ∧ s' = s.schedule delta :=
  of_unless_locked h

theorem step_cancelAll (h : step s .cancelAll = some s') :
    s.pc.locked = false ∧ s' = s.cancelAll :=
  of_unless_locked h

theorem step_terminate (h : step s .terminate = some s') : s.pc.locked = false ∧ s' = s.stop :=
  of_unless_locked h

theorem step_wake (h : step s .wake = some s') :
    s.pc.locked = false ∧ s' = { s with pc := s.pc.notify } := by
  simp only [step] at h
  split at h
  next hpc =>
    cases h
    rw [hpc]
    exact ⟨rfl, rfl⟩
  next hpc =>
    cases h
    rw [hpc]
    exact ⟨rfl, rfl⟩
  next => cases h

theorem step_timeout (h : step s .timeout = some s') :
    ∃ next, s.pc = .blocked next ∧ next ≤ s.now ∧ s' = { s with pc := .expired } := by
  simp only [step] at h
  split at h
  next next hpc =>
    rw [Option.ite_none_left_eq_some, Option.some.injEq] at h
    exact ⟨next, hpc, Int.not_lt.1 h.1, h.2.symm⟩
  next => cases h

theorem step_take {task : Task} (h : step s (.take task) = some s') :
    ∃ final, s.pc = .drain final ∧ IsTop task s.tasks ∧ task.timeout ≤ s.now ∧
      s' = s.pop final task := by
  simp only [step] at h
  split at h
  next final hpc =>
    rw [Option.ite_none_right_eq_some, Option.some.injEq] at h
    exact ⟨final, hpc, h.1.1, h.1.2, h.2.symm⟩
  next => cases h

end Steps

end Mwr.Watchdog
