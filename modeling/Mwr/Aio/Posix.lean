import Mwr.Aio.Registry
import Mwr.CodeLib.Transition

/-!
# The aio thread on POSIX systems

A translation of the class `aio` of `src/mwr/utils/aio_posix.cpp` into a step
function.  The thread takes a step for each statement that another thread can
observe or that depends on the system, and a step for each of its two critical
sections.  A label says who takes the step, and what `poll` returns in it.

`State.log` records what a user of the class sees.  A handler that the thread runs
may itself call `aio_notify` and `aio_cancel`, and returns after these calls have
returned.
-/

namespace Mwr.Aio.Posix

open Mwr.CodeLib.Transition

variable {H : Type}

/-- `POLLNVAL`. -/
def POLLNVAL : BitVec 16 := 0x20

/-- A `pollfd` after `poll`: the descriptor and its `revents`. -/
abbrev PollFd := Int × BitVec 16

/-- The handlers of a batch, each with its descriptor. -/
abbrev Scheduled (H : Type) := List (Int × H)

/-- Where the thread is in `aio_thread`. -/
inductive Pc (H : Type) where
  /-- At the condition of `while (m_running)`. -/
  | loop
  /-- At `if (curgen != m_gen)`. -/
  | check
  /-- Waiting for the mutex, to rebuild `polls`. -/
  | rebuild
  /-- Holds the mutex, to rebuild `polls`. -/
  | rebuilding
  /-- At `if (polls.empty())`. -/
  | ready
  /-- About to call `poll`. -/
  | poll
  /-- At `if (ret > 0 && m_running)`. -/
  | polled (ret : Nat) (fds : List PollFd)
  /-- Waiting for the mutex, to collect the handlers. -/
  | collect (fds : List PollFd)
  /-- Holds the mutex, to collect the handlers. -/
  | collecting (fds : List PollFd)
  /-- In the loop that calls the handlers, with these left. -/
  | invoke (scheduled : Scheduled H)
  /-- Runs a handler, with these left. -/
  | handler (scheduled : Scheduled H)
  /-- `aio_thread` has returned. -/
  | exited
  deriving DecidableEq, Repr

/-- The handlers that have been collected and not been started. -/
def Pc.pending : Pc H → Scheduled H
  | .invoke scheduled | .handler scheduled => scheduled
  | _ => []

/-- The thread holds the mutex. -/
def Pc.locked : Pc H → Bool
  | .rebuilding | .collecting _ => true
  | _ => false

/-- What a user of the class sees. -/
inductive Event (H : Type) where
  /-- `aio_notify` takes effect. -/
  | registered (fd : Int) (handler : H)
  /-- `aio_cancel` returns. -/
  | cancelled (fd : Int)
  /-- A handler is started. -/
  | started (fd : Int) (handler : H)
  deriving DecidableEq, Repr

/-- The fields of the object, the local variables `polls` and `curgen` of the
thread, and what has happened, the latest event first. -/
structure State (H : Type) extends Registry Int H H where
  running : Bool
  pc : Pc H
  polls : List Int
  curgen : BitVec 64
  log : List (Event H)

/-- The constructor. -/
def initial (H : Type) : State H where
  toRegistry := .empty
  running := true
  pc := .loop
  polls := []
  curgen := 0
  log := []

/-- What `poll` returns. -/
inductive PollResult where
  /-- `ret < 0 && errno == EINTR`. -/
  | interrupted
  /-- `ret < 0`, for another reason. -/
  | error
  /-- `ret >= 0`, with the `revents` of the descriptors. -/
  | events (ret : Nat) (revents : List (BitVec 16))
  deriving DecidableEq, Repr

/-- What happens next. -/
inductive Act (H : Type) where
  /-- A call gets the mutex. -/
  | lock (caller : Caller) (call : Call H)
  /-- The call that holds the mutex changes `m_handlers`. -/
  | change
  /-- The call that holds the mutex increments `m_gen`. -/
  | count
  /-- The call that holds the mutex returns. -/
  | unlock
  /-- The destructor clears `m_running`. -/
  | stop
  /-- The thread takes its next step. -/
  | work
  /-- The thread fills `polls`, in the order in which the map is iterated. -/
  | rebuild (order : List Int)
  /-- `poll` returns. -/
  | poll (result : PollResult)
  /-- The thread calls the next handler. -/
  | start
  /-- The handler returns. -/
  | finish
  deriving DecidableEq, Repr

/-- The loop under the mutex that collects the handlers: the batch, and what is left
of `m_handlers`. -/
def collect : List PollFd → (AList fun _ : Int => H) → Scheduled H × (AList fun _ : Int => H)
  | [], handlers => ([], handlers)
  | (fd, revents) :: fds, handlers =>
    match handlers.lookup fd with
    | none => collect fds handlers
    | some handler =>
      let next := collect fds (if revents &&& POLLNVAL ≠ 0 then handlers.erase fd else handlers)
      (if revents ≠ 0 then (fd, handler) :: next.1 else next.1, next.2)

namespace State

/-- The thread gets the mutex, or waits for it. -/
def lockThread (s : State H) (pc : Pc H) : Option (State H) :=
  (s.lock .thread).map fun r => { s with toRegistry := r, pc := pc }

/-- A step of the thread that depends on nothing but the state. -/
def work (s : State H) : Option (State H) :=
  match s.pc with
  | .loop => some { s with pc := if s.running then .check else .exited }
  | .check =>
    if s.curgen ≠ s.gen then some { s with polls := [], pc := .rebuild }
    else some { s with pc := .ready }
  | .rebuild => s.lockThread .rebuilding
  | .rebuilding => none
  | .ready => some { s with pc := if s.polls = [] then .loop else .poll }
  | .poll => none
  | .polled ret fds =>
    some { s with pc := if 0 < ret ∧ s.running then .collect fds else .invoke [] }
  | .collect fds => s.lockThread (.collecting fds)
  | .collecting fds =>
    let next := collect fds s.handlers
    some { s with toRegistry := s.release next.2, pc := .invoke next.1 }
  | .invoke [] => some { s with pc := .loop }
  | .invoke (_ :: _) => none
  | .handler _ => none
  | .exited => none

/-- `for (it : m_handlers) polls.push_back(..); curgen = m_gen;` -/
def rebuild (s : State H) (order : List Int) : Option (State H) :=
  match s.pc with
  | .rebuilding =>
    if order.Perm s.handlers.keys then
      some { s with
        toRegistry := s.release s.handlers
        pc := .ready
        polls := order
        curgen := s.gen }
    else none
  | _ => none

/-- `poll(polls.data(), polls.size(), TIMEOUT_MS)` returns. -/
def poll (s : State H) (result : PollResult) : Option (State H) :=
  match s.pc with
  | .poll =>
    match result with
    | .interrupted => some s
    -- `MWR_ERROR` aborts the process
    | .error => none
    | .events ret revents =>
      if revents.length = s.polls.length then
        some { s with pc := .polled ret (s.polls.zip revents) }
      else none
  | _ => none

/-- `handler.second(handler.first)`, up to the body of the handler. -/
def start (s : State H) : Option (State H) :=
  match s.pc with
  | .invoke ((fd, handler) :: scheduled) =>
    some { s with pc := .handler scheduled, log := .started fd handler :: s.log }
  | _ => none

/-- The handler returns; it is in no call then. -/
def finish (s : State H) : Option (State H) :=
  match s.pc, s.owner with
  | .handler _, some (.call .handler _ _) => none
  | .handler scheduled, _ => some { s with pc := .invoke scheduled }
  | _, _ => none

/-- A caller may make a call: a handler does so while it runs. -/
def mayCall (s : State H) : Caller → Bool
  | .other => true
  | .handler =>
    match s.pc with
    | .handler _ => true
    | _ => false

/-- The body of `notify` or `cancel` changes the map. -/
def change (s : State H) : Option (State H) :=
  match s.owner with
  | some (.call _ call .entered) =>
    (s.toRegistry.change call.fd fun _ handler => handler).map fun r =>
      { s with
        toRegistry := r
        log := match call with
          | .notify fd handler => .registered fd handler :: s.log
          | .cancel _ => s.log }
  | _ => none

/-- A call returns. -/
def unlock (s : State H) : Option (State H) :=
  s.toRegistry.unlock.map fun (call, r) =>
    { s with
      toRegistry := r
      log := match call with
        | .notify _ _ => s.log
        | .cancel fd => .cancelled fd :: s.log }

end State

/-- One step, if it is possible. -/
def step (s : State H) : Act H → Option (State H)
  | .lock caller call =>
    if s.mayCall caller then
      (s.lock (.call caller call .entered)).map fun r => { s with toRegistry := r }
    else none
  | .change => s.change
  | .count => s.count.map fun r => { s with toRegistry := r }
  | .unlock => s.unlock
  | .stop => some { s with running := false }
  | .work => s.work
  | .rebuild order => s.rebuild order
  | .poll result => s.poll result
  | .start => s.start
  | .finish => s.finish

/-- The class as a transition system. -/
def system (H : Type) : System (State H) (Act H) := .ofStep (initial H) step

/-! ## Runs -/

/-- The steps of a call that nothing interrupts. -/
def callActs (caller : Caller) (call : Call H) : List (Act H) :=
  [.lock caller call, .change, .count, .unlock]

/-- The steps of the thread from the top of its loop to the end of a batch, where
`poll` reports the same events for all descriptors. -/
def batchActs (order : List Int) (revents : BitVec 16) : List (Act H) :=
  [.work, .work, .work, .rebuild order, .work,
    .poll (.events order.length (order.map fun _ => revents)), .work, .work, .work]

/-! ## What a step does -/

section Steps

variable {s s' : State H}

theorem step_lock {caller : Caller} {call : Call H} (h : step s (.lock caller call) = some s') :
    ∃ r, s.lock (.call caller call .entered) = some r ∧ s' = { s with toRegistry := r } := by
  simp only [step, Option.ite_none_right_eq_some, Option.map_eq_some_iff] at h
  rcases h with ⟨_, r, hr, rfl⟩
  exact ⟨r, hr, rfl⟩

/-- The body of a call that holds the mutex. -/
theorem step_change (h : step s .change = some s') :
    (∃ caller fd handler, s.owner = some (.call caller (.notify fd handler) .entered) ∧
      s' = { s with handlers := s.handlers.insert fd handler
                    owner := some (.call caller (.notify fd handler) .changed)
                    log := .registered fd handler :: s.log }) ∨
    ∃ caller fd, s.owner = some (.call caller (.cancel fd) .entered) ∧
      s' = { s with handlers := s.handlers.erase fd
                    owner := some (.call caller (.cancel fd) .changed) } := by
  simp only [step, State.change] at h
  split at h
  next caller call howner =>
    simp only [Registry.change, howner, Option.map_some, Option.some_inj] at h
    cases call with
    | notify fd handler => exact .inl ⟨caller, fd, handler, howner, h.symm⟩
    | cancel fd => exact .inr ⟨caller, fd, howner, h.symm⟩
  next => cases h

/-- The return of a call. -/
theorem step_unlock (h : step s .unlock = some s') :
    (∃ caller fd handler, s.owner = some (.call caller (.notify fd handler) .counted) ∧
      s' = { s with owner := none }) ∨
    ∃ caller fd, s.owner = some (.call caller (.cancel fd) .counted) ∧
      s' = { s with owner := none, log := .cancelled fd :: s.log } := by
  simp only [step, State.unlock, Option.map_eq_some_iff] at h
  rcases h with ⟨⟨call, r⟩, hunlock, rfl⟩
  rcases Registry.unlock_eq_some hunlock with ⟨caller, howner, rfl⟩
  cases call with
  | notify fd handler => exact .inl ⟨caller, fd, handler, howner, rfl⟩
  | cancel fd => exact .inr ⟨caller, fd, howner, rfl⟩

theorem step_count (h : step s .count = some s') :
    ∃ r, s.count = some r ∧ s' = { s with toRegistry := r } := by
  simp only [step, Option.map_eq_some_iff] at h
  rcases h with ⟨r, hr, rfl⟩
  exact ⟨r, hr, rfl⟩

theorem step_rebuild {order : List Int} (h : step s (.rebuild order) = some s') :
    s.pc = .rebuilding ∧ order.Perm s.handlers.keys ∧
      s' = { s with toRegistry := s.release s.handlers, pc := .ready, polls := order,
                    curgen := s.gen } := by
  simp only [step, State.rebuild] at h
  split at h
  next hpc =>
    rw [Option.ite_none_right_eq_some, Option.some_inj] at h
    exact ⟨hpc, h.1, h.2.symm⟩
  next => cases h

theorem step_start (h : step s .start = some s') :
    ∃ fd handler scheduled, s.pc = .invoke ((fd, handler) :: scheduled) ∧
      s' = { s with pc := .handler scheduled, log := .started fd handler :: s.log } := by
  simp only [step, State.start] at h
  split at h
  next fd handler scheduled hpc =>
    cases h
    exact ⟨fd, handler, scheduled, hpc, rfl⟩
  next => cases h

theorem step_finish (h : step s .finish = some s') :
    ∃ scheduled, s.pc = .handler scheduled ∧ s' = { s with pc := .invoke scheduled } := by
  simp only [step, State.finish] at h
  split at h
  next => cases h
  next scheduled hpc _ =>
    cases h
    exact ⟨scheduled, hpc, rfl⟩
  next => cases h

/-- `poll` moves the thread, and no handler is pending around it. -/
theorem step_poll {result : PollResult} (h : step s (.poll result) = some s') :
    s.pc = .poll ∧ ∃ pc, s' = { s with pc := pc } ∧ pc.pending = [] ∧ pc.locked = false := by
  simp only [step, State.poll] at h
  split at h
  next hpc =>
    refine ⟨hpc, ?_⟩
    split at h
    next =>
      cases h
      exact ⟨s.pc, rfl, by rw [hpc]; exact ⟨rfl, rfl⟩⟩
    next => cases h
    next =>
      rw [Option.ite_none_right_eq_some, Option.some_inj] at h
      rw [← h.2]
      exact ⟨_, rfl, rfl, rfl⟩
  next => cases h

theorem lockThread_eq {pc : Pc H} (h : s.lockThread pc = some s') :
    s.owner = none ∧ s' = { s with owner := some .thread, pc := pc } := by
  simp only [State.lockThread, Option.map_eq_some_iff] at h
  rcases h with ⟨r, hlock, rfl⟩
  rcases Registry.lock_eq_some hlock with ⟨howner, rfl⟩
  exact ⟨howner, rfl⟩

/-- The steps that a thread takes on its own: it moves without a pending handler, it
drops an old list of descriptors, it takes the mutex, or it collects the handlers. -/
theorem step_work (h : step s .work = some s') :
    (∃ pc, s' = { s with pc := pc } ∧ pc.pending = [] ∧ pc.locked = false) ∨
    (s.curgen ≠ s.gen ∧ s' = { s with polls := [], pc := .rebuild }) ∨
    (∃ pc, s.owner = none ∧ s' = { s with owner := some .thread, pc := pc } ∧
      pc.pending = [] ∧ pc.locked = true) ∨
    ∃ fds, s.pc = .collecting fds ∧
      s' = { s with toRegistry := s.release (collect fds s.handlers).2,
                    pc := .invoke (collect fds s.handlers).1 } := by
  simp only [step, State.work] at h
  split at h
  next =>
    cases h
    refine .inl ⟨_, rfl, ?_⟩
    split <;> exact ⟨rfl, rfl⟩
  next =>
    split at h
    · rename_i hgen
      cases h
      exact .inr (.inl ⟨hgen, rfl⟩)
    · cases h
      exact .inl ⟨_, rfl, rfl, rfl⟩
  next =>
    rcases lockThread_eq h with ⟨howner, rfl⟩
    exact .inr (.inr (.inl ⟨_, howner, rfl, rfl, rfl⟩))
  next => cases h
  next =>
    cases h
    refine .inl ⟨_, rfl, ?_⟩
    split <;> exact ⟨rfl, rfl⟩
  next => cases h
  next =>
    cases h
    refine .inl ⟨_, rfl, ?_⟩
    split <;> exact ⟨rfl, rfl⟩
  next =>
    rcases lockThread_eq h with ⟨howner, rfl⟩
    exact .inr (.inr (.inl ⟨_, howner, rfl, rfl, rfl⟩))
  next fds hpc =>
    cases h
    exact .inr (.inr (.inr ⟨fds, hpc, rfl⟩))
  next =>
    cases h
    exact .inl ⟨_, rfl, rfl, rfl⟩
  all_goals cases h

end Steps

/-! ## The batch -/

/-- Collecting only removes registrations. -/
theorem mem_of_mem_collect {fds : List PollFd} {handlers : AList fun _ : Int => H} {fd : Int}
    (h : fd ∈ (collect fds handlers).2) : fd ∈ handlers := by
  induction fds generalizing handlers with
  | nil => exact h
  | cons pfd fds ih =>
    rw [collect] at h
    split at h
    · exact ih h
    · have hmem := ih h
      split at hmem
      · exact (AList.mem_erase.mp hmem).2
      · exact hmem

/-- Only registered handlers are collected. -/
theorem registered_of_mem_collect {fds : List PollFd} {handlers : AList fun _ : Int => H}
    {fd : Int} {handler : H} (h : (fd, handler) ∈ (collect fds handlers).1) : fd ∈ handlers := by
  induction fds generalizing handlers with
  | nil => cases h
  | cons pfd fds ih =>
    rw [collect] at h
    split at h
    · exact ih h
    · rename_i value hvalue
      have hrest : (fd, handler) ∈ (collect fds (if pfd.2 &&& POLLNVAL ≠ 0 then
          handlers.erase pfd.1 else handlers)).1 → fd ∈ handlers := by
        intro hmem
        have hmem := ih hmem
        split at hmem
        · exact (AList.mem_erase.mp hmem).2
        · exact hmem
      by_cases hrevents : pfd.2 ≠ 0
      · simp only [if_pos hrevents, List.mem_cons] at h
        rcases h with heq | hmem
        · cases heq
          exact AList.lookup_isSome.mp (by rw [hvalue]; rfl)
        · exact hrest hmem
      · simp only [if_neg hrevents] at h
        exact hrest h

/-- An invalid descriptor is removed. -/
theorem notMem_collect {fds : List PollFd} (handlers : AList fun _ : Int => H) {pfd : PollFd}
    (hmem : pfd ∈ fds) (hnval : pfd.2 &&& POLLNVAL ≠ 0) : pfd.1 ∉ (collect fds handlers).2 := by
  induction fds generalizing handlers with
  | nil => cases hmem
  | cons q fds ih =>
    rw [collect]
    rcases List.mem_cons.mp hmem with rfl | hmem
    · split
      · rename_i hnone
        exact fun h => AList.lookup_eq_none.mp hnone (mem_of_mem_collect h)
      · intro h
        rw [if_pos hnval] at h
        exact (AList.mem_erase.mp (mem_of_mem_collect h)).1 rfl
    · split
      · exact ih handlers hmem
      · exact ih _ hmem

/-- Nothing is removed unless a registered descriptor is invalid. -/
theorem collect_of_valid {fds : List PollFd} {handlers : AList fun _ : Int => H}
    (h : ∀ pfd ∈ fds, pfd.2 &&& POLLNVAL ≠ 0 → pfd.1 ∉ handlers) :
    (collect fds handlers).2 = handlers := by
  induction fds with
  | nil => rfl
  | cons pfd fds ih =>
    have ih := ih fun q hq => h q (List.mem_cons_of_mem _ hq)
    rw [collect]
    split
    · exact ih
    · rename_i value hvalue
      have hmem : pfd.1 ∈ handlers := AList.lookup_isSome.mp (by rw [hvalue]; rfl)
      have hnval : ¬ pfd.2 &&& POLLNVAL ≠ 0 := fun hne => h pfd List.mem_cons_self hne hmem
      rw [if_neg hnval]
      exact ih

end Mwr.Aio.Posix
