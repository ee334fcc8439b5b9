import Mwr.Aio.Registry
import Mwr.CodeLib.Transition

/-!
# The aio thread on Windows

A translation of the class `aio` of `src/mwr/utils/aio_win32.cpp` into a step
function, in the style of the one for POSIX systems.  Here the registrations are a
map from handles, the thread waits for at most 64 handles at a time, and it looks
for invalid handles itself.

A label has what the system answers: the handle of a descriptor, the result of a
wait, whether a descriptor has data, and which handles are found to be invalid.
-/

namespace Mwr.Aio.Win32

open Mwr.CodeLib.Transition

variable {H : Type}

/-- A `HANDLE`. -/
abbrev Handle := Nat

/-- `struct aio_info`. -/
structure Info (H : Type) where
  fd : Int
  handler : H
  deriving DecidableEq, Repr

/-- `MAXIMUM_WAIT_OBJECTS`. -/
def MAXIMUM_WAIT_OBJECTS : Nat := 64

/-- `WAIT_FAILED`. -/
def WAIT_FAILED : UInt32 := 0xffffffff

/-- `STATUS_TIMEOUT`. -/
def STATUS_TIMEOUT : UInt32 := 0x102

/-- Where the thread is in `aio_thread`; `i` is the variable of the loop over the
chunks of `polls`. -/
inductive Pc (H : Type) where
  /-- At the condition of `while (m_running)`. -/
  | loop
  /-- At `if (curgen != m_gen)`. -/
  | check
  /-- Waiting for the mutex, to rebuild `polls`. -/
  | rebuild
  /-- Holds the mutex, to rebuild `polls`. -/
  | rebuilding
  /-- At `if (polls.empty())`. -/
  | ready
  /-- At `i < polls.size()`. -/
  | chunk (i : Nat)
  /-- About to call `WaitForMultipleObjects`. -/
  | wait (i : Nat)
  /-- At `if (!m_running)`. -/
  | waited (i : Nat) (ret : UInt32)
  /-- At `if (ret >= WAIT_OBJECT_0 && ret < polls.size())`. -/
  | object (i : Nat) (ret : UInt32)
  /-- Holds the mutex, to look at the handle that has been signalled. -/
  | peeking (i : Nat) (ret : UInt32)
  /-- At `if (ret == WAIT_FAILED)`. -/
  | failed (i : Nat) (ret : UInt32) (scheduled : List (Info H))
  /-- Holds the mutex, to remove the invalid handles. -/
  | reaping (i : Nat) (ret : UInt32) (scheduled : List (Info H))
  /-- At `if (ret == STATUS_TIMEOUT)`, if `MWR_MINGW` is defined. -/
  | timeout (i : Nat) (ret : UInt32) (scheduled : List (Info H))
  /-- Holds the mutex there, to remove the handles of closed descriptors. -/
  | closing (i : Nat) (scheduled : List (Info H))
  /-- In the loop that calls the handlers, with these left. -/
  | invoke (i : Nat) (scheduled : List (Info H))
  /-- Runs a handler, with these left. -/
  | handler (i : Nat) (scheduled : List (Info H))
  /-- `aio_thread` has returned. -/
  | exited
  deriving DecidableEq, Repr

/-- The thread holds the mutex. -/
def Pc.locked : Pc H → Bool
  | .rebuilding | .peeking _ _ | .reaping _ _ _ | .closing _ _ => true
  | _ => false

/-- The fields of the object, and the local variables `polls` and `curgen`. -/
structure State (H : Type) extends Registry Handle (Info H) H where
  running : Bool
  pc : Pc H
  polls : List Handle
  curgen : BitVec 64

/-- The constructor. -/
def initial (H : Type) : State H where
  toRegistry := .empty
  running := true
  pc := .loop
  polls := []
  curgen := 0

/-- What happens next. -/
inductive Act (H : Type) where
  /-- A call gets the mutex. -/
  | lock (caller : Caller) (call : Call H)
  /-- `_get_osfhandle` returns the handle of the descriptor, if it is valid, and the
  call that holds the mutex changes `m_handlers`. -/
  | change (handle : Option Handle)
  /-- The call that holds the mutex increments `m_gen`. -/
  | count
  /-- The call that holds the mutex returns. -/
  | unlock
  /-- The destructor clears `m_running`. -/
  | stop
  /-- The thread takes its next step. -/
  | work
  /-- The thread fills `polls`, in the order in which the map is iterated. -/
  | rebuild (order : List Handle)
  /-- `WaitForMultipleObjects` returns. -/
  | wait (ret : UInt32)
  /-- `fd_peek` of the signalled descriptor, if it is called. -/
  | peek (data : Bool)
  /-- The thread removes these of the handles it polls, which it finds invalid. -/
  | reap (invalid : List Handle)
  /-- The thread calls the next handler. -/
  | start
  /-- The handler returns. -/
  | finish
  deriving DecidableEq, Repr

/-- The loop over `polls` that removes the invalid handles from `m_handlers` and
schedules their handlers. -/
def reap (invalid : List Handle) :
    List Handle → List (Info H) → (AList fun _ : Handle => Info H) →
      List (Info H) × (AList fun _ : Handle => Info H)
  | [], scheduled, handlers => (scheduled, handlers)
  | handle :: polls, scheduled, handlers =>
    match handlers.lookup handle with
    | none => reap invalid polls scheduled handlers
    | some info =>
      if handle ∈ invalid then
        reap invalid polls (scheduled ++ [info]) (handlers.erase handle)
      else
        reap invalid polls scheduled handlers

namespace State

/-- The thread gets the mutex, or waits for it. -/
def lockThread (s : State H) (pc : Pc H) : Option (State H) :=
  (s.lock .thread).map fun r => { s with toRegistry := r, pc := pc }

/-- A step of the thread that depends on nothing but the state. -/
def work (mingw : Bool) (s : State H) : Option (State H) :=
  match s.pc with
  | .loop => some { s with pc := if s.running then .check else .exited }
  | .check =>
    if s.curgen ≠ s.gen then some { s with polls := [], pc := .rebuild }
    else some { s with pc := .ready }
  | .rebuild => s.lockThread .rebuilding
  | .ready => some { s with pc := if s.polls = [] then .loop else .chunk 0 }
  | .chunk i => some { s with pc := if i < s.polls.length then .wait i else .loop }
  | .waited i ret => some { s with pc := if s.running then .object i ret else .exited }
  | .object i ret =>
    if ret.toNat < s.polls.length then s.lockThread (.peeking i ret)
    else some { s with pc := .failed i ret [] }
  | .failed i ret scheduled =>
    if ret = WAIT_FAILED then s.lockThread (.reaping i ret scheduled)
    else some { s with pc := .timeout i ret scheduled }
  | .timeout i ret scheduled =>
    if mingw ∧ ret = STATUS_TIMEOUT then s.lockThread (.closing i scheduled)
    else some { s with pc := .invoke i scheduled }
  | .invoke i [] => some { s with pc := .chunk (i + MAXIMUM_WAIT_OBJECTS) }
  | .rebuilding | .wait _ | .peeking _ _ | .reaping _ _ _ | .closing _ _ | .invoke _ (_ :: _)
  | .handler _ _ | .exited => none

/-- `for ([handle, info] : m_handlers) polls.push_back(handle); curgen = m_gen;` -/
def rebuild (s : State H) (order : List Handle) : Option (State H) :=
  match s.pc with
  | .rebuilding =>
    if order.Perm s.handlers.keys then
      some { s with
        toRegistry := s.release s.handlers
        pc := .ready
        polls := order
        curgen := s.gen }
    else none
  | _ => none

/-- `WaitForMultipleObjects(num, polls.data() + i, FALSE, TIMEOUT_MS)` returns. -/
def wait (s : State H) (ret : UInt32) : Option (State H) :=
  match s.pc with
  | .wait i => some { s with pc := .waited i ret }
  | _ => none

/-- The handle `polls[ret]` has been signalled. -/
def peek (s : State H) (data : Bool) : Option (State H) :=
  match s.pc with
  | .peeking i ret =>
    match s.handlers.lookup (s.polls.getD ret.toNat 0) with
    | none =>
      some { s with
        toRegistry := s.release s.handlers
        pc := .chunk (i + MAXIMUM_WAIT_OBJECTS) }
    | some triggered =>
      some { s with
        toRegistry := s.release s.handlers
        pc := .failed i ret (if data then [triggered] else []) }
  | _ => none

/-- The two places where the thread removes handles. -/
def reapStep (s : State H) (invalid : List Handle) : Option (State H) :=
  match s.pc with
  | .reaping i ret scheduled =>
    let next := reap invalid s.polls scheduled s.handlers
    some { s with toRegistry := s.release next.2, pc := .timeout i ret next.1 }
  | .closing i scheduled =>
    let next := reap invalid s.polls scheduled s.handlers
    some { s with toRegistry := s.release next.2, pc := .invoke i next.1 }
  | _ => none

/-- `handler.handler(handler.fd)`, up to the body of the handler. -/
def start (s : State H) : Option (State H) :=
  match s.pc with
  | .invoke i (_ :: scheduled) => some { s with pc := .handler i scheduled }
  | _ => none

/-- The handler returns; it is in no call then. -/
def finish (s : State H) : Option (State H) :=
  match s.pc, s.owner with
  | .handler _ _, some (.call .handler _ _) => none
  | .handler i scheduled, _ => some { s with pc := .invoke i scheduled }
  | _, _ => none

/-- A caller may make a call: a handler does so while it runs. -/
def mayCall (s : State H) : Caller → Bool
  | .other => true
  | .handler =>
    match s.pc with
    | .handler _ _ => true
    | _ => false

/-- The body of `notify` or `cancel`, up to `m_gen++`. -/
def change (s : State H) (handle : Option Handle) : Option (State H) :=
  match handle with
  -- `MWR_ERROR` aborts the process
  | none => none
  | some handle => (s.toRegistry.change handle Info.mk).map fun r => { s with toRegistry := r }

end State

/-- One step, if it is possible. -/
def step (mingw : Bool) (s : State H) : Act H → Option (State H)
  | .lock caller call =>
    if s.mayCall caller then
      (s.lock (.call caller call .entered)).map fun r => { s with toRegistry := r }
    else none
  | .change handle => s.change handle
  | .count => s.count.map fun r => { s with toRegistry := r }
  | .unlock => s.unlock.map fun (_, r) => { s with toRegistry := r }
  | .stop => some { s with running := false }
  | .work => s.work mingw
  | .rebuild order => s.rebuild order
  | .wait ret => s.wait ret
  | .peek data => s.peek data
  | .reap invalid => s.reapStep invalid
  | .start => s.start
  | .finish => s.finish

/-- The class as a transition system. -/
def system (mingw : Bool) (H : Type) : System (State H) (Act H) :=
  .ofStep (initial H) (step mingw)

/-! ## Runs -/

/-- The steps of a call that nothing interrupts, for a descriptor with this handle. -/
def callActs (caller : Caller) (call : Call H) (handle : Handle) : List (Act H) :=
  [.lock caller call, .change (some handle), .count, .unlock]

/-- The steps of the thread from the top of its loop to its first wait, where it
rebuilds the list of handles. -/
def waitActs (order : List Handle) : List (Act H) :=
  [.work, .work, .work, .rebuild order, .work, .work]

/-! ## What a step does -/

section Steps

variable {mingw : Bool} {s s' : State H}

theorem lockThread_eq {pc : Pc H} (h : s.lockThread pc = some s') :
    s.owner = none ∧ s' = { s with owner := some .thread, pc := pc } := by
  simp only [State.lockThread, Option.map_eq_some_iff] at h
  rcases h with ⟨r, hlock, rfl⟩
  rcases Registry.lock_eq_some hlock with ⟨howner, rfl⟩
  exact ⟨howner, rfl⟩

/-- The steps that a thread takes on its own: it moves, it drops an old list of
handles, or it takes the mutex. -/
theorem step_work (h : step mingw s .work = some s') :
    (∃ pc, s' = { s with pc := pc } ∧ pc.locked = false) ∨
    (s.curgen ≠ s.gen ∧ s' = { s with polls := [], pc := .rebuild }) ∨
    (∃ pc, s.owner = none ∧ s' = { s with owner := some .thread, pc := pc } ∧
      pc.locked = true) := by
  have hmove : ∀ {c : Prop} [Decidable c] {pc pc' : Pc H},
      some { s with pc := if c then pc else pc' } = some s' → pc.locked = false →
      pc'.locked = false → ∃ pc, s' = { s with pc := pc } ∧ pc.locked = false := by
    intro c _ pc pc' heq hpc hpc'
    cases heq
    refine ⟨_, rfl, ?_⟩
    split
    · exact hpc
    · exact hpc'
  have htake : ∀ {c : Prop} [Decidable c] {pc pc' : Pc H},
      (if c then s.lockThread pc else some { s with pc := pc' }) = some s' → pc.locked = true →
      pc'.locked = false → (∃ pc, s' = { s with pc := pc } ∧ pc.locked = false) ∨
        ∃ pc, s.owner = none ∧ s' = { s with owner := some .thread, pc := pc } ∧
          pc.locked = true := by
    intro c _ pc pc' heq hpc hpc'
    split at heq
    · rcases lockThread_eq heq with ⟨howner, rfl⟩
      exact .inr ⟨pc, howner, rfl, hpc⟩
    · cases heq
      exact .inl ⟨pc', rfl, hpc'⟩
  simp only [step, State.work] at h
  split at h
  next => exact .inl (hmove h rfl rfl)
  next =>
    split at h
    · rename_i hgen
      cases h
      exact .inr (.inl ⟨hgen, rfl⟩)
    · cases h
      exact .inl ⟨_, rfl, rfl⟩
  next =>
    rcases lockThread_eq h with ⟨howner, rfl⟩
    exact .inr (.inr ⟨_, howner, rfl, rfl⟩)
  next => exact .inl (hmove h rfl rfl)
  next => exact .inl (hmove h rfl rfl)
  next => exact .inl (hmove h rfl rfl)
  next => exact (htake h rfl rfl).imp_right .inr
  next => exact (htake h rfl rfl).imp_right .inr
  next => exact (htake h rfl rfl).imp_right .inr
  next =>
    cases h
    exact .inl ⟨_, rfl, rfl⟩
  all_goals cases h

theorem step_rebuild {order : List Handle} (h : step mingw s (.rebuild order) = some s') :
    order.Perm s.handlers.keys ∧
      s' = { s with toRegistry := s.release s.handlers, pc := .ready, polls := order,
                    curgen := s.gen } := by
  simp only [step, State.rebuild] at h
  split at h
  next hpc =>
    rw [Option.ite_none_right_eq_some, Option.some_inj] at h
    exact ⟨h.1, h.2.symm⟩
  next => cases h

theorem step_peek {data : Bool} (h : step mingw s (.peek data) = some s') :
    s.pc.locked = true ∧
      ∃ pc, s' = { s with toRegistry := s.release s.handlers, pc := pc } ∧ pc.locked = false := by
  simp only [step, State.peek] at h
  split at h
  next i ret hpc =>
    refine ⟨by rw [hpc]; rfl, ?_⟩
    split at h
    next =>
      cases h
      exact ⟨_, rfl, rfl⟩
    next =>
      cases h
      exact ⟨_, rfl, rfl⟩
  next => cases h

theorem step_reap {invalid : List Handle} (h : step mingw s (.reap invalid) = some s') :
    s.pc.locked = true ∧ ∃ scheduled pc,
      s' = { s with toRegistry := s.release (reap invalid s.polls scheduled s.handlers).2,
                    pc := pc } ∧ pc.locked = false := by
  simp only [step, State.reapStep] at h
  split at h
  next i ret scheduled hpc =>
    cases h
    exact ⟨by rw [hpc]; rfl, scheduled, _, rfl, rfl⟩
  next i scheduled hpc =>
    cases h
    exact ⟨by rw [hpc]; rfl, scheduled, _, rfl, rfl⟩
  next => cases h

/-- The wait and the calls of the handlers only move the thread. -/
theorem step_move {a : Act H} (ha : a = .start ∨ a = .finish ∨ ∃ ret, a = .wait ret)
    (h : step mingw s a = some s') : ∃ pc, s' = { s with pc := pc } ∧ pc.locked = false := by
  rcases ha with rfl | rfl | ⟨ret, rfl⟩
  · simp only [step, State.start] at h
    split at h
    next =>
      cases h
      exact ⟨_, rfl, rfl⟩
    next => cases h
  · simp only [step, State.finish] at h
    split at h
    next => cases h
    next =>
      cases h
      exact ⟨_, rfl, rfl⟩
    next => cases h
  · simp only [step, State.wait] at h
    split at h
    next =>
      cases h
      exact ⟨_, rfl, rfl⟩
    next => cases h

end Steps

/-- Nothing is removed unless a registered handle is invalid. -/
theorem reap_of_valid {invalid polls : List Handle} (scheduled : List (Info H))
    {handlers : AList fun _ : Handle => Info H}
    (h : ∀ handle ∈ polls, handle ∈ invalid → handle ∉ handlers) :
    (reap invalid polls scheduled handlers).2 = handlers := by
  induction polls generalizing scheduled with
  | nil => rfl
  | cons handle polls ih =>
    have hpolls : ∀ q ∈ polls, q ∈ invalid → q ∉ handlers :=
      fun q hq => h q (List.mem_cons_of_mem _ hq)
    rw [reap]
    split
    · exact ih scheduled hpolls
    · rename_i info hinfo
      have hmem : handle ∈ handlers := AList.lookup_isSome.mp (by rw [hinfo]; rfl)
      rw [if_neg fun hinvalid => h handle List.mem_cons_self hinvalid hmem]
      exact ih scheduled hpolls

end Mwr.Aio.Win32
