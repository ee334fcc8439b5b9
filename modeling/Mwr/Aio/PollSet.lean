import Mwr.Aio.Posix
import Mwr.Aio.Win32

/-!
# The descriptors that are polled

The aio thread rebuilds its list of descriptors when `m_gen` has changed, so the list
should be up to date whenever it polls with the current value of `m_gen`.  The thread
itself removes a descriptor that it finds invalid, and does not change `m_gen` then:
the descriptor stays in the list.

* `Posix.Kept` and `Win32.Kept` are the conditions that exclude this, and a counter
  that comes around to the value that the thread remembers.
* `polls_perm_keys` is the result about runs of either class, by the invariant
  `Registry.Coherent`.
* `Posix.exists_stale` says that a removal that does not meet the condition goes wrong.
-/

namespace Mwr.Aio

open Mwr.CodeLib.Transition

variable {H : Type}

namespace Posix

/-- No registered descriptor is found to be invalid while the thread remembers the
current `m_gen`, and `m_gen++` does not reach the value that the thread remembers. -/
def Kept (s : State H) : Act H → Prop
  | .count => s.gen + 1 ≠ s.curgen
  | .work =>
    match s.pc with
    | .collecting fds => s.curgen = s.gen →
        ∀ pfd ∈ fds, pfd.2 &&& POLLNVAL ≠ 0 → pfd.1 ∉ s.handlers
    | _ => True
  | _ => True

instance (s : State H) (a : Act H) : Decidable (Kept s a) :=
  match a with
  | .count => inferInstanceAs (Decidable (_ ≠ _))
  | .work =>
    match h : s.pc with
    | .collecting fds =>
      decidable_of_iff (s.curgen = s.gen → ∀ pfd ∈ fds, pfd.2 &&& POLLNVAL ≠ 0 →
        pfd.1 ∉ s.handlers) (by simp only [Kept, h])
    | .loop | .check | .rebuild | .rebuilding | .ready | .poll | .polled _ _ | .collect _
    | .invoke _ | .handler _ | .exited => isTrue (by simp only [Kept, h])
  | .lock _ _ | .change | .unlock | .stop | .rebuild _ | .poll _ | .start | .finish =>
    isTrue trivial

/-- The invariant. -/
def Coherent (s : State H) : Prop :=
  s.toRegistry.Coherent s.polls s.curgen s.pc.locked

theorem coherent_work {s s' : State H} (h : Coherent s) (hok : Kept s .work)
    (hstep : step s .work = some s') : Coherent s' := by
  rcases step_work hstep with ⟨pc, rfl, _, hpc⟩ | ⟨hgen, rfl⟩ | ⟨pc, howner, rfl, _, hpc⟩ |
    ⟨fds, hfds, rfl⟩
  · rw [Coherent, show Pc.locked _ = false from hpc]
    exact h.move
  · exact .clear hgen
  · rw [Coherent, show Pc.locked _ = true from hpc]
    exact h.take howner
  · rw [Coherent, hfds] at h
    simp only [Kept, hfds] at hok
    exact h.release fun hgen => collect_of_valid (hok hgen)

theorem coherent_step {s s' : State H} {a : Act H} (h : Coherent s) (hok : Kept s a)
    (hstep : step s a = some s') : Coherent s' := by
  cases a with
  | lock caller call =>
    rcases step_lock hstep with ⟨r, hlock, rfl⟩
    exact h.lock hlock
  | change =>
    simp only [step, State.change] at hstep
    split at hstep
    next caller call howner =>
      rw [Option.map_eq_some_iff] at hstep
      rcases hstep with ⟨r, hchange, rfl⟩
      exact h.change hchange
    next => cases hstep
  | count =>
    rcases step_count hstep with ⟨r, hcount, rfl⟩
    exact h.count hok hcount
  | unlock =>
    simp only [step, State.unlock, Option.map_eq_some_iff] at hstep
    rcases hstep with ⟨⟨call, r⟩, hunlock, rfl⟩
    exact h.unlock hunlock
  | stop =>
    cases hstep
    exact h
  | work => exact coherent_work h hok hstep
  | rebuild order =>
    rcases step_rebuild hstep with ⟨_, hperm, rfl⟩
    exact .rebuild hperm
  | poll result =>
    rcases step_poll hstep with ⟨_, pc, rfl, _, hpc⟩
    rw [Coherent, show Pc.locked _ = false from hpc]
    exact h.move
  | start =>
    rcases step_start hstep with ⟨fd, handler, scheduled, _, rfl⟩
    exact h.move
  | finish =>
    rcases step_finish hstep with ⟨scheduled, _, rfl⟩
    exact h.move

theorem coherent_of_reachable {s : State H} (h : ((system H).restrict Kept).Reachable s) :
    Coherent s := by
  refine h.invariant (I := Coherent) ?_ ?_
  · rintro s rfl
    exact Registry.coherent_empty
  · rintro s a s' _ hs ⟨hok, hstep⟩
    exact coherent_step hs hok hstep

end Posix

namespace Win32

/-- No registered handle is found to be invalid while the thread remembers the current
`m_gen`, and `m_gen++` does not reach the value that the thread remembers. -/
def Kept (s : State H) : Act H → Prop
  | .count => s.gen + 1 ≠ s.curgen
  | .reap invalid => s.curgen = s.gen →
      ∀ handle ∈ s.polls, handle ∈ invalid → handle ∉ s.handlers
  | _ => True

instance (s : State H) (a : Act H) : Decidable (Kept s a) :=
  match a with
  | .count => inferInstanceAs (Decidable (_ ≠ _))
  | .reap _ => inferInstanceAs (Decidable (_ → _))
  | .lock _ _ | .change _ | .unlock | .stop | .work | .rebuild _ | .wait _ | .peek _ | .start
  | .finish => isTrue trivial

/-- The invariant. -/
def Coherent (s : State H) : Prop :=
  s.toRegistry.Coherent s.polls s.curgen s.pc.locked

theorem coherent_step {mingw : Bool} {s s' : State H} {a : Act H} (h : Coherent s)
    (hok : Kept s a) (hstep : step mingw s a = some s') : Coherent s' := by
  have hmove : a = .start ∨ a = .finish ∨ (∃ ret, a = .wait ret) → Coherent s' := by
    intro ha
    rcases step_move ha hstep with ⟨pc, rfl, hpc⟩
    rw [Coherent, show Pc.locked _ = false from hpc]
    exact h.move
  cases a with
  | lock caller call =>
    simp only [step, Option.ite_none_right_eq_some, Option.map_eq_some_iff] at hstep
    rcases hstep with ⟨_, r, hlock, rfl⟩
    exact h.lock hlock
  | change handle =>
    simp only [step, State.change] at hstep
    split at hstep
    next => cases hstep
    next handle =>
      rw [Option.map_eq_some_iff] at hstep
      rcases hstep with ⟨r, hchange, rfl⟩
      exact h.change hchange
  | count =>
    simp only [step, Option.map_eq_some_iff] at hstep
    rcases hstep with ⟨r, hcount, rfl⟩
    exact h.count hok hcount
  | unlock =>
    simp only [step, Option.map_eq_some_iff] at hstep
    rcases hstep with ⟨⟨call, r⟩, hunlock, rfl⟩
    exact h.unlock hunlock
  | stop =>
    cases hstep
    exact h
  | work =>
    rcases step_work hstep with ⟨pc, rfl, hpc⟩ | ⟨hgen, rfl⟩ | ⟨pc, howner, rfl, hpc⟩
    · rw [Coherent, show Pc.locked _ = false from hpc]
      exact h.move
    · exact .clear hgen
    · rw [Coherent, show Pc.locked _ = true from hpc]
      exact h.take howner
  | rebuild order =>
    rcases step_rebuild hstep with ⟨hperm, rfl⟩
    exact .rebuild hperm
  | wait ret => exact hmove (.inr (.inr ⟨ret, rfl⟩))
  | peek data =>
    rcases step_peek hstep with ⟨hlocked, pc, rfl, hpc⟩
    rw [Coherent, hlocked] at h
    rw [Coherent, show Pc.locked _ = false from hpc]
    exact h.release fun _ => rfl
  | reap invalid =>
    rcases step_reap hstep with ⟨hlocked, scheduled, pc, rfl, hpc⟩
    rw [Coherent, hlocked] at h
    rw [Coherent, show Pc.locked _ = false from hpc]
    exact h.release fun hgen => reap_of_valid scheduled (hok hgen)
  | start => exact hmove (.inl rfl)
  | finish => exact hmove (.inr (.inl rfl))

theorem coherent_of_reachable {mingw : Bool} {s : State H}
    (h : ((system mingw H).restrict Kept).Reachable s) : Coherent s := by
  refine h.invariant (I := Coherent) ?_ ?_
  · rintro s rfl
    exact Registry.coherent_empty
  · rintro s a s' _ hs ⟨hok, hstep⟩
    exact coherent_step hs hok hstep

end Win32

/-! ## The result -/

/-- In a run that meets the condition, a thread that is about to poll with the current
`m_gen` while nobody holds the mutex polls exactly the keys of `m_handlers`. -/
theorem polls_perm_keys :
    (∀ s : Posix.State H, ((Posix.system H).restrict Posix.Kept).Reachable s →
      s.pc = .poll → s.curgen = s.gen → s.owner = none → s.polls.Perm s.handlers.keys) ∧
    ∀ (mingw : Bool) (s : Win32.State H),
      ((Win32.system mingw H).restrict Win32.Kept).Reachable s →
      ∀ i, s.pc = .wait i → s.curgen = s.gen → s.owner = none →
        s.polls.Perm s.handlers.keys := by
  constructor
  · intro s hs _ hgen howner
    exact (Posix.coherent_of_reachable hs).inStep hgen (by rw [Registry.changing, howner])
  · intro mingw s hs i _ hgen howner
    exact (Win32.coherent_of_reachable hs).inStep hgen (by rw [Registry.changing, howner])

/-- Three descriptors are registered and one is cancelled, and the thread is about to poll
the other two. -/
theorem polls_perm_keys_pair :
    (∃ s : Posix.State Unit, s.pc = .poll ∧ s.polls = [5, 3] ∧ s.polls.Perm s.handlers.keys) ∧
    ∃ s : Win32.State Unit, s.pc = .wait 0 ∧ s.polls = [9, 7] ∧
      s.polls.Perm s.handlers.keys := by
  constructor
  · have hrun : ∃ s, ((Posix.system Unit).restrict Posix.Kept).Reachable s ∧
        s.pc = .poll ∧ s.polls = [5, 3] ∧ s.curgen = s.gen ∧ s.owner = none :=
      System.exists_reachable_restrict_of_run
        (Posix.callActs .other (.notify 3 ()) ++ Posix.callActs .other (.notify 4 ()) ++
          Posix.callActs .other (.notify 5 ()) ++ Posix.callActs .other (.cancel 4) ++
          (Posix.batchActs [5, 3] 0).take 5)
        (by decide +kernel)
    rcases hrun with ⟨s, hs, hpc, hpolls, hgen, howner⟩
    exact ⟨s, hpc, hpolls, polls_perm_keys.1 s hs hpc hgen howner⟩
  · have hrun : ∃ s, ((Win32.system false Unit).restrict Win32.Kept).Reachable s ∧
        s.pc = .wait 0 ∧ s.polls = [9, 7] ∧ s.curgen = s.gen ∧ s.owner = none :=
      System.exists_reachable_restrict_of_run
        (Win32.callActs .other (.notify 3 ()) 7 ++ Win32.callActs .other (.notify 4 ()) 8 ++
          Win32.callActs .other (.notify 5 ()) 9 ++ Win32.callActs .other (.cancel 4) 8 ++
          Win32.waitActs [9, 7])
        (by decide +kernel)
    rcases hrun with ⟨s, hs, hpc, hpolls, hgen, howner⟩
    exact ⟨s, hpc, hpolls, polls_perm_keys.2 false s hs 0 hpc hgen howner⟩

/-- A registered descriptor is closed.  The thread removes it, calls its handler, and
goes on polling it. -/
theorem polls_stale :
    (∃ s, (Posix.system Unit).Reachable s ∧ s.pc = .poll ∧ s.curgen = s.gen ∧
      s.owner = none ∧ ¬ s.polls.Perm s.handlers.keys) ∧
    ∃ s, (Win32.system false Unit).Reachable s ∧ s.pc = .wait 0 ∧ s.curgen = s.gen ∧
      s.owner = none ∧ ¬ s.polls.Perm s.handlers.keys := by
  constructor
  · exact System.exists_reachable_of_run
      (Posix.callActs .other (.notify 3 ()) ++ Posix.batchActs [3] Posix.POLLNVAL ++
        [.start, .finish, .work, .work, .work, .work]) (by decide +kernel)
  · exact System.exists_reachable_of_run
      (Win32.callActs .other (.notify 3 ()) 7 ++ Win32.waitActs [7] ++
        [.wait Win32.WAIT_FAILED, .work, .work, .work, .reap [7], .work, .start, .finish, .work,
          .work, .work, .work, .work, .work]) (by decide +kernel)

/-! ## The condition is exact -/

namespace Posix

/-- The handlers of a batch are called one after the other. -/
theorem exists_drained {s : State H} {scheduled : Scheduled H} (hpc : s.pc = .invoke scheduled)
    (howner : s.owner = none) :
    ∃ es log, System.run step s es = some { s with pc := .invoke [], log := log } := by
  induction scheduled generalizing s with
  | nil => exact ⟨[], s.log, by rw [← hpc]; rfl⟩
  | cons e scheduled ih =>
    rcases e with ⟨fd, handler⟩
    let next : State H := { s with pc := .invoke scheduled, log := .started fd handler :: s.log }
    rcases ih (s := next) rfl howner with ⟨es, log, hrun⟩
    refine ⟨.start :: .finish :: es, log, ?_⟩
    have hstart : step s .start =
        some { s with pc := .handler scheduled, log := .started fd handler :: s.log } := by
      simp only [step, State.start, hpc]
    have hfinish : step { s with
        pc := .handler scheduled
        log := .started fd handler :: s.log } .finish = some next := by
      simp only [step, State.finish, howner]
      rfl
    rw [System.run, hstart, Option.bind_some, System.run, hfinish]
    exact hrun

/-- A thread that remembers the current `m_gen` polls the list that it has. -/
theorem run_to_poll {s : State H} (hpc : s.pc = .invoke []) (hrunning : s.running = true)
    (hgen : s.curgen = s.gen) (hpolls : s.polls ≠ []) :
    System.run step s [.work, .work, .work, .work] = some { s with pc := .poll } := by
  have hinvoke : step s .work = some { s with pc := .loop } := by
    simp only [step, State.work, hpc]
  have hloop : step { s with pc := .loop } .work = some { s with pc := .check } := by
    simp only [step, State.work, hrunning, if_true]
  have hcheck : step { s with pc := .check } .work = some { s with pc := .ready } := by
    simp only [step, State.work, hgen, ne_eq, not_true_eq_false, if_false]
  have hready : step { s with pc := .ready } .work = some { s with pc := .poll } := by
    simp only [step, State.work, hpolls, if_false]
  rw [System.run, hinvoke, Option.bind_some, System.run, hloop, Option.bind_some, System.run,
    hcheck, Option.bind_some, System.run, hready]
  rfl

/-- After a removal that does not meet the condition, the thread polls a list that is
not up to date. -/
theorem exists_stale {s s' : State H} (h : Coherent s) (hrunning : s.running = true)
    (hstep : step s .work = some s') (hnot : ¬ Kept s .work) :
    ∃ es s'', System.run step s' es = some s'' ∧ s''.pc = .poll ∧ s''.curgen = s''.gen ∧
      s''.owner = none ∧ ¬ s''.polls.Perm s''.handlers.keys := by
  cases hpc : s.pc with
  | collecting fds =>
    rw [Coherent, hpc] at h
    simp only [Kept, hpc, not_forall, not_not] at hnot
    rcases hnot with ⟨hgen, pfd, hfd, hnval, hmem⟩
    simp only [step, State.work, hpc] at hstep
    cases hstep
    have hperm := h.inStep hgen (by rw [Registry.changing, h.owner rfl])
    have hpoll : pfd.1 ∈ s.polls := hperm.mem_iff.mpr hmem
    have hstale : ¬ s.polls.Perm (collect fds s.handlers).2.keys := fun hperm' =>
      notMem_collect s.handlers hfd hnval (hperm'.mem_iff.mp hpoll)
    let next : State H := { s with
      toRegistry := s.release (collect fds s.handlers).2
      pc := .invoke (collect fds s.handlers).1 }
    rcases exists_drained (s := next) rfl rfl with ⟨es, log, hrun⟩
    refine ⟨es ++ [.work, .work, .work, .work], { next with pc := .poll, log := log }, ?_, rfl,
      hgen, rfl, hstale⟩
    rw [System.run_append, hrun]
    exact run_to_poll (s := { next with pc := .invoke [], log := log }) rfl hrunning hgen
      (List.ne_nil_of_mem hpoll)
  | _ => exact absurd (by simp only [Kept, hpc]) hnot

end Posix

end Mwr.Aio
