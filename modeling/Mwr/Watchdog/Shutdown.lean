import Mathlib.Data.List.Perm.Subperm
import Mwr.Watchdog.Execution

/-!
# The end of the watchdog

The destructor sets `m_terminate`, notifies the worker and waits until `work` has
returned.  The worker could be asleep and miss the notification, go on for ever
with its tasks, or leave a task out that is due.

* `Awake` is the invariant that no notification gets lost, and that the worker does
  not spin for longer than the threshold.
* `State.rank` bounds the steps that the worker still takes, and `rank_step` says
  that each one counts.
* `destructor_returns` is the result about runs.
-/

namespace Mwr.Watchdog

open Mwr.CodeLib.Transition

/-! ## The worker stays awake -/

/-- The worker is in a condition variable. -/
def Pc.asleep : Pc → Bool
  | .idle | .blocked _ => true
  | _ => false

/-- A worker that is to terminate is not asleep, and one that spins is about to
stop.  The epoch of the clock has passed. -/
structure Awake (s : State) : Prop where
  notified : s.terminate = true → s.pc.asleep = false
  spin : ∀ next, s.pc = .spin next → next ≤ s.now + threshold
  armed : ∀ next, s.pc = .armed next → next < 2 ^ 63
  now : 0 ≤ s.now

theorem asleep_notify (pc : Pc) : pc.notify.asleep = false := by
  cases pc <;> rfl

theorem spin_of_notify {pc : Pc} {next : Int} (h : pc.notify = .spin next) : pc = .spin next := by
  cases pc with
  | idle | blocked next => cases h
  | _ => exact h

theorem armed_of_notify {pc : Pc} {next : Int} (h : pc.notify = .armed next) :
    pc = .armed next := by
  cases pc with
  | idle | blocked next => cases h
  | _ => exact h

/-- A call that notifies the worker. -/
theorem Awake.notify {s s' : State} (h : Awake s) (hpc : s'.pc = s.pc.notify)
    (hnow : s'.now = s.now) : Awake s' where
  notified := fun _ => hpc ▸ asleep_notify s.pc
  spin := fun next hs' => hnow ▸ h.spin next (spin_of_notify (hpc.symm.trans hs'))
  armed := fun next hs' => h.armed next (armed_of_notify (hpc.symm.trans hs'))
  now := hnow ▸ h.now

/-- A step of the worker to a place where it neither sleeps nor spins. -/
theorem Awake.of_moved {s : State} (hnow : 0 ≤ s.now) (hasleep : s.pc.asleep = false)
    (hspin : ∀ next, s.pc ≠ .spin next) (harmed : ∀ next, s.pc ≠ .armed next) : Awake s where
  notified := fun _ => hasleep
  spin := fun next hpc => absurd hpc (hspin next)
  armed := fun next hpc => absurd hpc (harmed next)
  now := hnow

/-- The difference that the worker compares with the threshold wraps around for a
timeout that is long over, and then it does not spin. -/
theorem le_of_wrap_sub_le {now next : Int} (hnow : 0 ≤ now) (hnext : next < 2 ^ 63)
    (h : wrap (next - now) ≤ threshold) : next ≤ now + threshold := by
  by_cases hfits : Representable (next - now)
  · rw [wrap_of_representable hfits] at h
    omega
  · have hthreshold : 0 ≤ threshold := by decide
    rw [Representable] at hfits
    omega

theorem awake_work {s s' : State} (h : Awake s) (hstep : s.work = some s') : Awake s' := by
  have hnow := h.now
  cases hpc : s.pc with
  | idle | blocked next | exited => simp [State.work, hpc] at hstep
  | launch | idleWoken | expired | woken next | running final | taken final task mark =>
    simp only [State.work, hpc] at hstep
    cases hstep
    exact .of_moved hnow rfl (fun _ => Pc.noConfusion) (fun _ => Pc.noConfusion)
  | loop =>
    simp only [State.work, hpc] at hstep
    split at hstep
    · cases hstep
      exact .of_moved hnow rfl (fun _ => Pc.noConfusion) (fun _ => Pc.noConfusion)
    next hterm =>
      -- here the worker may fall asleep
      split at hstep
      next =>
        cases hstep
        exact ⟨fun h => absurd h hterm, fun _ => Pc.noConfusion, fun _ => Pc.noConfusion, hnow⟩
      next m htop =>
        cases hstep
        refine ⟨fun _ => rfl, fun _ => Pc.noConfusion, fun next hs' => ?_, hnow⟩
        cases hs'
        obtain ⟨⟨task, -, rfl⟩, -⟩ := topTimeout_eq_some.1 htop
        exact task.timeout_lt
  | armed next =>
    simp only [State.work, hpc] at hstep
    split at hstep
    next hle =>
      cases hstep
      refine ⟨fun _ => rfl, fun next' hs' => ?_, fun _ => Pc.noConfusion, hnow⟩
      cases hs'
      exact le_of_wrap_sub_le hnow (h.armed next hpc) hle
    next =>
      cases hstep
      exact .of_moved hnow rfl (fun _ => Pc.noConfusion) (fun _ => Pc.noConfusion)
  | spin next =>
    simp only [State.work, hpc] at hstep
    split at hstep
    · cases hstep
    · cases hstep
      exact .of_moved hnow rfl (fun _ => Pc.noConfusion) (fun _ => Pc.noConfusion)
  | check next =>
    simp only [State.work, hpc] at hstep
    split at hstep
    · cases hstep
      exact .of_moved hnow rfl (fun _ => Pc.noConfusion) (fun _ => Pc.noConfusion)
    next hdone =>
      cases hstep
      exact ⟨fun h => absurd (.inl h) hdone, fun _ => Pc.noConfusion, fun _ => Pc.noConfusion, hnow⟩
  | drain final =>
    simp only [State.work, hpc] at hstep
    split at hstep
    · cases hstep
    · cases hstep
      cases final <;>
        exact .of_moved hnow rfl (fun _ => Pc.noConfusion) (fun _ => Pc.noConfusion)

/-- One step keeps the worker awake. -/
theorem awake_step {s s' : State} {a : Act} (h : Awake s) (hstep : step s a = some s') :
    Awake s' := by
  have hnow := h.now
  cases a with
  | tick ns =>
    cases hstep
    refine ⟨h.notified, fun next hpc => ?_, h.armed, show 0 ≤ s.now + ns by omega⟩
    have hle := h.spin next hpc
    show next ≤ s.now + ns + threshold
    omega
  | schedule delta =>
    obtain ⟨-, rfl⟩ := step_schedule hstep
    exact h.notify rfl rfl
  | cancelAll =>
    obtain ⟨-, rfl⟩ := step_cancelAll hstep
    exact h.notify rfl rfl
  | terminate =>
    obtain ⟨-, rfl⟩ := step_terminate hstep
    exact h.notify rfl rfl
  | wake =>
    obtain ⟨-, rfl⟩ := step_wake hstep
    exact h.notify rfl rfl
  | timeout =>
    obtain ⟨next, -, -, rfl⟩ := step_timeout hstep
    exact .of_moved hnow rfl (fun _ => Pc.noConfusion) (fun _ => Pc.noConfusion)
  | work => exact awake_work h hstep
  | take task =>
    obtain ⟨final, -, -, -, rfl⟩ := step_take hstep
    exact .of_moved hnow rfl (fun _ => Pc.noConfusion) (fun _ => Pc.noConfusion)

/-- The worker is awake in every run. -/
theorem awake {start : Int} (hstart : 0 ≤ start) {s : State} (h : (system start).Reachable s) :
    Awake s := by
  refine h.invariant (I := Awake) ?_ fun s a s' _ hs hstep => awake_step hs hstep
  rintro _ rfl
  exact .of_moved hstart rfl (fun _ => Pc.noConfusion) (fun _ => Pc.noConfusion)

/-! ## What the worker still has to do -/

/-- The steps that the worker takes until it looks at `m_terminate` or at the queue
again, and from there to the end. -/
def Pc.rank : Pc → Nat
  | .exited => 0
  | .drain true => 1
  | .loop | .running true => 2
  | .launch | .idle | .idleWoken | .drain false | .taken true _ _ => 3
  | .spin _ | .check _ | .expired | .running false => 4
  | .armed _ | .blocked _ | .woken _ | .taken false _ _ => 5

/-- A bound for the steps of the worker: a task takes three of them. -/
def State.rank (s : State) : Nat := 3 * s.tasks.length + s.pc.rank

/-- A step of the worker. -/
def Act.ofWorker : Act → Bool
  | .timeout | .work | .take _ => true
  | _ => false

/-- A call of `schedule`. -/
def Act.isSchedule : Act → Bool
  | .schedule _ => true
  | _ => false

theorem rank_le (pc : Pc) : pc.rank ≤ 5 := by
  cases pc with
  | drain final | taken final task mark | running final => cases final <;> simp [Pc.rank]
  | _ => simp [Pc.rank]

theorem rank_notify (pc : Pc) : pc.notify.rank = pc.rank := by
  cases pc <;> rfl

theorem rank_work {s s' : State} (hterm : s.terminate = true) (hstep : s.work = some s') :
    s'.rank + 1 ≤ s.rank := by
  have htasks : s'.tasks = s.tasks := by
    rcases work_cases hstep with ⟨final, task, mark, -, rfl⟩ | ⟨pc, -, -, rfl⟩ <;> rfl
  have hpc : s'.pc.rank + 1 ≤ s.pc.rank := by
    cases hpc : s.pc with
    | idle | blocked next | exited => simp [State.work, hpc] at hstep
    | launch | idleWoken | expired | woken next =>
      simp only [State.work, hpc] at hstep
      cases hstep
      exact Nat.le_refl _
    | loop =>
      simp only [State.work, hpc, hterm, if_true] at hstep
      cases hstep
      exact Nat.le_refl _
    | armed next =>
      simp only [State.work, hpc] at hstep
      split at hstep <;> cases hstep <;> exact Nat.le_refl _
    | spin next =>
      simp only [State.work, hpc] at hstep
      split at hstep <;> cases hstep
      exact Nat.le_refl _
    | check next =>
      have hdone : s.waitDone := .inl hterm
      simp only [State.work, hpc, hdone, if_true] at hstep
      cases hstep
      exact Nat.le_refl _
    | drain final =>
      simp only [State.work, hpc] at hstep
      split at hstep
      · cases hstep
      · cases hstep
        cases final <;> exact Nat.le_refl _
    | taken final task mark | running final =>
      simp only [State.work, hpc] at hstep
      cases hstep
      cases final <;> exact Nat.le_refl _
  show 3 * s'.tasks.length + s'.pc.rank + 1 ≤ 3 * s.tasks.length + s.pc.rank
  rw [htasks]
  omega

/-- A step of the worker lowers the rank, and only a new task raises it. -/
theorem rank_step {s s' : State} {a : Act} (hterm : s.terminate = true)
    (hstep : step s a = some s') :
    s'.rank + (if a.ofWorker then 1 else 0) ≤ s.rank + if a.isSchedule then 3 else 0 := by
  cases a with
  | tick ns =>
    cases hstep
    exact Nat.le_refl _
  | schedule delta =>
    obtain ⟨-, rfl⟩ := step_schedule hstep
    show 3 * (s.tasks ++ [_]).length + s.pc.notify.rank ≤ 3 * s.tasks.length + s.pc.rank + 3
    rw [rank_notify, List.length_append, List.length_singleton]
    omega
  | cancelAll =>
    obtain ⟨-, rfl⟩ := step_cancelAll hstep
    show 3 * 0 + s.pc.notify.rank ≤ 3 * s.tasks.length + s.pc.rank
    rw [rank_notify]
    omega
  | terminate =>
    obtain ⟨-, rfl⟩ := step_terminate hstep
    exact Nat.add_le_add_left (Nat.le_of_eq (rank_notify s.pc)) _
  | wake =>
    obtain ⟨-, rfl⟩ := step_wake hstep
    exact Nat.add_le_add_left (Nat.le_of_eq (rank_notify s.pc)) _
  | timeout =>
    obtain ⟨next, hpc, -, rfl⟩ := step_timeout hstep
    show 3 * s.tasks.length + 4 + 1 ≤ 3 * s.tasks.length + s.pc.rank
    rw [hpc]
    exact Nat.le_refl _
  | work => exact rank_work hterm hstep
  | take task =>
    obtain ⟨final, hpc, htop, -, rfl⟩ := step_take hstep
    have hpos := List.length_pos_of_mem htop.1
    have hrank : (s.pop final task).pc.rank = s.pc.rank + 2 := by
      rw [hpc]
      cases final <;> rfl
    show 3 * (s.tasks.erase task).length + (s.pop final task).pc.rank + 1 ≤
      3 * s.tasks.length + s.pc.rank
    rw [hrank, List.length_erase_of_mem htop.1]
    omega

/-- Nothing clears `m_terminate`. -/
theorem terminate_step {s s' : State} {a : Act} (h : s.terminate = true)
    (hstep : step s a = some s') : s'.terminate = true := by
  cases a with
  | tick ns =>
    cases hstep
    exact h
  | schedule delta =>
    obtain ⟨-, rfl⟩ := step_schedule hstep
    exact h
  | cancelAll =>
    obtain ⟨-, rfl⟩ := step_cancelAll hstep
    exact h
  | terminate =>
    obtain ⟨-, rfl⟩ := step_terminate hstep
    rfl
  | wake =>
    obtain ⟨-, rfl⟩ := step_wake hstep
    exact h
  | timeout =>
    obtain ⟨next, -, -, rfl⟩ := step_timeout hstep
    exact h
  | work =>
    rcases work_cases hstep with ⟨final, task, mark, -, rfl⟩ | ⟨pc, -, -, rfl⟩ <;> exact h
  | take task =>
    obtain ⟨final, -, -, -, rfl⟩ := step_take hstep
    exact h

/-! ## The next step of the worker -/

/-- The worker can take its next step after `ns` nanoseconds. -/
def State.ReadyAfter (s : State) (ns : Nat) : Prop :=
  ∃ a, a.ofWorker = true ∧ ∃ s', step { s with now := s.now + ns } a = some s'

theorem State.ReadyAfter.zero {s : State} {a : Act} (ha : a.ofWorker = true)
    (h : ∃ s', step s a = some s') : s.ReadyAfter 0 := by
  have hsame : { s with now := s.now + (0 : Nat) } = s := by simp
  exact ⟨a, ha, hsame.symm ▸ h⟩

/-- A worker that is to terminate waits for nothing but the end of its spinning. -/
theorem readyAfter_of_terminate {s : State} (h : Awake s) (hterm : s.terminate = true)
    (hpc : s.pc ≠ .exited) : ∃ ns : Nat, ns ≤ threshold ∧ s.ReadyAfter ns := by
  have hasleep := h.notified hterm
  have hzero : ((0 : Nat) : Int) ≤ threshold := by decide
  cases hpc' : s.pc with
  | exited => exact absurd hpc' hpc
  | idle | blocked next =>
    rw [hpc'] at hasleep
    cases hasleep
  | spin next =>
    have hle := h.spin next hpc'
    have hdone : ¬ s.now + ((next - s.now).toNat : Int) < next := by omega
    refine ⟨(next - s.now).toNat, by rw [threshold] at hle ⊢; omega, .work, rfl, ?_⟩
    simp only [step, State.work, hpc', hdone, if_false]
    exact ⟨_, rfl⟩
  | drain final =>
    refine ⟨0, hzero, ?_⟩
    by_cases hdue : s.due
    · obtain ⟨m, hm, hle⟩ := hdue
      obtain ⟨⟨task, hmem, rfl⟩, hmin⟩ := topTimeout_eq_some.1 hm
      have htop : IsTop task s.tasks := ⟨hmem, hmin⟩
      refine .zero (a := .take task) rfl ⟨s.pop final task, ?_⟩
      simp only [step, hpc', htop, hle, and_self, if_true]
    · refine .zero (a := .work) rfl ?_
      simp only [step, State.work, hpc', hdue, if_false]
      exact ⟨_, rfl⟩
  | loop =>
    refine ⟨0, hzero, .zero (a := .work) rfl ?_⟩
    simp only [step, State.work, hpc', hterm, if_true]
    exact ⟨_, rfl⟩
  | armed next | check next =>
    refine ⟨0, hzero, .zero (a := .work) rfl ?_⟩
    simp only [step, State.work, hpc']
    split <;> exact ⟨_, rfl⟩
  | launch | idleWoken | woken next | expired | taken final task mark | running final =>
    refine ⟨0, hzero, .zero (a := .work) rfl ?_⟩
    simp only [step, State.work, hpc']
    exact ⟨_, rfl⟩

/-! ## What is left behind -/

/-- The worker has returned: a task has been started or cancelled, or it is still in
the queue and not due. -/
structure Returned (s : State) : Prop where
  exited : s.pc = .exited
  once : (s.tasks.map Task.id ++ (s.started.map (fun e => e.task.id) ++ s.cancelled)).Perm
    (List.range s.nextId)
  notDue : ∀ task ∈ s.tasks, s.now < task.timeout

theorem length_ids_step {s s' : State} {a : Act} (h : s.ids.length = s.nextId)
    (hstep : step s a = some s') : s'.ids.length = s'.nextId := by
  simp only [State.ids, List.length_append, List.length_map] at h ⊢
  cases a with
  | tick ns =>
    cases hstep
    exact h
  | schedule delta =>
    obtain ⟨-, rfl⟩ := step_schedule hstep
    simp only [State.schedule, held_notify, List.length_append, List.length_singleton]
    omega
  | cancelAll =>
    obtain ⟨-, rfl⟩ := step_cancelAll hstep
    simp only [State.cancelAll, held_notify, List.length_append, List.length_map, List.length_nil]
    omega
  | terminate =>
    obtain ⟨-, rfl⟩ := step_terminate hstep
    simpa only [State.stop, held_notify] using h
  | wake =>
    obtain ⟨-, rfl⟩ := step_wake hstep
    simpa only [held_notify] using h
  | timeout =>
    obtain ⟨next, hpc, -, rfl⟩ := step_timeout hstep
    simpa only [hpc, Pc.held] using h
  | work =>
    rcases work_cases hstep with ⟨final, task, mark, hpc, rfl⟩ | ⟨pc, hheld, hheld', rfl⟩
    · simp only [State.begin, hpc, Pc.held, List.length_cons, List.length_nil] at h ⊢
      omega
    · simpa only [hheld, hheld'] using h
  | take task =>
    obtain ⟨final, hpc, htop, -, rfl⟩ := step_take hstep
    have hpos := List.length_pos_of_mem htop.1
    simp only [State.pop, hpc, Pc.held, List.length_cons, List.length_nil,
      List.length_erase_of_mem htop.1] at h ⊢
    omega

/-- The tasks that have been scheduled are those with a number below `nextId`. -/
theorem ids_perm_range {start : Int} {s : State} (h : (system start).Reachable s) :
    s.ids.Perm (List.range s.nextId) := by
  have hinv : Accounted s ∧ s.ids.length = s.nextId := by
    refine h.invariant (I := fun s => Accounted s ∧ s.ids.length = s.nextId) ?_ ?_
    · rintro _ rfl
      exact ⟨⟨List.nodup_nil, fun _ hid => absurd hid List.not_mem_nil⟩, rfl⟩
    · intro s a s' _ hs hstep
      exact ⟨accounted_step hs.1 hstep, length_ids_step hs.2 hstep⟩
  have hsub : s.ids ⊆ List.range s.nextId := fun id hid => List.mem_range.2 (hinv.1.lt id hid)
  refine (hinv.1.nodup.subperm hsub).perm_of_length_le ?_
  exact Nat.le_of_eq ((List.length_range).trans hinv.2.symm)

/-- The worker returns when no task is due. -/
theorem work_exited {s s' : State} (h : s.work = some s') (hpc : s'.pc = .exited) :
    ¬ s.due ∧ s' = { s with pc := .exited } := by
  rcases work_cases h with ⟨final, task, mark, -, rfl⟩ | ⟨pc, -, -, rfl⟩
  · cases hpc
  have hpc' : pc = .exited := hpc
  subst hpc'
  refine ⟨fun hdue => ?_, rfl⟩
  cases hdrain : s.pc with
  | drain final =>
    simp only [State.work, hdrain, hdue, if_true] at h
    cases h
  | loop =>
    simp only [State.work, hdrain] at h
    split at h
    · cases h
    · split at h <;> cases h
  | armed next | spin next | check next =>
    simp only [State.work, hdrain] at h
    split at h <;> cases h
  | launch | idle | idleWoken | blocked next | woken next | expired | taken final task mark
  | running final | exited =>
    simp only [State.work, hdrain] at h
    cases h

/-- The step with which the worker returns. -/
theorem returned_of_exit {start : Int} {s s' : State} (h : (system start).Reachable s)
    (hstep : step s .work = some s') (hpc : s'.pc = .exited) : Returned s' := by
  have hperm := ids_perm_range (.step h hstep)
  obtain ⟨hdue, rfl⟩ := work_exited hstep hpc
  refine ⟨rfl, by simpa only [State.ids, Pc.held, List.map_nil, List.nil_append] using hperm, ?_⟩
  intro task hmem
  rw [← Int.not_le]
  intro hle
  have hlt : ∃ t ∈ s.tasks, t.timeout < s.now + 1 := ⟨task, hmem, Int.lt_add_one_of_le hle⟩
  obtain ⟨m, hm, hlt⟩ := topTimeout_lt.2 hlt
  exact hdue ⟨m, hm, Int.le_of_lt_add_one hlt⟩

/-! ## Runs -/

/-- Once the destructor has set `m_terminate`, the worker takes a bounded number of
steps, of which only a call of `schedule` allows more.  It never sleeps, and it always
takes the next step after at most ten milliseconds.  When it returns, every task has
been started or cancelled, unless it was not due. -/
theorem destructor_returns {start : Int} (hstart : 0 ≤ start) {s s' : State} {acts : List Act}
    (h : (system start).Reachable s) (hterm : s.terminate = true)
    (hrun : System.run step s acts = some s') :
    acts.countP Act.ofWorker ≤ 3 * (s.tasks.length + acts.countP Act.isSchedule) + 5 ∧
      (s'.pc = .exited ∨
        s'.pc.asleep = false ∧ ∃ ns : Nat, ns ≤ threshold ∧ s'.ReadyAfter ns) ∧
      ∀ s'', step s' .work = some s'' → s''.pc = .exited → Returned s'' := by
  have hreach : (system start).Reachable s' := System.reachable_of_run acts h hrun
  have hterm' : s'.terminate = true := System.run_invariant (I := fun s => s.terminate = true)
    (fun _ _ _ => terminate_step) hterm hrun
  refine ⟨?_, ?_, fun s'' => returned_of_exit hreach⟩
  · have hle := System.countP_le_of_rank (I := fun s => s.terminate = true)
      (fun _ _ _ => terminate_step) (fun _ _ _ => rank_step) hterm hrun
    have hrank : s.rank ≤ 3 * s.tasks.length + 5 := Nat.add_le_add_left (rank_le s.pc) _
    omega
  · by_cases hpc : s'.pc = .exited
    · exact .inl hpc
    · have hawake := awake hstart hreach
      exact .inr ⟨hawake.notified hterm', readyAfter_of_terminate hawake hterm' hpc⟩

/-- The worker sleeps until a task of 20 ms is due when the destructor is called.  A
second task is scheduled behind it.  The worker returns after eight steps, in which it
executes the second task, and leaves the other one in the queue. -/
theorem destructor_returns_blocked :
    ∃ s s' acts s'', (system 0).Reachable s ∧ System.run step s acts = some s' ∧
      acts.countP Act.ofWorker = 7 ∧
      acts.countP Act.ofWorker ≤ 3 * (s.tasks.length + acts.countP Act.isSchedule) + 5 ∧
      step s' .work = some s'' ∧ s''.tasks.length = 1 ∧ s''.started.length = 1 ∧ Returned s'' := by
  let task : Task := ⟨0, 20000000, 0, .duration 20000000, by decide⟩
  let behind : Task := ⟨1, 0, 0, .nanoseconds 0, by decide⟩
  let acts : List Act := [.schedule (.nanoseconds 0), .work, .work, .take behind, .work, .work,
    .work, .work]
  have h : (system 0).Reachable ⟨0, [task], true, .woken 20000000, 1, [], []⟩ :=
    System.reachable_of_run
      ([.schedule (.duration 20000000), .work, .work, .work, .work, .terminate] : List Act)
      (.init rfl) (by decide +kernel)
  have hrun : System.run step ⟨0, [task], true, .woken 20000000, 1, [], []⟩ acts =
      some ⟨0, [task], true, .drain true, 2, [⟨behind, 0, [task], 2⟩], []⟩ := by decide +kernel
  have hexit : step ⟨0, [task], true, .drain true, 2, [⟨behind, 0, [task], 2⟩], []⟩ .work =
      some ⟨0, [task], true, .exited, 2, [⟨behind, 0, [task], 2⟩], []⟩ := by decide +kernel
  obtain ⟨hbound, -, hreturned⟩ := destructor_returns (by decide) h rfl hrun
  exact ⟨_, _, _, _, h, hrun, by decide, hbound, hexit, rfl, rfl, hreturned _ hexit rfl⟩

end Mwr.Watchdog
