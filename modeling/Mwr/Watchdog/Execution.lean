import Mathlib.Data.List.Nodup
import Mwr.Watchdog.Model

/-!
# Which tasks are executed, and when

The worker drops the mutex between popping a task and running it, so what another
thread does in between has to be reckoned with.

* `State.ids` lists every task that has been scheduled in the one place where it
  is: in the queue, popped, started or cancelled.  A step only moves a task from
  one place to another, which gives `Accounted`.
* `Ordered` says which tasks may be queued with an earlier timeout than a task
  that has been popped: those that another thread has scheduled since, into the
  past.
* `started_spec` is the result about runs.
-/

namespace Mwr.Watchdog

open Mwr.CodeLib.Transition

/-! ## Every task in one place -/

/-- The task that has been popped and not yet started. -/
def Pc.held : Pc → List Task
  | .taken _ task _ => [task]
  | _ => []

/-- The tasks that have been scheduled: queued, popped, started or cancelled. -/
def State.ids (s : State) : List Nat :=
  s.tasks.map Task.id ++ (s.pc.held.map Task.id ++
    (s.started.map (fun e => e.task.id) ++ s.cancelled))

/-- No task is in two places. -/
structure Accounted (s : State) : Prop where
  nodup : s.ids.Nodup
  lt : ∀ id ∈ s.ids, id < s.nextId

theorem Accounted.of_perm {s s' : State} (h : Accounted s) (hperm : s'.ids.Perm s.ids)
    (hnext : s'.nextId = s.nextId) : Accounted s' where
  nodup := hperm.nodup_iff.2 h.nodup
  lt := fun id hid => hnext ▸ h.lt id (hperm.mem_iff.1 hid)

/-- A step that moves no task. -/
theorem Accounted.of_ids {s s' : State} (h : Accounted s) (hids : s'.ids = s.ids)
    (hnext : s'.nextId = s.nextId) : Accounted s' :=
  h.of_perm (hids ▸ .refl _) hnext

/-- The worker calls `task()`. -/
def State.begin (s : State) (final : Bool) (task : Task) (mark : Nat) : State :=
  { s with pc := .running final, started := ⟨task, s.now, s.tasks, mark⟩ :: s.started }

/-- A step of the worker starts the task that it has popped, or changes nothing
but its own position. -/
theorem work_cases {s s' : State} (h : s.work = some s') :
    (∃ final task mark, s.pc = .taken final task mark ∧ s' = s.begin final task mark) ∨
      ∃ pc, s.pc.held = [] ∧ pc.held = [] ∧ s' = { s with pc := pc } := by
  cases hpc : s.pc with
  | taken final task mark =>
    simp only [State.work, hpc] at h
    cases h
    exact .inl ⟨final, task, mark, rfl, rfl⟩
  | idle | blocked next | exited => simp [State.work, hpc] at h
  | launch | idleWoken | expired | woken next | running final =>
    simp only [State.work, hpc] at h
    cases h
    exact .inr ⟨_, rfl, rfl, rfl⟩
  | loop =>
    simp only [State.work, hpc] at h
    split at h
    · cases h
      exact .inr ⟨_, rfl, rfl, rfl⟩
    · split at h <;> cases h <;> exact .inr ⟨_, rfl, rfl, rfl⟩
  | armed next | check next =>
    simp only [State.work, hpc] at h
    split at h <;> cases h <;> exact .inr ⟨_, rfl, rfl, rfl⟩
  | spin next =>
    simp only [State.work, hpc] at h
    split at h
    · cases h
    · cases h
      exact .inr ⟨_, rfl, rfl, rfl⟩
  | drain final =>
    simp only [State.work, hpc] at h
    split at h
    · cases h
    · cases h
      cases final <;> exact .inr ⟨_, rfl, rfl, rfl⟩

theorem held_notify (pc : Pc) : pc.notify.held = pc.held := by
  cases pc <;> rfl

theorem accounted_schedule {s : State} (h : Accounted s) (delta : Delay) :
    Accounted (s.schedule delta) := by
  have hperm : (s.schedule delta).ids.Perm (s.nextId :: s.ids) := by
    simp only [State.ids, State.schedule, held_notify, List.map_append, List.map_cons,
      List.map_nil, List.append_assoc, List.singleton_append]
    exact List.perm_middle
  constructor
  · rw [hperm.nodup_iff, List.nodup_cons]
    exact ⟨fun hmem => Nat.lt_irrefl _ (h.lt _ hmem), h.nodup⟩
  · intro id hid
    show id < s.nextId + 1
    rcases List.mem_cons.1 (hperm.mem_iff.1 hid) with rfl | hid
    · exact Nat.lt_succ_self _
    · exact Nat.lt_succ_of_lt (h.lt id hid)

theorem accounted_cancelAll {s : State} (h : Accounted s) : Accounted s.cancelAll := by
  refine h.of_perm ?_ rfl
  simp only [State.ids, State.cancelAll, held_notify, List.map_nil, List.nil_append]
  have hstarted := List.perm_append_comm_assoc (s.started.map fun e => e.task.id)
    (s.tasks.map Task.id) s.cancelled
  exact (hstarted.append_left _).trans (List.perm_append_comm_assoc _ _ _)

theorem accounted_pop {s : State} (h : Accounted s) {final : Bool} (hpc : s.pc = .drain final)
    {task : Task} (hmem : task ∈ s.tasks) : Accounted (s.pop final task) := by
  refine h.of_perm ?_ rfl
  have hperm : (s.tasks.map Task.id).Perm (task.id :: (s.tasks.erase task).map Task.id) :=
    (List.perm_cons_erase hmem).map Task.id
  simp only [State.ids, State.pop, hpc, Pc.held, List.map_cons, List.map_nil, List.nil_append,
    List.singleton_append]
  exact List.perm_middle.trans (hperm.symm.append_right _)

theorem accounted_work {s s' : State} (h : Accounted s) (hstep : s.work = some s') :
    Accounted s' := by
  rcases work_cases hstep with ⟨final, task, mark, hpc, rfl⟩ | ⟨pc, hheld, hheld', rfl⟩
  · refine h.of_ids ?_ rfl
    simp only [State.ids, State.begin, hpc, Pc.held, List.map_cons, List.map_nil, List.nil_append,
      List.cons_append]
  · refine h.of_ids ?_ rfl
    simp only [State.ids, hheld, hheld']

/-- One step keeps every task in one place. -/
theorem accounted_step {s s' : State} {a : Act} (h : Accounted s) (hstep : step s a = some s') :
    Accounted s' := by
  cases a with
  | tick ns =>
    cases hstep
    exact h.of_ids rfl rfl
  | schedule delta =>
    obtain ⟨-, rfl⟩ := step_schedule hstep
    exact accounted_schedule h delta
  | cancelAll =>
    obtain ⟨-, rfl⟩ := step_cancelAll hstep
    exact accounted_cancelAll h
  | terminate =>
    obtain ⟨-, rfl⟩ := step_terminate hstep
    exact h.of_ids (by simp only [State.ids, State.stop, held_notify]) rfl
  | wake =>
    obtain ⟨-, rfl⟩ := step_wake hstep
    exact h.of_ids (by simp only [State.ids, held_notify]) rfl
  | timeout =>
    obtain ⟨next, hpc, -, rfl⟩ := step_timeout hstep
    exact h.of_ids (by simp only [State.ids, hpc, Pc.held]) rfl
  | work => exact accounted_work h hstep
  | take task =>
    obtain ⟨final, hpc, htop, -, rfl⟩ := step_take hstep
    exact accounted_pop h hpc htop.1

/-! ## The order of execution -/

/-- A queued task with an earlier timeout was scheduled when there were `mark` tasks
or more, and with a negative delay, unless its timeout has wrapped around. -/
def Ordered (task : Task) (mark : Nat) (queued : List Task) : Prop :=
  ∀ other ∈ queued, other.timeout < task.timeout →
    mark ≤ other.id ∧ (Representable other.asked → other.delta.asked < 0)

theorem Ordered.subset {task : Task} {mark : Nat} {queued queued' : List Task}
    (h : Ordered task mark queued) (hsub : queued' ⊆ queued) : Ordered task mark queued' :=
  fun other hother hlt => h other (hsub hother) hlt

/-- What is queued when a task is popped is due no earlier. -/
theorem IsTop.ordered {task : Task} {tasks : List Task} (h : IsTop task tasks) (mark : Nat) :
    Ordered task mark (tasks.erase task) := by
  intro other hother hlt
  have hle : task.timeout ≤ other.timeout := h.2 other (List.mem_of_mem_erase hother)
  exact absurd hle (Int.not_le.2 hlt)

/-- A task that is due stays in order when another one is scheduled. -/
theorem Ordered.schedule {s : State} {task : Task} {mark : Nat} (h : Ordered task mark s.tasks)
    (hdue : task.timeout ≤ s.now) (hmark : mark ≤ s.nextId) (delta : Delay) :
    Ordered task mark (s.schedule delta).tasks := by
  intro other hother hlt
  rcases List.mem_append.1 hother with hother | hother
  · exact h other hother hlt
  · rw [List.mem_singleton.1 hother] at hlt ⊢
    refine ⟨hmark, fun hfits => ?_⟩
    rw [Task.timeout_of_representable hfits] at hlt
    have hlt' : s.now + delta.asked < task.timeout := hlt
    show delta.asked < 0
    omega

/-- A task that has been popped is due, and so was every task that has been
started. -/
structure Orderly (s : State) : Prop where
  taken : ∀ final task mark, s.pc = .taken final task mark →
    task.timeout ≤ s.now ∧ mark ≤ s.nextId ∧ Ordered task mark s.tasks
  started : ∀ e ∈ s.started, e.task.timeout ≤ e.time ∧ Ordered e.task e.mark e.queued

theorem taken_of_notify {pc : Pc} {final : Bool} {task : Task} {mark : Nat}
    (h : pc.notify = .taken final task mark) : pc = .taken final task mark := by
  cases pc with
  | idle | blocked next => cases h
  | _ => exact h

/-- A step that starts, pops and schedules nothing. -/
theorem Orderly.mono {s s' : State} (h : Orderly s) (hstarted : s'.started = s.started)
    (hpc : ∀ final task mark, s'.pc = .taken final task mark → s.pc = .taken final task mark)
    (hnow : s.now ≤ s'.now) (hnext : s'.nextId = s.nextId) (htasks : s'.tasks ⊆ s.tasks) :
    Orderly s' where
  taken := by
    intro final task mark hs'
    obtain ⟨hdue, hmark, hord⟩ := h.taken final task mark (hpc final task mark hs')
    exact ⟨Int.le_trans hdue hnow, hnext ▸ hmark, hord.subset htasks⟩
  started := hstarted ▸ h.started

theorem orderly_schedule {s : State} (h : Orderly s) (delta : Delay) :
    Orderly (s.schedule delta) where
  taken := by
    intro final task mark hs'
    obtain ⟨hdue, hmark, hord⟩ := h.taken final task mark (taken_of_notify hs')
    exact ⟨hdue, Nat.le_succ_of_le hmark, hord.schedule hdue hmark delta⟩
  started := h.started

theorem orderly_pop {s : State} (h : Orderly s) {final : Bool} {task : Task}
    (htop : IsTop task s.tasks) (hdue : task.timeout ≤ s.now) : Orderly (s.pop final task) where
  taken := by
    intro final' task' mark' hs'
    cases hs'
    exact ⟨hdue, Nat.le_refl _, htop.ordered _⟩
  started := h.started

theorem orderly_begin {s : State} (h : Orderly s) {final : Bool} {task : Task} {mark : Nat}
    (hpc : s.pc = .taken final task mark) : Orderly (s.begin final task mark) where
  taken := by
    intro final' task' mark' hs'
    cases hs'
  started := by
    intro e he
    rcases List.mem_cons.1 he with rfl | he
    · obtain ⟨hdue, -, hord⟩ := h.taken final task mark hpc
      exact ⟨hdue, hord⟩
    · exact h.started e he

/-- One step keeps the tasks in order. -/
theorem orderly_step {s s' : State} {a : Act} (h : Orderly s) (hstep : step s a = some s') :
    Orderly s' := by
  cases a with
  | tick ns =>
    cases hstep
    exact h.mono rfl (fun _ _ _ => id) (show s.now ≤ s.now + ns by omega) rfl
      (List.Subset.refl _)
  | schedule delta =>
    obtain ⟨-, rfl⟩ := step_schedule hstep
    exact orderly_schedule h delta
  | cancelAll =>
    obtain ⟨-, rfl⟩ := step_cancelAll hstep
    exact h.mono rfl (fun _ _ _ => taken_of_notify) (Int.le_refl _) rfl (List.nil_subset _)
  | terminate =>
    obtain ⟨-, rfl⟩ := step_terminate hstep
    exact h.mono rfl (fun _ _ _ => taken_of_notify) (Int.le_refl _) rfl (List.Subset.refl _)
  | wake =>
    obtain ⟨-, rfl⟩ := step_wake hstep
    exact h.mono rfl (fun _ _ _ => taken_of_notify) (Int.le_refl _) rfl (List.Subset.refl _)
  | timeout =>
    obtain ⟨next, -, -, rfl⟩ := step_timeout hstep
    exact h.mono rfl (fun _ _ _ => Pc.noConfusion) (Int.le_refl _) rfl (List.Subset.refl _)
  | work =>
    rcases work_cases hstep with ⟨final, task, mark, hpc, rfl⟩ | ⟨pc, -, hheld, rfl⟩
    · exact orderly_begin h hpc
    · refine h.mono rfl (fun final task mark hpc => ?_) (Int.le_refl _) rfl (List.Subset.refl _)
      rw [show pc = .taken final task mark from hpc] at hheld
      cases hheld
  | take task =>
    obtain ⟨final, -, htop, hdue, rfl⟩ := step_take hstep
    exact orderly_pop h htop hdue

/-! ## Runs -/

/-- Every task is started at most once, not after it has been cancelled in the queue,
and not before its timeout, which is the time that the caller has asked for if
`clock_t` can represent it.  No task is taken from the queue while one with an earlier
timeout is in it.  A task that is queued when a task with a later timeout is started
has been scheduled since that one was taken, with a negative delay. -/
theorem started_spec {start : Int} {s : State} (h : (system start).Reachable s) :
    (s.started.map fun e => e.task.id).Nodup ∧
      (∀ e ∈ s.started, e.task.id ∉ s.cancelled ∧ e.task.timeout ≤ e.time ∧
        (Representable e.task.asked → e.task.asked ≤ e.time) ∧
        Ordered e.task e.mark e.queued) ∧
      ∀ task s', step s (.take task) = some s' →
        task ∈ s.tasks ∧ ∀ other ∈ s.tasks, task.timeout ≤ other.timeout := by
  have hinv : Accounted s ∧ Orderly s := by
    refine h.invariant (I := fun s => Accounted s ∧ Orderly s) ?_ ?_
    · rintro _ rfl
      exact ⟨⟨List.nodup_nil, fun _ hid => absurd hid List.not_mem_nil⟩,
        ⟨fun _ _ _ hpc => Pc.noConfusion hpc, fun _ he => absurd he List.not_mem_nil⟩⟩
    · intro s a s' _ hs hstep
      exact ⟨accounted_step hs.1 hstep, orderly_step hs.2 hstep⟩
  have hnodup := hinv.1.nodup.of_append_right.of_append_right
  refine ⟨hnodup.of_append_left, fun e he => ?_, fun task s' hstep => ?_⟩
  · obtain ⟨hdue, hord⟩ := hinv.2.started e he
    refine ⟨List.disjoint_of_nodup_append hnodup (List.mem_map_of_mem he), hdue, ?_, hord⟩
    exact fun hfits => Task.timeout_of_representable hfits ▸ hdue
  · obtain ⟨final, -, htop, -, -⟩ := step_take hstep
    exact htop

/-- A task of 5 ns is started and another one is cancelled, and a third one is about to
be taken before the one that was scheduled first. -/
theorem started_spec_three :
    ∃ s, (system 0).Reachable s ∧ s.started.length = 1 ∧ s.tasks.length = 2 ∧
      (s.started.map fun e => e.task.id).Nodup ∧
      (∀ e ∈ s.started, e.task.id ∉ s.cancelled ∧ e.task.timeout ≤ e.time ∧
        (Representable e.task.asked → e.task.asked ≤ e.time) ∧
        Ordered e.task e.mark e.queued) ∧
      ∀ task s', step s (.take task) = some s' →
        task ∈ s.tasks ∧ ∀ other ∈ s.tasks, task.timeout ≤ other.timeout := by
  obtain ⟨s, h, hstarted, htasks⟩ : ∃ s, (system 0).Reachable s ∧ s.started.length = 1 ∧
      s.tasks.length = 2 :=
    System.exists_reachable_of_run
      ([.schedule (.duration 5), .schedule (.nanoseconds 20), .work, .work, .work, .tick 7, .work,
        .take ⟨0, 5, 0, .duration 5, by decide⟩, .cancelAll, .work, .schedule (.duration 9),
        .schedule (.duration 3), .tick 10, .work] : List Act) (by decide +kernel)
  exact ⟨s, h, hstarted, htasks, started_spec h⟩

/-- A task is started while one with an earlier timeout is in the queue. -/
theorem started_out_of_order :
    ∃ s, (system 0).Reachable s ∧
      ∃ e ∈ s.started, ∃ other ∈ e.queued, other.timeout < e.task.timeout := by
  obtain ⟨s, h, hlate⟩ : ∃ s, (system 0).Reachable s ∧
      ∃ e ∈ s.started, ∃ other ∈ e.queued, other.timeout < e.task.timeout :=
    System.exists_reachable_of_run
      ([.schedule (.duration 5), .work, .work, .work, .tick 10, .work,
        .take ⟨0, 5, 0, .duration 5, by decide⟩, .schedule (.duration (-8)), .work] : List Act)
      (by decide +kernel)
  exact ⟨s, h, hlate⟩

end Mwr.Watchdog
