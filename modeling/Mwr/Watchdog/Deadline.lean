import Mwr.Watchdog.Model

/-!
# The deadline of the timed wait

A worker that is blocked until a deadline should not sleep past the timeout of a
task.  The predicate of the wait looks for a task that is overdue, not for one
that is due before the deadline, so a task that is scheduled during the wait can
be left waiting until the old deadline.

* `OnTime` is the condition on the calls of `schedule` that excludes this, and
  `Punctual` the invariant that then holds.
* `blocked_le` is the result about runs, and `late_of_not_onTime` says that a
  call that does not meet the condition goes wrong in the next two steps of the
  worker.
-/

namespace Mwr.Watchdog

open Mwr.CodeLib.Transition

/-- The deadline of the timed wait, while the worker is in it and the mutex is
free. -/
def Pc.deadline : Pc → Option Int
  | .blocked next | .woken next => some next
  | _ => none

/-- A task that is scheduled during the timed wait is due no earlier than the
deadline, or overdue at once, or the predicate of the wait holds anyway. -/
def OnTime (s : State) : Act → Prop
  | .schedule delta =>
    ∀ next ∈ s.pc.deadline, s.timeoutOf delta < s.now ∨ next ≤ s.timeoutOf delta ∨ s.waitDone
  | _ => True

instance (s : State) (a : Act) : Decidable (OnTime s a) :=
  match a with
  | .schedule delta =>
    inferInstanceAs (Decidable (∀ next ∈ s.pc.deadline,
      s.timeoutOf delta < s.now ∨ next ≤ s.timeoutOf delta ∨ _))
  | .tick _ | .cancelAll | .terminate | .wake | .timeout | .work | .take _ =>
    inferInstanceAs (Decidable True)

/-- No task is due before the time. -/
def NoneBefore (tasks : List Task) (time : Int) : Prop := ∀ t ∈ tasks, time ≤ t.timeout

/-- No task is due before the deadline of the worker, or the worker will find the
predicate of the wait to hold. -/
def Punctual (s : State) : Prop :=
  match s.pc with
  | .armed next | .blocked next => NoneBefore s.tasks next
  | .check next | .woken next => s.waitDone ∨ NoneBefore s.tasks next
  | _ => True

theorem Punctual.of_deadline {s : State} (h : Punctual s) {next : Int}
    (hnext : s.pc.deadline = some next) : s.waitDone ∨ NoneBefore s.tasks next := by
  unfold Punctual at h
  cases hpc : s.pc with
  | blocked n =>
    rw [hpc] at h hnext
    cases hnext
    exact .inr h
  | woken n =>
    rw [hpc] at h hnext
    cases hnext
    exact h
  | _ => rw [hpc] at hnext; cases hnext

/-- After a notification the worker is punctual if its deadline is. -/
theorem Punctual.notify {s : State} {pc : Pc} (hlocked : pc.locked = false)
    (hpc : s.pc = pc.notify)
    (h : ∀ next, pc.deadline = some next → s.waitDone ∨ NoneBefore s.tasks next) :
    Punctual s := by
  unfold Punctual
  rw [hpc]
  cases pc with
  | blocked next => exact h next rfl
  | woken next => exact h next rfl
  | armed next => cases hlocked
  | check next => cases hlocked
  | _ => exact trivial

theorem State.waitDone.mono {s s' : State} (h : s.waitDone) (hterm : s.terminate → s'.terminate)
    (htasks : s.tasks ⊆ s'.tasks) (hnow : s.now ≤ s'.now) : s'.waitDone := by
  rw [State.waitDone_iff] at h ⊢
  rcases h with h | ⟨t, ht, hlt⟩
  · exact .inl (hterm h)
  · exact .inr ⟨t, htasks ht, Int.lt_of_lt_of_le hlt hnow⟩

theorem punctual_schedule {s : State} {delta : Delay} (h : Punctual s)
    (hlocked : s.pc.locked = false) (hok : OnTime s (.schedule delta)) :
    Punctual (s.schedule delta) := by
  refine Punctual.notify hlocked rfl fun next hnext => ?_
  have hmono : s.waitDone → (s.schedule delta).waitDone := fun hdone =>
    hdone.mono id (List.subset_append_left _ _) (Int.le_refl _)
  rcases h.of_deadline hnext with hdone | hnone
  · exact .inl (hmono hdone)
  · rcases hok next hnext with hneg | hle | hdone
    · left
      rw [State.waitDone_iff]
      exact .inr ⟨_, List.mem_append_right _ List.mem_cons_self, hneg⟩
    · right
      intro t ht
      rcases List.mem_append.1 ht with ht | ht
      · exact hnone t ht
      · rw [List.mem_singleton.1 ht]
        exact hle
    · exact .inl (hmono hdone)

theorem punctual_work {s s' : State} (h : Punctual s) (hstep : s.work = some s') :
    Punctual s' := by
  unfold Punctual at h
  cases hpc : s.pc with
  | launch | idleWoken | expired | running final =>
    simp only [State.work, hpc] at hstep
    cases hstep
    exact trivial
  | idle | blocked next | exited => simp [State.work, hpc] at hstep
  | loop =>
    simp only [State.work, hpc] at hstep
    split at hstep
    · cases hstep
      exact trivial
    · split at hstep
      next =>
        cases hstep
        exact trivial
      next m htop =>
        cases hstep
        exact (topTimeout_eq_some.1 htop).2
  | armed next =>
    simp only [hpc] at h
    simp only [State.work, hpc] at hstep
    split at hstep
    · cases hstep
      exact trivial
    · cases hstep
      exact .inr h
  | spin next =>
    simp only [State.work, hpc] at hstep
    split at hstep
    · cases hstep
    · cases hstep
      exact trivial
  | check next =>
    simp only [hpc] at h
    simp only [State.work, hpc] at hstep
    split at hstep
    · cases hstep
      exact trivial
    next hdone =>
      cases hstep
      exact h.resolve_left hdone
  | woken next =>
    simp only [hpc] at h
    simp only [State.work, hpc] at hstep
    cases hstep
    exact h
  | drain final =>
    simp only [State.work, hpc] at hstep
    split at hstep
    · cases hstep
    · cases hstep
      cases final <;> exact trivial
  | taken final task mark =>
    simp only [State.work, hpc] at hstep
    cases hstep
    exact trivial

theorem punctual_tick {s : State} (h : Punctual s) (ns : Nat) :
    Punctual { s with now := s.now + ns } := by
  have hmono : s.waitDone → State.waitDone { s with now := s.now + ns } := fun hdone =>
    hdone.mono id (List.Subset.refl _) (by show s.now ≤ s.now + ns; omega)
  unfold Punctual at h ⊢
  cases hpc : s.pc with
  | armed next | blocked next =>
    simp only [hpc] at h ⊢
    exact h
  | check next | woken next =>
    simp only [hpc] at h ⊢
    exact h.imp_left hmono
  | _ => exact trivial

/-- One step keeps the worker punctual. -/
theorem punctual_step {s s' : State} {a : Act} (h : Punctual s) (hok : OnTime s a)
    (hstep : step s a = some s') : Punctual s' := by
  cases a with
  | tick ns =>
    cases hstep
    exact punctual_tick h ns
  | schedule delta =>
    obtain ⟨hlocked, rfl⟩ := step_schedule hstep
    exact punctual_schedule h hlocked hok
  | cancelAll =>
    obtain ⟨hlocked, rfl⟩ := step_cancelAll hstep
    exact Punctual.notify hlocked rfl fun next _ => .inr fun t ht => absurd ht List.not_mem_nil
  | terminate =>
    obtain ⟨hlocked, rfl⟩ := step_terminate hstep
    exact Punctual.notify hlocked rfl fun next _ => .inl (.inl rfl)
  | wake =>
    obtain ⟨hlocked, rfl⟩ := step_wake hstep
    exact Punctual.notify hlocked rfl fun next hnext => h.of_deadline hnext
  | timeout =>
    obtain ⟨next, -, -, rfl⟩ := step_timeout hstep
    exact trivial
  | work => exact punctual_work h hstep
  | take task =>
    obtain ⟨final, -, -, -, rfl⟩ := step_take hstep
    exact trivial

/-- In a run whose calls of `schedule` are on time, a worker that is blocked in
the timed wait does not sleep past the timeout of a task. -/
theorem blocked_le {start : Int} {s : State} (h : ((system start).restrict OnTime).Reachable s)
    {next : Int} (hpc : s.pc = .blocked next) : ∀ t ∈ s.tasks, next ≤ t.timeout := by
  have hinv : Punctual s := by
    refine h.invariant (I := Punctual) ?_ ?_
    · rintro _ rfl
      exact trivial
    · intro s a s' _ hs hstep
      exact punctual_step hs hstep.1 hstep.2
  unfold Punctual at hinv
  rw [hpc] at hinv
  exact hinv

/-- Two tasks are scheduled while the worker waits for a task of 100 ms: one is due
later, and the other one at once, so that it is executed first. -/
theorem blocked_le_later :
    ∃ s, ((system 0).restrict OnTime).Reachable s ∧ s.pc = .blocked 100000000 ∧
      s.tasks.map Task.timeout = [100000000, 150000000] ∧ s.started.length = 1 ∧
      ∀ t ∈ s.tasks, 100000000 ≤ t.timeout := by
  obtain ⟨s, h, hpc, htasks, hstarted⟩ : ∃ s, ((system 0).restrict OnTime).Reachable s ∧
      s.pc = .blocked 100000000 ∧ s.tasks.map Task.timeout = [100000000, 150000000] ∧
      s.started.length = 1 :=
    System.exists_reachable_restrict_of_run
      ([.schedule (.duration 100000000), .work, .work, .work, .work, .tick 20000000,
        .schedule (.nanoseconds 130000000), .work, .work, .schedule (.duration (-1)), .work, .work,
        .take ⟨2, 19999999, 20000000, .duration (-1), by decide⟩, .work, .work, .work, .work,
        .work, .work] : List Act) (by decide +kernel)
  exact ⟨s, h, hpc, htasks, hstarted, blocked_le h hpc⟩

/-- A worker that waits for a task of 100 ms sleeps on when a task of 50 ms is
scheduled. -/
theorem blocked_past_timeout :
    ∃ s, (system 0).Reachable s ∧ s.pc = .blocked 100000000 ∧
      ∃ t ∈ s.tasks, t.timeout < 100000000 := by
  obtain ⟨s, h, hpc, hlate⟩ : ∃ s, (system 0).Reachable s ∧ s.pc = .blocked 100000000 ∧
      ∃ t ∈ s.tasks, t.timeout < 100000000 :=
    System.exists_reachable_of_run
      ([.schedule (.duration 100000000), .work, .work, .work, .work,
        .schedule (.duration 50000000), .work, .work] : List Act) (by decide +kernel)
  exact ⟨s, h, hpc, hlate⟩

/-- A call of `schedule` during the timed wait that is not on time makes the
worker sleep past the new timeout. -/
theorem late_of_not_onTime {s : State} {delta : Delay} {next : Int}
    (hpc : s.pc.deadline = some next) (h : ¬ OnTime s (.schedule delta)) :
    ∃ s', System.run step s [.schedule delta, .work, .work] = some s' ∧
      s'.pc = .blocked next ∧ ∃ t ∈ s'.tasks, t.timeout < next := by
  have hnot : ¬ (s.timeoutOf delta < s.now ∨ next ≤ s.timeoutOf delta ∨ s.waitDone) := fun hon =>
    h fun m hm => by
      rw [Option.mem_def, hpc, Option.some.injEq] at hm
      exact hm ▸ hon
  rw [not_or, not_or] at hnot
  obtain ⟨hdelta, hbefore, hdone⟩ := hnot
  have hwoken : s.pc.locked = false ∧ s.pc.notify = .woken next := by
    cases hs : s.pc <;> rw [hs] at hpc <;> cases hpc <;> exact ⟨rfl, rfl⟩
  have hcheck : ¬ State.waitDone { s.schedule delta with pc := .check next } := by
    rw [State.waitDone_iff] at hdone ⊢
    rintro (hterm | ⟨t, ht, hlt⟩)
    · exact hdone (.inl hterm)
    · rcases List.mem_append.1 ht with ht | ht
      · exact hdone (.inr ⟨t, ht, hlt⟩)
      · rw [List.mem_singleton.1 ht] at hlt
        exact hdelta hlt
  refine ⟨{ s.schedule delta with pc := .blocked next }, ?_, rfl,
    ⟨s.nextId, s.timeoutOf delta, s.now, delta, rfl⟩,
    List.mem_append_right _ List.mem_cons_self, Int.not_le.1 hbefore⟩
  have h₁ : step s (.schedule delta) = some { s.schedule delta with pc := .woken next } := by
    rw [step, hwoken.1, ← hwoken.2]
    rfl
  have h₂ : step { s.schedule delta with pc := .woken next } .work =
      some { s.schedule delta with pc := .check next } := rfl
  have h₃ : step { s.schedule delta with pc := .check next } .work =
      some { s.schedule delta with pc := .blocked next } := if_neg hcheck
  simp only [System.run, h₁, h₂, h₃, Option.bind_some]

end Mwr.Watchdog
