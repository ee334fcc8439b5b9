import Mwr.Aio.Posix

/-!
# Handlers of cancelled descriptors

A handler should not be started once `aio_cancel` has returned for its descriptor.
The thread checks that a descriptor is still registered when it collects a batch,
and not when it starts the handlers of the batch.  A cancel that returns in between
is too late, also if it comes from a handler of the same batch.

* `Quiet` is the property of what has happened, and `Timely` the condition on the
  calls of `aio_cancel`.
* `Clean` is the invariant that the condition gives, and `quiet_log` the result about
  runs.
* `exists_not_quiet` says that a call that does not meet the condition goes wrong.
-/

namespace Mwr.Aio.Posix

open Mwr.CodeLib.Transition

variable {H : Type}

/-! ## What has happened -/

/-- A cancel of `fd` has returned, and `fd` has not been registered since. -/
def Cancelled (log : List (Event H)) (fd : Int) : Prop :=
  ∃ later earlier, log = later ++ .cancelled fd :: earlier ∧
    ∀ handler, .registered fd handler ∉ later

/-- Between the return of a cancel and the start of a handler for the same
descriptor, the descriptor has been registered again.  The latest event is first. -/
def Quiet (log : List (Event H)) : Prop :=
  ∀ later between earlier fd handler,
    log = later ++ .started fd handler :: between ++ .cancelled fd :: earlier →
      ∃ handler', .registered fd handler' ∈ between

theorem cancelled_cons {e : Event H} {log : List (Event H)} {fd : Int} :
    Cancelled (e :: log) fd ↔
      e = .cancelled fd ∨ Cancelled log fd ∧ ∀ handler, e ≠ .registered fd handler := by
  constructor
  · rintro ⟨later, earlier, heq, hnone⟩
    cases later with
    | nil =>
      cases heq
      exact .inl rfl
    | cons x later =>
      rw [List.cons_append, List.cons.injEq] at heq
      rcases heq with ⟨rfl, rfl⟩
      refine .inr ⟨⟨later, earlier, rfl, fun handler hmem => ?_⟩, fun handler heq => ?_⟩
      · exact hnone handler (List.mem_cons_of_mem _ hmem)
      · exact hnone handler (by rw [heq]; exact List.mem_cons_self)
  · rintro (rfl | ⟨⟨later, earlier, rfl, hnone⟩, hne⟩)
    · exact ⟨[], log, rfl, fun handler => List.not_mem_nil⟩
    · refine ⟨e :: later, earlier, rfl, fun handler hmem => ?_⟩
      rcases List.mem_cons.mp hmem with heq | hmem
      · exact hne handler heq.symm
      · exact hnone handler hmem

theorem quiet_cons {e : Event H} {log : List (Event H)} :
    Quiet (e :: log) ↔ Quiet log ∧ ∀ fd handler, e = .started fd handler → ¬ Cancelled log fd := by
  constructor
  · intro h
    refine ⟨fun later between earlier fd handler heq => ?_, ?_⟩
    · exact h (e :: later) between earlier fd handler (by rw [heq]; rfl)
    · rintro fd handler rfl ⟨between, earlier, rfl, hnone⟩
      rcases h [] between earlier fd handler rfl with ⟨handler', hmem⟩
      exact hnone handler' hmem
  · rintro ⟨hlog, hstart⟩ later between earlier fd handler heq
    cases later with
    | nil =>
      rw [List.nil_append, List.cons_append, List.cons.injEq] at heq
      rcases heq with ⟨rfl, rfl⟩
      by_contra hnone
      exact hstart fd handler rfl ⟨between, earlier, rfl, not_exists.mp hnone⟩
    | cons x later =>
      rw [List.cons_append, List.cons_append, List.cons.injEq] at heq
      exact hlog later between earlier fd handler heq.2

/-! ## The invariant -/

/-- A cancel returns when no handler for its descriptor is pending. -/
def Timely (s : State H) : Act H → Prop
  | .unlock =>
    match s.owner with
    | some (.call _ (.cancel fd) _) => fd ∉ s.pc.pending.map Prod.fst
    | _ => True
  | _ => True

instance (s : State H) (a : Act H) : Decidable (Timely s a) :=
  match a with
  | .unlock =>
    match h : s.owner with
    | some (.call _ (.cancel fd) _) =>
      decidable_of_iff (fd ∉ s.pc.pending.map Prod.fst) (by simp only [Timely, h])
    | some (.call _ (.notify _ _) _) | some .thread | none => isTrue (by simp only [Timely, h])
  | .lock _ _ | .change | .count | .stop | .work | .rebuild _ | .poll _ | .start | .finish =>
    isTrue trivial

/-- A call of `cancel` that holds the mutex has removed the descriptor. -/
def Erased (s : State H) (fd : Int) : Prop :=
  ∃ caller stage, stage ≠ .entered ∧ s.owner = some (.call caller (.cancel fd) stage)

/-- A cancelled descriptor is neither registered nor pending. -/
structure Clean (s : State H) : Prop where
  quiet : Quiet s.log
  erased : ∀ fd, Erased s fd → fd ∉ s.handlers
  handlers : ∀ fd, Cancelled s.log fd → fd ∉ s.handlers
  pending : ∀ fd, Cancelled s.log fd → fd ∉ s.pc.pending.map Prod.fst

theorem clean_initial : Clean (initial H) where
  quiet := fun later between earlier fd handler heq => by
    have hlen := congrArg List.length heq
    simp [initial] at hlen
  erased := fun fd h => AList.notMem_empty fd
  handlers := fun fd h => AList.notMem_empty fd
  pending := fun fd h => List.not_mem_nil

/-- A step that changes neither the log nor a call keeps the invariant, if it adds no
registration, and only registered handlers to the pending ones. -/
theorem Clean.of_thread {s s' : State H} (h : Clean s) (hlog : s'.log = s.log)
    (howner : ∀ fd, Erased s' fd → Erased s fd) (hhandlers : ∀ fd ∈ s'.handlers, fd ∈ s.handlers)
    (hpending : ∀ e ∈ s'.pc.pending, e ∈ s.pc.pending ∨ e.1 ∈ s.handlers) : Clean s' where
  quiet := by
    rw [hlog]
    exact h.quiet
  erased := fun fd herased hmem => h.erased fd (howner fd herased) (hhandlers fd hmem)
  handlers := fun fd hcancelled hmem => by
    rw [hlog] at hcancelled
    exact h.handlers fd hcancelled (hhandlers fd hmem)
  pending := fun fd hcancelled hmem => by
    rw [hlog] at hcancelled
    rcases List.mem_map.mp hmem with ⟨e, he, rfl⟩
    rcases hpending e he with hold | hregistered
    · exact h.pending e.1 hcancelled (List.mem_map_of_mem hold)
    · exact h.handlers e.1 hcancelled hregistered

theorem clean_work {s s' : State H} (h : Clean s) (hstep : step s .work = some s') : Clean s' := by
  have hnil : ∀ {pc : Pc H}, pc.pending = [] →
      ∀ e ∈ pc.pending, e ∈ s.pc.pending ∨ e.1 ∈ s.handlers := by
    intro pc hpc e he
    rw [hpc] at he
    cases he
  rcases step_work hstep with ⟨pc, rfl, hpc, _⟩ | ⟨_, rfl⟩ | ⟨pc, howner, rfl, hpc, _⟩ |
      ⟨fds, _, rfl⟩
  · exact h.of_thread rfl (fun _ => id) (fun _ => id) (hnil hpc)
  · exact h.of_thread rfl (fun _ => id) (fun _ => id) (hnil rfl)
  · refine h.of_thread rfl ?_ (fun _ => id) (hnil hpc)
    rintro fd ⟨caller, stage, _, hcall⟩
    cases hcall
  · refine h.of_thread rfl ?_ (fun fd hmem => mem_of_mem_collect hmem) ?_
    · rintro fd ⟨caller, stage, _, hcall⟩
      cases hcall
    · rintro ⟨fd, handler⟩ he
      exact .inr (registered_of_mem_collect he)

/-- A call of `notify` or `cancel` changes the map. -/
theorem clean_change {s s' : State H} (h : Clean s) (hstep : step s .change = some s') :
    Clean s' := by
  rcases step_change hstep with ⟨caller, fd, handler, _, rfl⟩ | ⟨caller, fd, _, rfl⟩
  · refine ⟨quiet_cons.mpr ⟨h.quiet, ?_⟩, ?_, ?_, ?_⟩
    · rintro fd' handler' heq
      cases heq
    · rintro fd' ⟨caller', stage, _, hcall⟩
      cases hcall
    · intro fd' hcancelled hmem
      rcases cancelled_cons.mp hcancelled with heq | ⟨hold, hne⟩
      · cases heq
      · rcases (AList.mem_insert _).mp hmem with rfl | hmem
        · exact hne handler rfl
        · exact h.handlers fd' hold hmem
    · intro fd' hcancelled
      rcases cancelled_cons.mp hcancelled with heq | ⟨hold, _⟩
      · cases heq
      · exact h.pending fd' hold
  · refine ⟨h.quiet, ?_, ?_, h.pending⟩
    · rintro fd' ⟨caller', stage, _, hcall⟩
      cases hcall
      intro hmem
      exact (AList.mem_erase.mp hmem).1 rfl
    · intro fd' hcancelled hmem
      exact h.handlers fd' hcancelled (AList.mem_erase.mp hmem).2

/-- A call returns. -/
theorem clean_unlock {s s' : State H} (h : Clean s) (hok : Timely s .unlock)
    (hstep : step s .unlock = some s') : Clean s' := by
  rcases step_unlock hstep with ⟨caller, fd, handler, _, rfl⟩ | ⟨caller, fd, howner, rfl⟩
  · refine h.of_thread rfl ?_ (fun _ => id) (fun _ => .inl)
    rintro fd' ⟨caller', stage, _, hcall⟩
    cases hcall
  · have herased : fd ∉ s.handlers := h.erased fd ⟨caller, .counted, by decide, howner⟩
    have hpending : fd ∉ s.pc.pending.map Prod.fst := by
      simp only [Timely, howner] at hok
      exact hok
    refine ⟨quiet_cons.mpr ⟨h.quiet, ?_⟩, ?_, ?_, ?_⟩
    · rintro fd' handler' heq
      cases heq
    · rintro fd' ⟨caller', stage, _, hcall⟩
      cases hcall
    · intro fd' hcancelled
      rcases cancelled_cons.mp hcancelled with heq | ⟨hold, _⟩
      · cases heq
        exact herased
      · exact h.handlers fd' hold
    · intro fd' hcancelled
      rcases cancelled_cons.mp hcancelled with heq | ⟨hold, _⟩
      · cases heq
        exact hpending
      · exact h.pending fd' hold

/-- The thread starts a handler. -/
theorem clean_start {s s' : State H} (h : Clean s) (hstep : step s .start = some s') :
    Clean s' := by
  rcases step_start hstep with ⟨fd, handler, scheduled, hpc, rfl⟩
  have hpending := h.pending
  rw [hpc] at hpending
  have hcancelled : ∀ {fd'}, Cancelled (.started fd handler :: s.log) fd' →
      Cancelled s.log fd' := by
    intro fd' hcancelled
    rcases cancelled_cons.mp hcancelled with heq | ⟨hold, _⟩
    · cases heq
    · exact hold
  refine ⟨quiet_cons.mpr ⟨h.quiet, ?_⟩, h.erased, fun fd' hc => h.handlers fd' (hcancelled hc), ?_⟩
  · rintro fd' handler' heq hc
    cases heq
    exact hpending fd hc List.mem_cons_self
  · intro fd' hc hmem
    exact hpending fd' (hcancelled hc) (List.mem_cons_of_mem _ hmem)

/-- Every step keeps the invariant, if the cancels are in time. -/
theorem clean_step {s s' : State H} {a : Act H} (h : Clean s) (hok : Timely s a)
    (hstep : step s a = some s') : Clean s' := by
  cases a with
  | lock caller call =>
    rcases step_lock hstep with ⟨r, hlock, rfl⟩
    rcases Registry.lock_eq_some hlock with ⟨_, rfl⟩
    refine h.of_thread rfl ?_ (fun _ => id) (fun _ => .inl)
    rintro fd ⟨caller', stage, hstage, hcall⟩
    cases hcall
    exact absurd rfl hstage
  | change => exact clean_change h hstep
  | count =>
    rcases step_count hstep with ⟨r, hcount, rfl⟩
    rcases Registry.count_eq_some hcount with ⟨caller, call, howner, rfl⟩
    refine h.of_thread rfl ?_ (fun _ => id) (fun _ => .inl)
    rintro fd ⟨caller', stage, _, hcall⟩
    cases hcall
    exact ⟨caller, .changed, by decide, howner⟩
  | unlock => exact clean_unlock h hok hstep
  | stop =>
    cases hstep
    exact h.of_thread rfl (fun _ => id) (fun _ => id) (fun _ => .inl)
  | work => exact clean_work h hstep
  | rebuild order =>
    rcases step_rebuild hstep with ⟨_, _, rfl⟩
    refine h.of_thread rfl ?_ (fun _ => id) (fun _ he => by cases he)
    rintro fd ⟨caller', stage, _, hcall⟩
    cases hcall
  | poll result =>
    rcases step_poll hstep with ⟨_, pc, rfl, hpc, _⟩
    refine h.of_thread rfl (fun _ => id) (fun _ => id) fun e he => ?_
    rw [show pc.pending = [] from hpc] at he
    cases he
  | start => exact clean_start h hstep
  | finish =>
    rcases step_finish hstep with ⟨scheduled, hpc, rfl⟩
    refine h.of_thread rfl (fun _ => id) (fun _ => id) fun e he => .inl ?_
    rw [hpc]
    exact he

/-- In a run whose cancels are in time, no handler is started for a cancelled
descriptor. -/
theorem quiet_log {s : State H} (h : ((system H).restrict Timely).Reachable s) : Quiet s.log := by
  refine (h.invariant (I := Clean) ?_ ?_).quiet
  · rintro s rfl
    exact clean_initial
  · rintro s a s' _ hs ⟨hok, hstep⟩
    exact clean_step hs hok hstep

/-- The handlers of two descriptors are called, and the second one cancels the first
descriptor, which then is polled no more. -/
theorem quiet_log_pair :
    ∃ s : State Unit, s.log = [.started 4 (), .cancelled 3, .started 4 (), .started 3 (),
      .registered 4 (), .registered 3 ()] ∧ Quiet s.log := by
  have hrun : ∃ s, ((system Unit).restrict Timely).Reachable s ∧
      s.log = [.started 4 (), .cancelled 3, .started 4 (), .started 3 (),
        .registered 4 (), .registered 3 ()] :=
    System.exists_reachable_restrict_of_run (callActs .other (.notify 3 ()) ++
      callActs .other (.notify 4 ()) ++ batchActs [3, 4] 1 ++ [.start, .finish, .start] ++
      callActs .handler (.cancel 3) ++ [.finish, .work] ++ batchActs [4] 1 ++ [.start])
      (by decide +kernel)
  rcases hrun with ⟨s, hs, hlog⟩
  exact ⟨s, hlog, quiet_log hs⟩

/-- Two descriptors are ready in one batch, and the handler of the first cancels the
second one.  The handler of the second one is started all the same. -/
theorem started_after_cancel :
    ∃ s, (system Unit).Reachable s ∧ ¬ Quiet s.log := by
  have hrun : ∃ s, (system Unit).Reachable s ∧ s.log =
      [.started 4 (), .cancelled 4, .started 3 (), .registered 4 (), .registered 3 ()] :=
    System.exists_reachable_of_run (callActs .other (.notify 3 ()) ++
      callActs .other (.notify 4 ()) ++ batchActs [3, 4] 1 ++ [.start] ++
      callActs .handler (.cancel 4) ++ [.finish, .start]) (by decide +kernel)
  rcases hrun with ⟨s, hs, hlog⟩
  refine ⟨s, hs, fun hquiet => ?_⟩
  rw [hlog] at hquiet
  rcases hquiet [] [] _ 4 () rfl with ⟨handler, hmem⟩
  cases hmem

/-! ## The condition is exact -/

/-- A pending handler of a cancelled descriptor is started, once the handlers in front
of it have returned. -/
theorem exists_start {s : State H} {fd : Int} {scheduled : Scheduled H}
    (hcancelled : Cancelled s.log fd) (hpc : s.pc = .invoke scheduled) (howner : s.owner = none)
    (hmem : fd ∈ scheduled.map Prod.fst) :
    ∃ es s', System.run step s es = some s' ∧ ¬ Quiet s'.log := by
  induction scheduled generalizing s with
  | nil => cases hmem
  | cons e scheduled ih =>
    rcases e with ⟨fd', handler⟩
    have hstart : step s .start =
        some { s with pc := .handler scheduled, log := .started fd' handler :: s.log } := by
      simp only [step, State.start, hpc]
    by_cases heq : fd' = fd
    · refine ⟨[.start], _, by rw [System.run, hstart]; rfl, fun hquiet => ?_⟩
      exact (quiet_cons.mp hquiet).2 fd' handler rfl (heq ▸ hcancelled)
    · have hlater : Cancelled (.started fd' handler :: s.log) fd :=
        cancelled_cons.mpr (.inr ⟨hcancelled, by rintro handler' ⟨⟩⟩)
      have hrest : fd ∈ scheduled.map Prod.fst := by
        rcases List.mem_cons.mp hmem with h | h
        · exact absurd h.symm heq
        · exact h
      rcases ih (s := { s with pc := .invoke scheduled, log := .started fd' handler :: s.log })
        hlater rfl howner hrest with ⟨es, s', hrun, hnot⟩
      refine ⟨.start :: .finish :: es, s', ?_, hnot⟩
      rw [System.run, hstart, Option.bind_some, System.run]
      show ((State.finish { s with pc := .handler scheduled, log := _ }).bind _) = _
      simp only [State.finish, howner]
      exact hrun

/-- A cancel that is too late goes wrong when the thread goes on. -/
theorem exists_not_quiet {s s' : State H} (hstep : step s .unlock = some s')
    (hlate : ¬ Timely s .unlock) :
    ∃ es s'', System.run step s' es = some s'' ∧ ¬ Quiet s''.log := by
  rcases step_unlock hstep with ⟨caller, fd, handler, howner, _⟩ | ⟨caller, fd, howner, rfl⟩
  · exact absurd (by simp only [Timely, howner]) hlate
  · simp only [Timely, howner, not_not] at hlate
    have hcancelled : Cancelled (.cancelled fd :: s.log) fd := cancelled_cons.mpr (.inl rfl)
    cases hpc : s.pc with
    | invoke scheduled =>
      rw [hpc] at hlate
      exact exists_start hcancelled rfl rfl hlate
    | handler scheduled =>
      rw [hpc] at hlate
      let next : State H :=
        { s with owner := none, pc := .invoke scheduled, log := .cancelled fd :: s.log }
      rcases exists_start (s := next) hcancelled rfl rfl hlate with ⟨es, s'', hrun, hnot⟩
      exact ⟨.finish :: es, s'', hrun, hnot⟩
    | _ =>
      rw [hpc] at hlate
      cases hlate

end Mwr.Aio.Posix
