import Mathlib.Data.List.Induction
import Mathlib.Data.List.Nodup
import Mathlib.Logic.Function.Basic
import Mathlib.Order.Bounds.Basic
import Mwr.CodeLib.Transition

/-!
# Retry loops

Threads that share a cell.  Each of them runs one loop, which reads the cell, computes
another value from what it has read, and puts that there if the cell still holds what has
been read.  It returns what it has read, or starts again.

* `step` is a read or a compare-and-swap of one thread, and `step_cases` is what a step does.
* `Serial` says that the calls that have returned did so one after the other.
* `serial_of_reachable` is the result for every interleaving, and `isLeast_after` what the
  calls leave if each of them selects one of two values.  A value that has changed and changed
  back does no harm, since the new value depends on the old one only.
-/

namespace Mwr.CodeLib.RetryLoop

open Mwr.CodeLib.Transition

variable {ι α : Type}

/-- Where a thread is: before the read, before the compare-and-swap with what it has read,
or behind its call. -/
inductive Pc (α : Type) where
  | read
  | swap (curr : α)
  | returned (result : α)
  deriving DecidableEq, Repr

/-- The cell and the threads. -/
structure State (ι α : Type) where
  cell : α
  pc : ι → Pc α

/-- A step of a thread. -/
inductive Label (ι : Type) where
  | read (i : ι)
  | swap (i : ι)
  deriving DecidableEq, Repr

/-- Before the first step. -/
def State.new (init : α) : State ι α := ⟨init, fun _ => .read⟩

section Steps

variable [DecidableEq ι]

def State.goTo (s : State ι α) (i : ι) (pc : Pc α) : State ι α :=
  { s with pc := Function.update s.pc i pc }

theorem pc_goTo_self (s : State ι α) (i : ι) (pc : Pc α) : (s.goTo i pc).pc i = pc :=
  Function.update_self _ _ _

theorem pc_goTo_of_ne (s : State ι α) {i j : ι} (h : j ≠ i) (pc : Pc α) :
    (s.goTo i pc).pc j = s.pc j :=
  Function.update_of_ne h _ _

variable [DecidableEq α]

/-- One step, where the thread `i` puts `next i curr` in the place of `curr`. -/
def step (next : ι → α → α) (s : State ι α) : Label ι → Option (State ι α)
  | .read i =>
    match s.pc i with
    | .read => some (s.goTo i (.swap s.cell))
    | _ => none
  | .swap i =>
    match s.pc i with
    | .swap curr =>
      if s.cell = curr then some ({ s with cell := next i curr }.goTo i (.returned curr))
      else some (s.goTo i .read)
    | _ => none

def system (next : ι → α → α) (init : α) : System (State ι α) (Label ι) :=
  System.ofStep (State.new init) (step next)

/-- Only a compare-and-swap that succeeds changes the cell. -/
theorem step_cases {next : ι → α → α} {s s' : State ι α} {e : Label ι}
    (h : step next s e = some s') :
    (∃ i pc, (∀ r, s.pc i ≠ .returned r) ∧ (∀ r, pc ≠ .returned r) ∧ s' = s.goTo i pc) ∨
      ∃ i, (∀ r, s.pc i ≠ .returned r) ∧
        s' = { s with cell := next i s.cell }.goTo i (.returned s.cell) := by
  cases e with
  | read i =>
    cases hpc : s.pc i with
    | read =>
      rw [step, hpc] at h
      cases h
      exact .inl ⟨i, .swap s.cell, by rw [hpc]; exact nofun, nofun, rfl⟩
    | swap curr =>
      rw [step, hpc] at h
      cases h
    | returned r =>
      rw [step, hpc] at h
      cases h
  | swap i =>
    cases hpc : s.pc i with
    | read =>
      rw [step, hpc] at h
      cases h
    | swap curr =>
      have hrunning : ∀ r, s.pc i ≠ .returned r := by
        rw [hpc]
        exact nofun
      simp only [step, hpc] at h
      by_cases hcell : s.cell = curr
      · rw [if_pos hcell] at h
        cases h
        exact .inr ⟨i, hrunning, by rw [hcell]⟩
      · rw [if_neg hcell] at h
        cases h
        exact .inl ⟨i, .read, hrunning, nofun, rfl⟩
    | returned r =>
      rw [step, hpc] at h
      cases h

end Steps

/-! ## One call after the other -/

/-- The cell after the calls of some threads, one after the other. -/
def after (next : ι → α → α) (init : α) (order : List ι) : α :=
  order.foldl (fun curr i => next i curr) init

theorem after_concat (next : ι → α → α) (init : α) (order : List ι) (i : ι) :
    after next init (order ++ [i]) = next i (after next init order) := by
  rw [after, List.foldl_append]
  rfl

/-- The threads that have returned did so in this order.  Each of them has returned the
value that the cell had before its own call. -/
structure Serial (next : ι → α → α) (init : α) (s : State ι α) (order : List ι) : Prop where
  nodup : order.Nodup
  mem_iff : ∀ i, i ∈ order ↔ ∃ r, s.pc i = .returned r
  cell : s.cell = after next init order
  result : ∀ before i behind, order = before ++ i :: behind →
    s.pc i = .returned (after next init before)

theorem serial_new (next : ι → α → α) (init : α) : Serial next init (State.new init) [] where
  nodup := List.nodup_nil
  mem_iff := fun _ => iff_of_false List.not_mem_nil nofun
  cell := rfl
  result := by
    intro before i behind h
    cases before <;> cases h

variable [DecidableEq ι] {next : ι → α → α} {init : α} {s s' : State ι α} {order : List ι} {i : ι}

/-- A step that changes neither the cell nor a result. -/
theorem Serial.goTo (h : Serial next init s order) {pc : Pc α}
    (hrunning : ∀ r, s.pc i ≠ .returned r) (hpc : ∀ r, pc ≠ .returned r) :
    Serial next init (s.goTo i pc) order where
  nodup := h.nodup
  mem_iff := by
    intro j
    by_cases hj : j = i
    · subst hj
      rw [h.mem_iff, pc_goTo_self]
      exact iff_of_false (fun ⟨r, hr⟩ => hrunning r hr) fun ⟨r, hr⟩ => hpc r hr
    · rw [h.mem_iff, pc_goTo_of_ne s hj]
  cell := h.cell
  result := by
    intro before j behind horder
    have hresult := h.result before j behind horder
    have hj : j ≠ i := fun hj => hrunning _ (hj ▸ hresult)
    rw [pc_goTo_of_ne s hj, hresult]

/-- A call that returns is the last one so far. -/
theorem Serial.concat (h : Serial next init s order) (hrunning : ∀ r, s.pc i ≠ .returned r) :
    Serial next init ({ s with cell := next i s.cell }.goTo i (.returned s.cell))
      (order ++ [i]) where
  nodup := by
    have hi : i ∉ order := fun hi => by
      obtain ⟨r, hr⟩ := (h.mem_iff i).1 hi
      exact hrunning r hr
    rw [← List.concat_eq_append]
    exact h.nodup.concat hi
  mem_iff := by
    intro j
    rw [List.mem_append, List.mem_singleton]
    by_cases hj : j = i
    · subst hj
      exact iff_of_true (.inr rfl) ⟨_, pc_goTo_self _ _ _⟩
    · rw [pc_goTo_of_ne _ hj, h.mem_iff]
      exact or_iff_left hj
  cell := by
    rw [after_concat, ← h.cell]
    rfl
  result := by
    intro before j behind horder
    rcases List.eq_nil_or_concat behind with rfl | ⟨behind, k, rfl⟩
    · obtain ⟨rfl, heq⟩ := List.append_inj' horder rfl
      cases heq
      rw [pc_goTo_self, h.cell]
    · rw [List.concat_eq_append, ← List.cons_append, ← List.append_assoc] at horder
      obtain ⟨horder, -⟩ := List.append_inj' horder rfl
      have hresult := h.result before j behind horder
      have hj : j ≠ i := fun hj => hrunning _ (hj ▸ hresult)
      rw [pc_goTo_of_ne _ hj]
      exact hresult

variable [DecidableEq α]

theorem Serial.step (h : Serial next init s order) {e : Label ι}
    (hstep : step next s e = some s') : ∃ order', Serial next init s' order' := by
  rcases step_cases hstep with ⟨i, pc, hrunning, hpc, rfl⟩ | ⟨i, hrunning, rfl⟩
  · exact ⟨order, h.goTo hrunning hpc⟩
  · exact ⟨order ++ [i], h.concat hrunning⟩

/-- Whatever the order of the steps, the calls are serial. -/
theorem serial_of_reachable (h : (system next init).Reachable s) :
    ∃ order, Serial next init s order := by
  refine h.invariant (I := fun s => ∃ order, Serial next init s order) ?_ ?_
  · rintro s rfl
    exact ⟨[], serial_new next init⟩
  · rintro s e s' _ ⟨order, hs⟩ hstep
    exact hs.step hstep

/-! ## Selections -/

/-- Every call keeps the old value or takes its own, whichever has the smaller key. -/
def Selects (next : ι → α → α) (vals : ι → α) (key : α → Int) : Prop :=
  ∀ i curr, next i curr = curr ∧ key curr ≤ key (vals i) ∨
    next i curr = vals i ∧ key (vals i) ≤ key curr

omit [DecidableEq ι] [DecidableEq α] in
/-- Calls that select leave the value with the smallest key. -/
theorem isLeast_after {vals : ι → α} {key : α → Int} (hnext : Selects next vals key) (init : α)
    (order : List ι) :
    IsLeast (insert (key init) {k | ∃ i ∈ order, key (vals i) = k})
      (key (after next init order)) := by
  induction order using List.reverseRecOn with
  | nil =>
    refine ⟨.inl rfl, ?_⟩
    rintro k (rfl | ⟨i, hi, -⟩)
    · exact Int.le_refl _
    · cases hi
  | append_singleton order i ih =>
    obtain ⟨hmem, hle⟩ := ih
    rw [after_concat]
    have hold : ∀ k, k ∈ insert (key init) {k | ∃ j ∈ order, key (vals j) = k} →
        k ∈ insert (key init) {k | ∃ j ∈ order ++ [i], key (vals j) = k} := by
      rintro k (rfl | ⟨j, hj, hk⟩)
      · exact .inl rfl
      · exact .inr ⟨j, List.mem_append_left _ hj, hk⟩
    have hnew : ∀ n, n ≤ key (after next init order) → n ≤ key (vals i) →
        n ∈ lowerBounds (insert (key init) {k | ∃ j ∈ order ++ [i], key (vals j) = k}) := by
      rintro n hn hi k (rfl | ⟨j, hj, rfl⟩)
      · exact Int.le_trans hn (hle (.inl rfl))
      · rcases List.mem_append.1 hj with hj | hj
        · exact Int.le_trans hn (hle (.inr ⟨j, hj, rfl⟩))
        · cases List.mem_singleton.1 hj
          exact hi
    rcases hnext i (after next init order) with ⟨heq, hkey⟩ | ⟨heq, hkey⟩
    · rw [heq]
      exact ⟨hold _ hmem, hnew _ (Int.le_refl _) hkey⟩
    · rw [heq]
      exact ⟨.inr ⟨i, List.mem_append_right _ (List.mem_singleton_self i), rfl⟩,
        hnew _ hkey (Int.le_refl _)⟩

omit [DecidableEq ι] [DecidableEq α] in
/-- When all threads have returned, the cell has the smallest key of all. -/
theorem Serial.isLeast {vals : ι → α} {key : α → Int} (h : Serial next init s order)
    (hnext : Selects next vals key) (hall : ∀ i, i ∈ order) :
    IsLeast (insert (key init) (Set.range fun i => key (vals i))) (key s.cell) := by
  have hrange : (Set.range fun i => key (vals i)) = {k | ∃ i ∈ order, key (vals i) = k} := by
    ext k
    exact ⟨fun ⟨i, hi⟩ => ⟨i, hall i, hi⟩, fun ⟨i, _, hi⟩ => ⟨i, hi⟩⟩
  rw [hrange, h.cell]
  exact isLeast_after hnext init order

end Mwr.CodeLib.RetryLoop
