import Mwr.CodeLib.CInt
import Mwr.CodeLib.RetryLoop

/-!
# Atomic minimum and maximum

A translation of `atomic_min` and `atomic_max` of `include/mwr/core/atomics.h`, and of
`atomic_cas` as far as they use it.  Any number of threads run one call each on the same
memory, and a read and a compare-and-swap are one step.

* `retryStep_eq` reduces the threads to the loops of `Mwr.CodeLib.RetryLoop`.
* `atomicMin_atomicMax_linear` is the result for both functions.
-/

namespace Mwr.Atomics

open Mwr.CodeLib
open Mwr.CodeLib.CInt
open Mwr.CodeLib.RetryLoop
open Mwr.CodeLib.Transition

/-! ## The code -/

/-- `__atomic_compare_exchange(ptr, &comp, &newv, ...)`, or the value of
`_InterlockedCompareExchange(ptr, newv, comp) == comp`, with the word behind `ptr`. -/
def compareExchange {w : Nat} (mem comp newv : BitVec w) : BitVec w × Bool :=
  if mem = comp then (newv, true) else (mem, false)

/-- `atomic_cas8(ptr, cmp, val)`. -/
def atomicCas8 (mem cmp val : BitVec 8) : BitVec 8 × Bool := compareExchange mem cmp val

/-- `atomic_cas16(ptr, cmp, val)`. -/
def atomicCas16 (mem cmp val : BitVec 16) : BitVec 16 × Bool := compareExchange mem cmp val

/-- `atomic_cas32(ptr, cmp, val)`. -/
def atomicCas32 (mem cmp val : BitVec 32) : BitVec 32 × Bool := compareExchange mem cmp val

/-- `atomic_cas64(ptr, cmp, val)`. -/
def atomicCas64 (mem cmp val : BitVec 64) : BitVec 64 × Bool := compareExchange mem cmp val

/-- `atomic_cas(ptr, cmp, data)`, by the size of `T`. -/
def atomicCas (T : IntType) (mem cmp data : Value T) : Value T × Bool :=
  match T with
  | ⟨_, .w8⟩ => atomicCas8 mem cmp data
  | ⟨_, .w16⟩ => atomicCas16 mem cmp data
  | ⟨_, .w32⟩ => atomicCas32 mem cmp data
  | ⟨_, .w64⟩ => atomicCas64 mem cmp data

/-- `std::min<T>(a, b)`. -/
def stdMin (T : IntType) (a b : Value T) : Value T := if toInt T b < toInt T a then b else a

/-- `std::max<T>(a, b)`. -/
def stdMax (T : IntType) (a b : Value T) : Value T := if toInt T a < toInt T b then b else a

variable {ι : Type}

section Steps

variable [DecidableEq ι]

/-- A step of the loop that `atomic_min` and `atomic_max` have in common, where `pick` is
`std::min` or `std::max`. -/
def retryStep (T : IntType) (pick : Value T → Value T → Value T) (vals : ι → Value T)
    (s : State ι (Value T)) : Label ι → Option (State ι (Value T))
  | .read i =>
    match s.pc i with
    | .read => some (s.goTo i (.swap s.cell))
    | _ => none
  | .swap i =>
    match s.pc i with
    | .swap curr =>
      let next := pick curr (vals i)
      let (cell, swapped) := atomicCas T s.cell curr next
      if swapped then some ({ s with cell }.goTo i (.returned curr))
      else some ({ s with cell }.goTo i .read)
    | _ => none

/-- `atomic_min(mem, val)`, where the thread `i` calls it with `vals i`. -/
def atomicMin (T : IntType) (vals : ι → Value T) :
    State ι (Value T) → Label ι → Option (State ι (Value T)) :=
  retryStep T (stdMin T) vals

/-- `atomic_max(mem, val)`. -/
def atomicMax (T : IntType) (vals : ι → Value T) :
    State ι (Value T) → Label ι → Option (State ι (Value T)) :=
  retryStep T (stdMax T) vals

/-- All runs of the threads, from a value of the memory. -/
def minSystem (T : IntType) (vals : ι → Value T) (init : Value T) :
    System (State ι (Value T)) (Label ι) :=
  System.ofStep (State.new init) (atomicMin T vals)

def maxSystem (T : IntType) (vals : ι → Value T) (init : Value T) :
    System (State ι (Value T)) (Label ι) :=
  System.ofStep (State.new init) (atomicMax T vals)

end Steps

/-! ## The loops -/

theorem atomicCas_eq (T : IntType) (mem cmp data : Value T) :
    atomicCas T mem cmp data = if mem = cmp then (data, true) else (mem, false) := by
  obtain ⟨signed, width⟩ := T
  cases width <;> rfl

/-- What a call puts in the place of the value that it has read. -/
def nextOf {T : IntType} (pick : Value T → Value T → Value T) (vals : ι → Value T) (i : ι)
    (curr : Value T) : Value T :=
  pick curr (vals i)

theorem retryStep_eq [DecidableEq ι] (T : IntType) (pick : Value T → Value T → Value T)
    (vals : ι → Value T) :
    retryStep T pick vals = RetryLoop.step (nextOf pick vals) := by
  funext s e
  cases e with
  | read i =>
    cases hpc : s.pc i <;> simp only [retryStep, RetryLoop.step, hpc]
  | swap i =>
    cases hpc : s.pc i with
    | read => simp only [retryStep, RetryLoop.step, hpc]
    | returned r => simp only [retryStep, RetryLoop.step, hpc]
    | swap curr =>
      simp only [retryStep, RetryLoop.step, hpc, atomicCas_eq]
      by_cases hcell : s.cell = curr
      · simp only [if_pos hcell, if_true, nextOf]
      · simp only [if_neg hcell, Bool.false_eq_true, if_false]

/-! ## Results -/

section Results

variable {T : IntType}

theorem selects_min (vals : ι → Value T) :
    Selects (nextOf (stdMin T) vals) vals (toInt T) := by
  intro i curr
  unfold nextOf stdMin
  split
  next h => exact .inr ⟨rfl, Int.le_of_lt h⟩
  next h => exact .inl ⟨rfl, Int.not_lt.1 h⟩

theorem selects_max (vals : ι → Value T) :
    Selects (nextOf (stdMax T) vals) vals (fun v => -toInt T v) := by
  intro i curr
  unfold nextOf stdMax
  split
  next h => exact .inr ⟨rfl, Int.neg_le_neg (Int.le_of_lt h)⟩
  next h => exact .inl ⟨rfl, Int.neg_le_neg (Int.not_lt.1 h)⟩

/-- The calls have returned one after the other, and each of them has returned the value that
the memory had immediately before its own update. -/
def Linear (pick : Value T → Value T → Value T) (vals : ι → Value T) (init : Value T)
    (s : State ι (Value T)) : Prop :=
  ∃ order, (∀ i, i ∈ order) ∧ Serial (nextOf pick vals) init s order

/-- A greatest value is one whose negation is least. -/
theorem isGreatest_of_isLeast_neg {a m : Int} {f : ι → Int}
    (h : IsLeast (insert (-a) (Set.range fun i => -f i)) (-m)) :
    IsGreatest (insert a (Set.range f)) m := by
  obtain ⟨hmem, hle⟩ := h
  constructor
  · rcases hmem with heq | ⟨i, hi⟩
    · exact .inl (Int.neg_inj.1 heq)
    · exact .inr ⟨i, Int.neg_inj.1 hi⟩
  · rintro k (rfl | ⟨i, rfl⟩)
    · exact Int.neg_le_neg_iff.1 (hle (.inl rfl))
    · exact Int.neg_le_neg_iff.1 (hle (.inr ⟨i, rfl⟩))

end Results

/-- No update is lost: when all threads have returned, the memory holds the minimum, or the
maximum, of its first value and of all operands, and the calls are linear. -/
theorem atomicMin_atomicMax_linear (T : IntType) [DecidableEq ι] (vals : ι → Value T)
    (init : Value T) (s : State ι (Value T)) (hdone : ∀ i, ∃ r, s.pc i = .returned r) :
    ((minSystem T vals init).Reachable s →
      IsLeast (insert (toInt T init) (Set.range fun i => toInt T (vals i))) (toInt T s.cell) ∧
        Linear (stdMin T) vals init s) ∧
    ((maxSystem T vals init).Reachable s →
      IsGreatest (insert (toInt T init) (Set.range fun i => toInt T (vals i))) (toInt T s.cell) ∧
        Linear (stdMax T) vals init s) := by
  constructor
  · intro h
    rw [minSystem, atomicMin, retryStep_eq] at h
    obtain ⟨order, hserial⟩ := serial_of_reachable h
    have hall : ∀ i, i ∈ order := fun i => (hserial.mem_iff i).2 (hdone i)
    exact ⟨hserial.isLeast (selects_min vals) hall, order, hall, hserial⟩
  · intro h
    rw [maxSystem, atomicMax, retryStep_eq] at h
    obtain ⟨order, hserial⟩ := serial_of_reachable h
    have hall : ∀ i, i ∈ order := fun i => (hserial.mem_iff i).2 (hdone i)
    exact ⟨isGreatest_of_isLeast_neg (hserial.isLeast (selects_max vals) hall), order, hall,
      hserial⟩

/-- The operands of two threads. -/
def sampleVals (v : Value .i32) (i : Bool) : Value .i32 := if i then v else 3#32

/-- Both threads read before one of them writes, so that the other one starts again. -/
def sampleSteps : List (Label Bool) :=
  [.read false, .read true, .swap true, .swap false, .read false, .swap false]

def sampleRun (f : State Bool (Value .i32) → Label Bool → Option (State Bool (Value .i32))) :
    State Bool (Value .i32) :=
  (System.run f (.new 5#32) sampleSteps).getD (.new 0#32)

theorem atomicMin_atomicMax_linear_sample :
    ((sampleRun (atomicMin .i32 (sampleVals (-7#32)))).cell = -7#32 ∧
      Linear (stdMin .i32) (sampleVals (-7#32)) 5#32
        (sampleRun (atomicMin .i32 (sampleVals (-7#32))))) ∧
    (sampleRun (atomicMax .i32 (sampleVals 9#32))).cell = 9#32 ∧
      Linear (stdMax .i32) (sampleVals 9#32) 5#32
        (sampleRun (atomicMax .i32 (sampleVals 9#32))) := by
  have hmin : ∀ i, ∃ r,
      (sampleRun (atomicMin .i32 (sampleVals (-7#32)))).pc i = .returned r := by
    intro i
    cases i <;> exact ⟨_, rfl⟩
  have hmax : ∀ i, ∃ r, (sampleRun (atomicMax .i32 (sampleVals 9#32))).pc i = .returned r := by
    intro i
    cases i <;> exact ⟨_, rfl⟩
  refine ⟨⟨rfl, ?_⟩, rfl, ?_⟩
  · exact ((atomicMin_atomicMax_linear .i32 (sampleVals (-7#32)) 5#32 _ hmin).1
      (System.reachable_of_run sampleSteps (.init rfl) rfl)).2
  · exact ((atomicMin_atomicMax_linear .i32 (sampleVals 9#32) 5#32 _ hmax).2
      (System.reachable_of_run sampleSteps (.init rfl) rfl)).2

end Mwr.Atomics
