import Mwr.CodeLib.Linearizable
import Mwr.Core.Atomics

/-!
# Atomic operations

A translation of `read_once`, `write_once` and the operations `atomic_and` to `atomic_max` of
`include/mwr/core/atomics.h` on one word, for any number of threads that call any of them
again and again.  A built-in of the compiler is one step, and so is a load or a store.

* `atomicAnd` to `atomicSwap` carry their operand through the type of the functions with a size,
  and `atomicAnd_eq` to `atomicSwap_eq` say what remains of it.
* `Op.apply` is the meaning of an operation that no other thread disturbs.
* `atomics_linearizable` is the result for all of them together.
-/

namespace Mwr.Atomics

open Mwr.CodeLib
open Mwr.CodeLib.CInt
open Mwr.CodeLib.Linearizable
open Mwr.CodeLib.Transition

/-! ## The code -/

/-- `__atomic_fetch_op(mem, val, __ATOMIC_SEQ_CST)`, with the word behind `mem`. -/
def fetch {w : Nat} (f : BitVec w → BitVec w → BitVec w) (mem val : BitVec w) :
    BitVec w × BitVec w :=
  (f mem val, mem)

def atomicAnd8 : BitVec 8 → BitVec 8 → BitVec 8 × BitVec 8 := fetch (· &&& ·)
def atomicAnd16 : BitVec 16 → BitVec 16 → BitVec 16 × BitVec 16 := fetch (· &&& ·)
def atomicAnd32 : BitVec 32 → BitVec 32 → BitVec 32 × BitVec 32 := fetch (· &&& ·)
def atomicAnd64 : BitVec 64 → BitVec 64 → BitVec 64 × BitVec 64 := fetch (· &&& ·)

def atomicOr8 : BitVec 8 → BitVec 8 → BitVec 8 × BitVec 8 := fetch (· ||| ·)
def atomicOr16 : BitVec 16 → BitVec 16 → BitVec 16 × BitVec 16 := fetch (· ||| ·)
def atomicOr32 : BitVec 32 → BitVec 32 → BitVec 32 × BitVec 32 := fetch (· ||| ·)
def atomicOr64 : BitVec 64 → BitVec 64 → BitVec 64 × BitVec 64 := fetch (· ||| ·)

def atomicXor8 : BitVec 8 → BitVec 8 → BitVec 8 × BitVec 8 := fetch (· ^^^ ·)
def atomicXor16 : BitVec 16 → BitVec 16 → BitVec 16 × BitVec 16 := fetch (· ^^^ ·)
def atomicXor32 : BitVec 32 → BitVec 32 → BitVec 32 × BitVec 32 := fetch (· ^^^ ·)
def atomicXor64 : BitVec 64 → BitVec 64 → BitVec 64 × BitVec 64 := fetch (· ^^^ ·)

def atomicAdd8 : BitVec 8 → BitVec 8 → BitVec 8 × BitVec 8 := fetch (· + ·)
def atomicAdd16 : BitVec 16 → BitVec 16 → BitVec 16 × BitVec 16 := fetch (· + ·)
def atomicAdd32 : BitVec 32 → BitVec 32 → BitVec 32 × BitVec 32 := fetch (· + ·)
def atomicAdd64 : BitVec 64 → BitVec 64 → BitVec 64 × BitVec 64 := fetch (· + ·)

/-- `__atomic_exchange_n(mem, val, __ATOMIC_SEQ_CST)`. -/
def atomicSwap8 : BitVec 8 → BitVec 8 → BitVec 8 × BitVec 8 := fetch fun _ val => val
def atomicSwap16 : BitVec 16 → BitVec 16 → BitVec 16 × BitVec 16 := fetch fun _ val => val
def atomicSwap32 : BitVec 32 → BitVec 32 → BitVec 32 × BitVec 32 := fetch fun _ val => val
def atomicSwap64 : BitVec 64 → BitVec 64 → BitVec 64 × BitVec 64 := fetch fun _ val => val

/-- `atomic_op<T>(mem, val)`: the operand is converted to `u64`, or to `i64` if `viaSigned`, and
by `atomic_op(mem, val, sizeof(T))` to the type of the function of that size.  The result
takes the way back. -/
def bySize (viaSigned : Bool) (op8 : BitVec 8 → BitVec 8 → BitVec 8 × BitVec 8)
    (op16 : BitVec 16 → BitVec 16 → BitVec 16 × BitVec 16)
    (op32 : BitVec 32 → BitVec 32 → BitVec 32 × BitVec 32)
    (op64 : BitVec 64 → BitVec 64 → BitVec 64 × BitVec 64)
    (T : IntType) (mem val : Value T) : Value T × Value T :=
  let wide : Value ⟨viaSigned, .w64⟩ := castTo T val 64
  match T with
  | ⟨_, .w8⟩ =>
    let (mem, old) := op8 mem (castTo ⟨viaSigned, .w64⟩ wide 8)
    (mem, castTo ⟨viaSigned, .w64⟩ (castTo ⟨viaSigned, .w8⟩ old 64) 8)
  | ⟨_, .w16⟩ =>
    let (mem, old) := op16 mem (castTo ⟨viaSigned, .w64⟩ wide 16)
    (mem, castTo ⟨viaSigned, .w64⟩ (castTo ⟨viaSigned, .w16⟩ old 64) 16)
  | ⟨_, .w32⟩ =>
    let (mem, old) := op32 mem (castTo ⟨viaSigned, .w64⟩ wide 32)
    (mem, castTo ⟨viaSigned, .w64⟩ (castTo ⟨viaSigned, .w32⟩ old 64) 32)
  | ⟨_, .w64⟩ =>
    let (mem, old) := op64 mem (castTo ⟨viaSigned, .w64⟩ wide 64)
    (mem, castTo ⟨viaSigned, .w64⟩ (castTo ⟨viaSigned, .w64⟩ old 64) 64)

/-- `atomic_and(mem, val)`. -/
def atomicAnd (T : IntType) : Value T → Value T → Value T × Value T :=
  bySize false atomicAnd8 atomicAnd16 atomicAnd32 atomicAnd64 T

/-- `atomic_or(mem, val)`. -/
def atomicOr (T : IntType) : Value T → Value T → Value T × Value T :=
  bySize false atomicOr8 atomicOr16 atomicOr32 atomicOr64 T

/-- `atomic_xor(mem, val)`. -/
def atomicXor (T : IntType) : Value T → Value T → Value T × Value T :=
  bySize false atomicXor8 atomicXor16 atomicXor32 atomicXor64 T

/-- `atomic_add(mem, val)`. -/
def atomicAdd (T : IntType) : Value T → Value T → Value T × Value T :=
  bySize true atomicAdd8 atomicAdd16 atomicAdd32 atomicAdd64 T

/-- `atomic_swap(mem, val)`. -/
def atomicSwap (T : IntType) : Value T → Value T → Value T × Value T :=
  bySize false atomicSwap8 atomicSwap16 atomicSwap32 atomicSwap64 T

/-- An operation, with its operands. -/
inductive Op (T : IntType) where
  | readOnce
  | writeOnce (val : Value T)
  | and (val : Value T)
  | or (val : Value T)
  | xor (val : Value T)
  | add (val : Value T)
  | swap (val : Value T)
  | cas (cmp data : Value T)
  | min (val : Value T)
  | max (val : Value T)

/-- What an operation returns. -/
inductive Result (T : IntType) where
  | none
  | value (v : Value T)
  | flag (b : Bool)
  deriving DecidableEq, Repr

/-- A round of the loop of `atomic_min` and `atomic_max`, with the value of `curr` if it has
been read. -/
def retry (T : IntType) (pick : Value T → Value T → Value T) (val : Value T)
    (curr : Option (Value T)) (mem : Value T) : Value T × (Option (Value T) ⊕ Result T) :=
  match curr with
  | .none => (mem, .inl (some mem))
  | .some curr =>
    let next := pick curr val
    let (mem, swapped) := atomicCas T mem curr next
    if swapped then (mem, .inr (.value curr)) else (mem, .inl .none)

/-- A step of a call. -/
def opStep (T : IntType) (op : Op T) (curr : Option (Value T)) (mem : Value T) :
    Value T × (Option (Value T) ⊕ Result T) :=
  let value := fun (r : Value T × Value T) => (r.1, Sum.inr (Result.value r.2))
  match op with
  | .readOnce => (mem, .inr (.value mem))
  | .writeOnce val => (val, .inr .none)
  | .and val => value (atomicAnd T mem val)
  | .or val => value (atomicOr T mem val)
  | .xor val => value (atomicXor T mem val)
  | .add val => value (atomicAdd T mem val)
  | .swap val => value (atomicSwap T mem val)
  | .cas cmp data =>
    let (mem, swapped) := atomicCas T mem cmp data
    (mem, .inr (.flag swapped))
  | .min val => retry T (stdMin T) val curr mem
  | .max val => retry T (stdMax T) val curr mem

/-- The code of the operations, which begins without a value of `curr`. -/
def code (T : IntType) : Impl (Value T) (Op T) (Option (Value T)) (Result T) :=
  ⟨fun _ => .none, opStep T⟩

/-! ## The meaning of the operations -/

/-- An operation that runs alone: what it leaves, and what it returns. -/
def Op.apply {T : IntType} (op : Op T) (mem : Value T) : Value T × Result T :=
  match op with
  | .readOnce => (mem, .value mem)
  | .writeOnce val => (val, .none)
  | .and val => (mem &&& val, .value mem)
  | .or val => (mem ||| val, .value mem)
  | .xor val => (mem ^^^ val, .value mem)
  | .add val => (mem + val, .value mem)
  | .swap val => (val, .value mem)
  | .cas cmp data => if mem = cmp then (data, .flag true) else (mem, .flag false)
  | .min val => (if toInt T val < toInt T mem then val else mem, .value mem)
  | .max val => (if toInt T mem < toInt T val then val else mem, .value mem)

/-- A conversion to a type that is not narrower, and back. -/
theorem castTo_castTo (T : IntType) (viaSigned : Bool) (v : Value T) :
    castTo ⟨viaSigned, .w64⟩ (castTo T v 64) T.bits = v := by
  apply BitVec.eq_of_getLsbD_eq
  intro i hi
  have hwide : i < 64 := Nat.lt_of_lt_of_le hi T.bits_le
  have hback : (castTo ⟨viaSigned, .w64⟩ (castTo T v 64) T.bits).getLsbD i =
      (castTo T v 64).getLsbD i :=
    getLsbD_castTo_of_lt ⟨viaSigned, .w64⟩ (castTo T v 64) hwide hi
  exact hback.trans (getLsbD_castTo_of_lt T v hi hwide)

/-- The operand and the result keep their bits on the way. -/
theorem bySize_fetch (viaSigned : Bool) (f : (w : Nat) → BitVec w → BitVec w → BitVec w)
    (T : IntType) (mem val : Value T) :
    bySize viaSigned (fetch (f 8)) (fetch (f 16)) (fetch (f 32)) (fetch (f 64)) T mem val =
      fetch (f T.bits) mem val := by
  obtain ⟨signed, width⟩ := T
  cases width with
  | w8 =>
    show (f 8 mem (castTo ⟨viaSigned, .w64⟩ (castTo ⟨signed, .w8⟩ val 64) 8),
      castTo ⟨viaSigned, .w64⟩ (castTo ⟨viaSigned, .w8⟩ mem 64) 8) = (f 8 mem val, mem)
    exact Prod.ext (congrArg (f 8 mem) (castTo_castTo ⟨signed, .w8⟩ viaSigned val))
      (castTo_castTo ⟨viaSigned, .w8⟩ viaSigned mem)
  | w16 =>
    show (f 16 mem (castTo ⟨viaSigned, .w64⟩ (castTo ⟨signed, .w16⟩ val 64) 16),
      castTo ⟨viaSigned, .w64⟩ (castTo ⟨viaSigned, .w16⟩ mem 64) 16) = (f 16 mem val, mem)
    exact Prod.ext (congrArg (f 16 mem) (castTo_castTo ⟨signed, .w16⟩ viaSigned val))
      (castTo_castTo ⟨viaSigned, .w16⟩ viaSigned mem)
  | w32 =>
    show (f 32 mem (castTo ⟨viaSigned, .w64⟩ (castTo ⟨signed, .w32⟩ val 64) 32),
      castTo ⟨viaSigned, .w64⟩ (castTo ⟨viaSigned, .w32⟩ mem 64) 32) = (f 32 mem val, mem)
    exact Prod.ext (congrArg (f 32 mem) (castTo_castTo ⟨signed, .w32⟩ viaSigned val))
      (castTo_castTo ⟨viaSigned, .w32⟩ viaSigned mem)
  | w64 =>
    show (f 64 mem (castTo ⟨viaSigned, .w64⟩ (castTo ⟨signed, .w64⟩ val 64) 64),
      castTo ⟨viaSigned, .w64⟩ (castTo ⟨viaSigned, .w64⟩ mem 64) 64) = (f 64 mem val, mem)
    exact Prod.ext (congrArg (f 64 mem) (castTo_castTo ⟨signed, .w64⟩ viaSigned val))
      (castTo_castTo ⟨viaSigned, .w64⟩ viaSigned mem)

section Meaning

variable {T : IntType} (mem val : Value T)

theorem atomicAnd_eq : atomicAnd T mem val = (mem &&& val, mem) :=
  bySize_fetch false (fun _ a b => a &&& b) T mem val

theorem atomicOr_eq : atomicOr T mem val = (mem ||| val, mem) :=
  bySize_fetch false (fun _ a b => a ||| b) T mem val

theorem atomicXor_eq : atomicXor T mem val = (mem ^^^ val, mem) :=
  bySize_fetch false (fun _ a b => a ^^^ b) T mem val

theorem atomicAdd_eq : atomicAdd T mem val = (mem + val, mem) :=
  bySize_fetch true (fun _ a b => a + b) T mem val

theorem atomicSwap_eq : atomicSwap T mem val = (val, mem) :=
  bySize_fetch false (fun _ _ b => b) T mem val

end Meaning

/-- A round either starts again or returns the value that it has replaced. -/
theorem retry_cases (T : IntType) (pick : Value T → Value T → Value T) (val : Value T)
    (curr : Option (Value T)) (mem : Value T) :
    (∃ curr', retry T pick val curr mem = (mem, .inl curr')) ∨
      retry T pick val curr mem = (pick mem val, .inr (.value mem)) := by
  cases curr with
  | none => exact .inl ⟨some mem, rfl⟩
  | some curr =>
    simp only [retry, atomicCas_eq]
    by_cases hmem : mem = curr
    · subst hmem
      exact .inr (by simp only [if_true])
    · exact .inl ⟨.none, by simp only [if_neg hmem, Bool.false_eq_true, if_false]⟩

/-- Each step of the code leaves the word alone, or does the whole operation. -/
theorem code_commits (T : IntType) : (code T).Commits Op.apply := by
  intro op curr mem
  show (∃ k', opStep T op curr mem = (mem, .inl k')) ∨
    opStep T op curr mem = ((op.apply mem).1, .inr (op.apply mem).2)
  cases op with
  | readOnce => exact .inr rfl
  | writeOnce val => exact .inr rfl
  | and val => exact .inr (by simp only [opStep, atomicAnd_eq, Op.apply])
  | or val => exact .inr (by simp only [opStep, atomicOr_eq, Op.apply])
  | xor val => exact .inr (by simp only [opStep, atomicXor_eq, Op.apply])
  | add val => exact .inr (by simp only [opStep, atomicAdd_eq, Op.apply])
  | swap val => exact .inr (by simp only [opStep, atomicSwap_eq, Op.apply])
  | cas cmp data =>
    refine .inr ?_
    simp only [opStep, atomicCas_eq, Op.apply]
    split <;> rfl
  | min val => exact retry_cases T (stdMin T) val curr mem
  | max val => exact retry_cases T (stdMax T) val curr mem

/-! ## Results -/

variable {ι : Type}

/-- Whatever the order of their steps, the calls of all threads have an order in which they
give the same results one after the other, and leave what is in the memory.  A call that has
returned before another one began comes first in it. -/
theorem atomics_linearizable (T : IntType) [DecidableEq ι] (init : Value T)
    (s : State ι (Value T) (Op T) (Option (Value T)) (Result T))
    (h : List (Event ι (Op T) (Result T))) (hrun : (system (code T) init).Reachable (s, h)) :
    ∃ order, Linearization Op.apply init h order ∧
      s.object = after Op.apply init (order.map fun q => q.1.op) :=
  exists_linearization (code_commits T) hrun

/-- An addition comes between the read and the swap of a minimum, which starts again. -/
def mixedLabels : List (Linearizable.Label Bool (Op .i32)) :=
  [.invoke false (.min 3#32), .step false, .invoke true (.add (-7#32)), .step true, .ret true,
    .step false, .step false, .step false, .ret false, .invoke true (.cas (-2#32) 9#32),
    .step true, .ret true]

def mixedRun : State Bool (Value .i32) (Op .i32) (Option (Value .i32)) (Result .i32) ×
    List (Event Bool (Op .i32) (Result .i32)) :=
  (System.run (Linearizable.step (code .i32)) (.new 5#32, []) mixedLabels).getD (.new 0#32, [])

theorem atomics_linearizable_mixed :
    mixedRun.1.object = 9#32 ∧ mixedRun.2.length = 6 ∧
      ∃ order, Linearization (Op.apply (T := .i32)) 5#32 mixedRun.2 order ∧
        mixedRun.1.object = after (Op.apply (T := .i32)) 5#32 (order.map fun q => q.1.op) := by
  refine ⟨rfl, rfl, atomics_linearizable .i32 5#32 mixedRun.1 mixedRun.2 ?_⟩
  exact System.reachable_of_run mixedLabels (.init rfl) rfl

end Mwr.Atomics
