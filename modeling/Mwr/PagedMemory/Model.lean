import Mathlib.Logic.Function.Basic
import Mwr.CodeLib.BitField
import Mwr.CodeLib.Transition
import Mwr.Core.Report

/-!
# Memory from the operating system

A translation of the class `memory` of `include/mwr/utils/memory.h`,
`src/mwr/utils/memory_posix.cpp` and `src/mwr/utils/memory_win32.cpp` into a step function for
any number of objects.

* `State` holds the objects and the mappings that the operating system has made.
* A label of an allocation has the answer of the operating system, which `Grants` describes.
* A step that aborts the process is not enabled.
-/

namespace Mwr.PagedMemory

open Mwr.CodeLib.BitField
open Mwr.CodeLib.Transition

/-! ## Objects -/

/-- The two files. -/
inductive Platform where
  | posix
  | win32
  deriving DecidableEq, Repr

/-- What is known of the host: the size of a page is a power of two. -/
structure Host where
  platform : Platform
  pageBits : Nat
  pageBits_lt : pageBits < 64

/-- `page_size()`. -/
def Host.pageSize (host : Host) : BitVec 64 := 1#64 <<< host.pageBits

/-- `class memory`.  A null pointer is `0`. -/
structure Memory where
  data : Nat
  size : BitVec 64
  totalSize : BitVec 64
  deriving DecidableEq, Repr

/-- `memory()`. -/
def Memory.new : Memory := ⟨0, 0, 0⟩

/-- `m_total_size` for an allocation of `size` bytes. -/
def Host.roundUp (host : Host) (size : BitVec 64) : BitVec 64 :=
  (size + host.pageSize - 1#64) &&& ~~~(host.pageSize - 1#64)

/-- `alloc(size)`, where `answer` is the address of the new mapping if there is one. -/
def Memory.alloc (host : Host) (answer : Option Nat) (size : BitVec 64) (o : Memory) :
    Except Fault Memory :=
  if o.data ≠ 0 then .error (.error "memory already allocated")
  else if size = 0 then .error (.error "attempt to allocate zero bytes")
  else
    match answer with
    | none => .error (.error "memory allocation failed")
    | some addr => .ok ⟨addr, size, host.roundUp size⟩

/-- `free()`. -/
def Memory.free (o : Memory) : Memory := if o.data ≠ 0 then ⟨0, 0, 0⟩ else o

/-- `memory(memory&& other)`, with `other` after the move. -/
def Memory.move (other : Memory) : Memory × Memory :=
  (⟨other.data, other.size, other.totalSize⟩, { other with data := 0 })

/-- `operator[](idx)`, with the address that it refers to. -/
def Memory.at (o : Memory) (idx : BitVec 64) : Except Fault Nat :=
  if idx ≥ o.size then .error (.error "memory access out of bounds") else .ok (o.data + idx.toNat)

/-! ## Mappings -/

/-- A mapping of the operating system. -/
structure Region where
  start : Nat
  len : Nat
  deriving DecidableEq, Repr

def Region.stop (r : Region) : Nat := r.start + r.len

/-- The ranges have no address in common. -/
def Region.Apart (r r' : Region) : Prop := r.stop ≤ r'.start ∨ r'.stop ≤ r.start

instance (r r' : Region) : Decidable (r.Apart r') := inferInstanceAs (Decidable (_ ∨ _))

/-- The mapping that an object with memory holds.  `mmap` is asked for `m_total_size` bytes,
and `VirtualAlloc` for `size`. -/
def Memory.region (host : Host) (o : Memory) : Region :=
  match host.platform with
  | .posix => ⟨o.data, o.totalSize.toNat⟩
  | .win32 => ⟨o.data, o.size.toNat⟩

/-- The mappings after `munmap(m_data, m_total_size)` or `VirtualFree(m_data)`. -/
def Memory.unmap (host : Host) (o : Memory) (regions : List Region) : List Region :=
  match host.platform with
  | .posix => regions.filter fun r => decide (r.Apart ⟨o.data, o.totalSize.toNat⟩)
  | .win32 => regions.filter fun r => decide (r.start ≠ o.data)

/-- The operating system makes a mapping only of pages that are free, and only if it is not
empty. -/
structure Grants (host : Host) (regions : List Region) (r : Region) : Prop where
  start : r.start ≠ 0
  aligned : r.start % 2 ^ host.pageBits = 0
  len : r.len ≠ 0
  stop : r.stop ≤ 2 ^ 64
  apart : ∀ r' ∈ regions, r.Apart r'

instance (host : Host) (regions : List Region) (r : Region) :
    Decidable (Grants host regions r) :=
  decidable_of_iff (r.start ≠ 0 ∧ r.start % 2 ^ host.pageBits = 0 ∧ r.len ≠ 0 ∧
      r.stop ≤ 2 ^ 64 ∧ ∀ r' ∈ regions, r.Apart r')
    ⟨fun ⟨h₁, h₂, h₃, h₄, h₅⟩ => ⟨h₁, h₂, h₃, h₄, h₅⟩,
      fun ⟨h₁, h₂, h₃, h₄, h₅⟩ => ⟨h₁, h₂, h₃, h₄, h₅⟩⟩

/-! ## Runs -/

/-- The objects by their identity, and the mappings. -/
structure State where
  objects : Nat → Option Memory
  regions : List Region

def State.new : State := ⟨fun _ => none, []⟩

/-- A member function, with the objects that it is called for. -/
inductive Label where
  /-- `memory()`. -/
  | construct (id : Nat)
  /-- `memory(size)`. -/
  | constructSize (id : Nat) (size : BitVec 64) (answer : Option Nat)
  /-- `memory(memory&& other)`. -/
  | move (id other : Nat)
  /-- `alloc(size)`. -/
  | alloc (id : Nat) (size : BitVec 64) (answer : Option Nat)
  /-- `free()`. -/
  | free (id : Nat)
  /-- `~memory()`. -/
  | destroy (id : Nat)
  deriving DecidableEq, Repr

/-- `alloc` for the object `o`. -/
def State.alloc (host : Host) (s : State) (id : Nat) (size : BitVec 64) (answer : Option Nat)
    (o : Memory) : Option State := do
  let o ← (o.alloc host answer size).toOption
  if Grants host s.regions (o.region host) then
    some ⟨Function.update s.objects id (some o), o.region host :: s.regions⟩
  else none

/-- `free` for the object `o`, of which `rest` is left. -/
def State.free (host : Host) (s : State) (id : Nat) (rest : Option Memory) (o : Memory) : State :=
  ⟨Function.update s.objects id rest,
    if o.data ≠ 0 then o.unmap host s.regions else s.regions⟩

/-- The move of the object `o` to a new one. -/
def State.move (s : State) (id other : Nat) (o : Memory) : State :=
  let objects := Function.update s.objects other (some o.move.2)
  ⟨Function.update objects id (some o.move.1), s.regions⟩

def step (host : Host) (s : State) : Label → Option State
  | .construct id =>
    match s.objects id with
    | none => some { s with objects := Function.update s.objects id (some .new) }
    | some _ => none
  | .constructSize id size answer =>
    match s.objects id with
    | none => s.alloc host id size answer .new
    | some _ => none
  | .move id other =>
    match s.objects id, s.objects other with
    | none, some o => some (s.move id other o)
    | _, _ => none
  | .alloc id size answer => (s.objects id).bind (s.alloc host id size answer)
  | .free id => (s.objects id).map fun o => s.free host id (some o.free) o
  | .destroy id => (s.objects id).map fun o => s.free host id none o

/-- All runs of the member functions. -/
def system (host : Host) : System State Label := System.ofStep State.new (step host)

end Mwr.PagedMemory
