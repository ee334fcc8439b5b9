import Mathlib.Logic.Function.Basic
import Mwr.CodeLib.Transition
import Mwr.Core.Report
import Mwr.Stl.Containers
import Mwr.Stl.Strings

/-!
# Log publishers

A translation of `include/mwr/logging/publisher.h` and
`src/mwr/logging/publisher.cpp`.  A state holds the publishers that are alive,
by address, and the static table of `publisher::lookup`.

The virtual `publish(msg)` of a publisher belongs to its subclass.  The embedding
returns the calls that `publish(level, ...)` makes to it, in their order.
-/

namespace Mwr.Logging

open Mwr.CodeLib (Bytes)
open Mwr.CodeLib.Transition
open Mwr.Containers
open Mwr.Strings

/-! ## Levels and messages -/

/-- `enum log_level`. -/
inductive LogLevel where
  | error
  | warn
  | info
  | debug
  | numLogLevels
  deriving DecidableEq, Repr

namespace LogLevel

def toNat : LogLevel → Nat
  | error => 0
  | warn => 1
  | info => 2
  | debug => 3
  | numLogLevels => 4

/-- The cast `(log_level)l`. -/
def cast : Nat → LogLevel
  | 0 => error
  | 1 => warn
  | 2 => info
  | 3 => debug
  | _ => numLogLevels

instance : LE LogLevel where
  le a b := a.toNat ≤ b.toNat

instance (a b : LogLevel) : Decidable (a ≤ b) :=
  inferInstanceAs (Decidable (a.toNat ≤ b.toNat))

end LogLevel

/-- The levels that `for (int l = min; l <= max; l++)` visits. -/
def levels (min max : LogLevel) : List LogLevel :=
  (List.range' min.toNat (max.toNat + 1 - min.toNat)).map LogLevel.cast

/-- `struct logmsg`. -/
structure Logmsg where
  level : LogLevel
  timestamp : UInt64
  sender : Bytes
  file : Bytes
  line : Int
  lines : List Bytes
  deriving DecidableEq, Repr

/-- The message that `publish(level, sender, str, file, line)` builds at the time
`now`. -/
def logmsg (now : UInt64) (level : LogLevel) (sender str : Bytes)
    (file : Option (Bytes)) (line : Int) : Logmsg where
  level := level
  timestamp := now
  sender := sender
  file := file.getD []
  line := if file.isSome then line else -1
  lines := splitChar (escape str []) '\n'.toUInt8

/-! ## Publishers -/

/-- The address of a publisher. -/
abbrev Ptr := Nat

/-- The fields of a `publisher`. -/
structure Publisher where
  min : LogLevel
  max : LogLevel
  filters : List (Logmsg → Bool)

/-- `check_filters(msg)`. -/
def Publisher.checkFilters (self : Publisher) (msg : Logmsg) : Bool :=
  self.filters.isEmpty || self.filters.any fun filter => filter msg

/-- The live publishers and the table of the registry. -/
structure State where
  objects : Ptr → Option Publisher
  publishers : LogLevel → List Ptr

/-- No publisher has been constructed. -/
def State.empty : State where
  objects := fun _ => none
  publishers := fun _ => []

namespace State

/-- `lookup(lvl)`. -/
def lookup (s : State) (lvl : LogLevel) : Except Fault (List Ptr) :=
  if LogLevel.numLogLevels ≤ lvl then
    .error (.error ("invalid log level " ++ toString lvl.toNat))
  else
    .ok (s.publishers lvl)

/-- Apply `f` to the entries `lookup((log_level)l)` of a range of levels. -/
def forLevels (f : List Ptr → List Ptr) (min max : LogLevel) (s : State) : Except Fault State :=
  (levels min max).foldlM (fun s l => do
    let v ← s.lookup l
    .ok { s with publishers := Function.update s.publishers l (f v) }) s

/-- `register_publisher()` of the publisher at `this`. -/
def registerPublisher (s : State) (this : Ptr) (self : Publisher) : Except Fault State :=
  s.forLevels (stlAddUnique · this) self.min self.max

/-- `unregister_publisher()` of the publisher at `this`. -/
def unregisterPublisher (s : State) (this : Ptr) (self : Publisher) : Except Fault State :=
  s.forLevels (stlRemove · this) self.min self.max

/-- Assign the fields of the publisher at `this`. -/
def store (s : State) (this : Ptr) (self : Option Publisher) : State :=
  { s with objects := Function.update s.objects this self }

/-- The constructor `publisher(min, max)` at a free address. -/
def construct (s : State) (this : Ptr) (min max : LogLevel) : Except Fault State :=
  let self : Publisher := { min := min, max := max, filters := [] }
  (s.store this (some self)).registerPublisher this self

/-- The destructor `~publisher()`. -/
def destroy (s : State) (this : Ptr) : Except Fault State :=
  match s.objects this with
  | none => .error .segfault
  | some self => do
    let s ← s.unregisterPublisher this self
    .ok (s.store this none)

/-- `set_level(min, max)`. -/
def setLevel (s : State) (this : Ptr) (min max : LogLevel) : Except Fault State :=
  match s.objects this with
  | none => .error .segfault
  | some self => do
    let s ← s.unregisterPublisher this self
    let self := { self with min := min, max := max }
    (s.store this (some self)).registerPublisher this self

/-- `filter(filter)`; `filter_time` and `filter_source` call it. -/
def addFilter (s : State) (this : Ptr) (filter : Logmsg → Bool) : Except Fault State :=
  match s.objects this with
  | none => .error .segfault
  | some self => .ok (s.store this (some { self with filters := self.filters ++ [filter] }))

/-- `can_publish(lvl)`. -/
def canPublish (s : State) (lvl : LogLevel) : Except Fault Bool :=
  if LogLevel.numLogLevels ≤ lvl then
    .error (.error ("illegal log level " ++ toString lvl.toNat))
  else do
    let v ← s.lookup lvl
    .ok (!v.isEmpty)

/-- The loop of `publish(level, ...)` over the loggers that are left: the
publishers whose `do_publish(msg)` it calls. -/
def publishTo (s : State) (msg : Logmsg) : List Ptr → Except Fault (List Ptr)
  | [] => .ok []
  | logger :: loggers =>
    match s.objects logger with
    | none => .error .segfault
    | some self => do
      let rest ← s.publishTo msg loggers
      .ok (if self.checkFilters msg then logger :: rest else rest)

/-- `publish(level, sender, str, file, line)` at the time `now`: the publishers
that it calls, each with the message. -/
def publish (s : State) (now : UInt64) (level : LogLevel) (sender str : Bytes)
    (file : Option (Bytes)) (line : Int) : Except Fault (List (Ptr × Logmsg)) := do
  let msg := logmsg now level sender str file line
  let loggers ← s.lookup msg.level
  let called ← s.publishTo msg loggers
  .ok (called.map fun logger => (logger, msg))

end State

/-! ## Runs -/

/-- The calls that change a publisher or the registry. -/
inductive Act where
  | construct (this : Ptr) (min max : LogLevel)
  | setLevel (this : Ptr) (min max : LogLevel)
  | addFilter (this : Ptr) (filter : Logmsg → Bool)
  | destroy (this : Ptr)

def step (s : State) : Act → Except Fault State
  | .construct this min max => s.construct this min max
  | .setLevel this min max => s.setLevel this min max
  | .addFilter this filter => s.addFilter this filter
  | .destroy this => s.destroy this

/-- A publisher is constructed at a free address and used while it is alive, with
levels up to `LOG_DEBUG`. -/
def Enabled (s : State) : Act → Prop
  | .construct this min max => s.objects this = none ∧ min ≤ .debug ∧ max ≤ .debug
  | .setLevel this min max => s.objects this ≠ none ∧ min ≤ .debug ∧ max ≤ .debug
  | .addFilter this _ => s.objects this ≠ none
  | .destroy this => s.objects this ≠ none

/-- Runs from the empty registry. -/
def system : System State Act where
  init := fun s => s = .empty
  step := fun s a s' => Enabled s a ∧ step s a = .ok s'

end Mwr.Logging
