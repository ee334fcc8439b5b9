import Mathlib.Data.Int.Notation
import Mathlib.Logic.Function.Basic
import Mwr.CodeLib.Bytes
import Mwr.CodeLib.Transition
import Mwr.Core.Report

/-!
# A session between a client and a server

The two ends of one connection: a `mwr::socket` and a client of a `mwr::server_socket`, with their
loops in `send` and `recv`.  The system calls move any part of what they are asked to, calls of
`send` and `recv` run at the same time on both sides, and other threads disconnect either side
at any point.  At most one call of `send` and one of `recv` runs on a side, and a side that was
disconnected does not come back in the same session: its descriptor moves nothing any more, as it
is not used for something else in between.

* `Endpoint` is one side, and the functions in its namespace are the parts of the loops.
* `Stream` is one direction of the connection in the operating system, which hands out the bytes
  that it has accepted in their order.
-/

namespace Mwr.Session

open Mwr.CodeLib
open Mwr.CodeLib.Transition (System)

/-! ## The state -/

/-- The `mwr::socket` and the `mwr::server_socket`. -/
inductive Side where
  | client
  | server
  deriving DecidableEq

def Side.other : Side → Side
  | client => server
  | server => client

/-- `send` and `recv`. -/
inductive Direction where
  | send
  | recv
  deriving DecidableEq

/-- Where a call is. -/
inductive Pc where
  /-- Before the check of `mwr::socket` that there is a connection. -/
  | start
  /-- In the loop, before it reads the descriptor. -/
  | loop
  /-- Before the system call, with a descriptor or with `-1`. -/
  | chunk (conn : Bool)

/-- A call of `send` or `recv`, with the bytes at its pointer. -/
structure Call where
  buffer : Bytes
  n : Nat
  pc : Pc

/-- One side. -/
structure Endpoint where
  /-- `m_conn` is a descriptor, or the client is in `m_clients`. -/
  conn : Bool
  calls : Direction → Option Call
  /-- The data of the calls of `send` that have started. -/
  given : List Bytes
  /-- The buffers of the calls that have returned. -/
  returned : Direction → List Bytes
  /-- What calls have thrown, the last one first. -/
  thrown : List Fault

/-- What one side has sent: the bytes that the operating system has accepted, and how many of them
it has handed out. -/
structure Stream where
  accepted : Bytes
  delivered : Nat

/-- A session, with a stream for each side that sends. -/
structure State where
  ends : Side → Endpoint
  streams : Side → Stream

/-- The client is connected and the server has accepted it. -/
def initial : State where
  ends := fun _ => ⟨true, fun _ => none, [], fun _ => [], []⟩
  streams := fun _ => ⟨[], 0⟩

/-! ## The code -/

namespace Endpoint

variable (e : Endpoint) (dir : Direction)

def setCall (call : Option Call) : Endpoint :=
  { e with calls := Function.update e.calls dir call }

/-- The end of a call with a report. -/
def throw (message : String) : Endpoint :=
  { e.setCall dir none with thrown := .report message :: e.thrown }

/-- The condition of the loop. -/
def advance (c : Call) : Endpoint :=
  if c.n < c.buffer.length then e.setCall dir (some { c with pc := .loop })
  else
    { e.setCall dir none with
      returned := Function.update e.returned dir (e.returned dir ++ [c.buffer]) }

/-- A call starts.  Only `mwr::socket` has a check in front of its loop. -/
def begin (side : Side) (buffer : Bytes) : Endpoint :=
  let e := { e with given := if dir = Direction.send then e.given ++ [buffer] else e.given }
  match side with
  | .client => e.setCall dir (some ⟨buffer, 0, .start⟩)
  | .server => e.advance dir ⟨buffer, 0, .loop⟩

/-- `MWR_REPORT_ON(conn < 0, ...)`, which speaks of sending in `recv`, too. -/
def check (c : Call) : Endpoint :=
  if e.conn then e.advance dir c else e.throw dir "error sending data: not connected"

/-- `conn = m_conn`, and `find_socket(client)`. -/
def readConn (side : Side) (client : Int) (c : Call) : Endpoint :=
  match side with
  | .client => e.setCall dir (some { c with pc := .chunk e.conn })
  | .server =>
    if e.conn then e.setCall dir (some { c with pc := .chunk true })
    else e.throw dir ("client " ++ toString client ++ " not connected")

/-- The system call has failed, or the other side is gone. -/
def fail (reason : String) : Endpoint :=
  let e := { e with conn := false }
  match dir with
  | .send => e.throw dir ("error sending data: " ++ reason)
  | .recv => e.throw dir ("error receiving data: " ++ reason)

/-- `n += r`, with the bytes that the system call has read or written. -/
def moved (c : Call) (xs : Bytes) : Endpoint :=
  e.advance dir
    { c with
      buffer := c.buffer.take c.n ++ xs ++ c.buffer.drop (c.n + xs.length)
      n := c.n + xs.length }

end Endpoint

/-- The bytes that a system call moves on a side, when it moves `r` of them. -/
def State.piece (s : State) (side : Side) (c : Call) (r : Nat) : Direction → Bytes
  | .send => (c.buffer.drop c.n).take r
  | .recv => ((s.streams side.other).accepted.drop (s.streams side.other).delivered).take r

/-- The streams behind the system call. -/
def State.pass (s : State) (side : Side) (xs : Bytes) : Direction → Side → Stream
  | .send => Function.update s.streams side
      { s.streams side with accepted := (s.streams side).accepted ++ xs }
  | .recv => Function.update s.streams side.other
      { s.streams side.other with delivered := (s.streams side.other).delivered + xs.length }

def State.setEnd (s : State) (side : Side) (e : Endpoint) : State :=
  { s with ends := Function.update s.ends side e }

/-- What happens next, on one side. -/
inductive Act where
  /-- A call of `send` or `recv`. -/
  | call (dir : Direction) (buffer : Bytes)
  /-- The check in front of the loop. -/
  | check (dir : Direction)
  /-- The descriptor is read. -/
  | read (dir : Direction)
  /-- `::send` or `::recv` returns. -/
  | chunk (dir : Direction) (r : Except String Nat)
  /-- `disconnect`, by any thread. -/
  | disconnect

/-- One step, if it is possible. -/
def step (client : Int) (s : State) : Side × Act → Option State
  | (side, act) =>
    let e := s.ends side
    match act with
    | .call dir buffer =>
      if (e.calls dir).isNone then some (s.setEnd side (e.begin dir side buffer)) else none
    | .check dir =>
      match e.calls dir with
      | some c@⟨_, _, .start⟩ => some (s.setEnd side (e.check dir c))
      | _ => none
    | .read dir =>
      match e.calls dir with
      | some c@⟨_, _, .loop⟩ => some (s.setEnd side (e.readConn dir side client c))
      | _ => none
    | .chunk dir r =>
      match e.calls dir with
      | some c@⟨_, _, .chunk conn⟩ =>
        match r with
        | .error reason => some (s.setEnd side (e.fail dir reason))
        | .ok 0 => some (s.setEnd side (e.fail dir "disconnected"))
        | .ok r =>
          -- a descriptor that was closed does not move anything
          if conn ∧ e.conn ∧ r ≤ c.buffer.length - c.n ∧ (s.piece side c r dir).length = r then
            some { ends := Function.update s.ends side (e.moved dir c (s.piece side c r dir))
                   streams := s.pass side (s.piece side c r dir) dir }
          else none
      | _ => none
    | .disconnect => some (s.setEnd side { e with conn := false })

/-- Sessions of the client with a number. -/
def system (client : Int) : System State (Side × Act) := .ofStep initial (step client)

end Mwr.Session
