import Mathlib.Logic.Function.Basic
import Mwr.CodeLib.Transition
import Mwr.Core.Report

/-!
# The client socket

A translation of the class `socket` of `include/mwr/utils/socket.h` and
`src/mwr/utils/socket_posix.cpp` into a step function, for one thread that calls
`send` and `recv` and other threads that call `connect` and `disconnect`.

* `State` holds the fields of the object, the descriptors of the operating system,
  and the calls in progress.  A call of `connect` in progress holds the mutex.
* `send` and `recv` take the mutex to read `m_conn`, and drop it to transfer a
  chunk.  One that fails calls `disconnect_locked` without the mutex.
* A label has what the operating system answers.
* The bytes of a connection have positions, apart for each direction.  A transfer
  keeps a record of the chunks that it has transferred.
-/

namespace Mwr.ClientSocket

open Mwr.CodeLib.Transition

/-! ## The data -/

/-- The fields of a `socket`; `conn` is `m_conn`, where a handle that is not valid
is `none`. -/
structure Socket where
  conn : Option Nat
  host : String
  peer : String
  ipv6 : Bool
  port : UInt16
  deriving DecidableEq, Repr

/-- The default constructor. -/
def Socket.new : Socket where
  conn := none
  host := ""
  peer := ""
  ipv6 := false
  port := 0

/-- `is_connected()`. -/
def Socket.isConnected (s : Socket) : Bool := s.conn.isSome

/-- What the operating system knows of a descriptor. -/
inductive Desc where
  | closed
  /-- `::socket` has returned it. -/
  | unconnected
  | connected (connection : Nat)
  /-- After `::shutdown`, the bytes that have already arrived can be received. -/
  | shutDown (connection : Nat)
  deriving DecidableEq, Repr

/-- The methods `send` and `recv`. -/
inductive Direction where
  | send
  | recv
  deriving DecidableEq, Repr

/-- The connection that a transfer over the descriptor reaches. -/
def Desc.reach (direction : Direction) : Desc → Option Nat
  | .closed | .unconnected => none
  | .connected connection => some connection
  | .shutDown connection =>
    match direction with
    | .send => none
    | .recv => some connection

/-- What `::shutdown` does. -/
def Desc.shutdown : Desc → Desc
  | .connected connection => .shutDown connection
  | desc => desc

/-- A chunk of a transfer: its connection, and its position among the bytes of
this connection. -/
structure Chunk where
  connection : Nat
  offset : Nat
  length : Nat
  deriving DecidableEq, Repr

/-- The position of a call of `send` or `recv`. -/
inductive Pc where
  /-- At the first read of `m_conn`. -/
  | start
  /-- At the read of `m_conn` in the loop. -/
  | loop
  /-- In `::send` or `::recv`, with the handle that has been read. -/
  | chunk (conn : Option Nat)
  deriving DecidableEq, Repr

/-- A call of `send` or `recv`, with its variable `n`. -/
structure Transfer where
  direction : Direction
  size : Nat
  n : Nat
  pc : Pc
  chunks : List Chunk
  deriving DecidableEq, Repr

/-- An address that `getaddrinfo` has found. -/
structure Addr where
  ipv6 : Bool
  peer : String

/-- The position of a call of `connect`. -/
inductive Connecting where
  /-- At the top of the loop, with these addresses left. -/
  | loop (host : String) (port : UInt16) (addrs : List Addr)
  /-- In `::connect` to the first address, with these left. -/
  | attempt (host : String) (port : UInt16) (addr : Addr) (addrs : List Addr)
  /-- After the loop. -/
  | finish

/-- What the threads see. -/
inductive Event where
  /-- A call of `send` or `recv` has returned. -/
  | transferred (transfer : Transfer)
  /-- A call has thrown. -/
  | thrown (fault : Fault)
  deriving DecidableEq, Repr

/-- The object with its calls in progress, and what the operating system keeps:
the descriptors, the number of connections so far, and the number of bytes that
each of them has transferred in each direction. -/
structure State where
  socket : Socket
  linux : Bool
  descs : Nat → Desc
  connections : Nat
  position : Direction → Nat → Nat
  connecting : Option Connecting
  call : Option Transfer
  log : List Event

/-- A socket that is not connected. -/
def initial (linux : Bool) : State where
  socket := .new
  linux := linux
  descs := fun _ => .closed
  connections := 0
  position := fun _ _ => 0
  connecting := none
  call := none
  log := []

/-! ## `connect` and `disconnect` -/

namespace State

/-- `close_socket(fd)`, which leaves the descriptor open on Linux. -/
def closeSocket (s : State) (fd : Nat) : State :=
  { s with
    descs := Function.update s.descs fd (if s.linux then (s.descs fd).shutdown else .closed) }

/-- `disconnect_locked()`. -/
def disconnectLocked (s : State) : State :=
  match s.socket.conn with
  | none => s
  | some fd =>
    { s.closeSocket fd with
      socket := { s.socket with conn := none, peer := "", host := "", port := 0 } }

/-- A call ends with an exception. -/
def throw (s : State) (fault : Fault) : State :=
  { s with log := .thrown fault :: s.log }

/-- `connect(host, port)`, up to its loop. -/
def connect (s : State) (host : String) (port : UInt16) (info : Except String (List Addr)) :
    State :=
  let s := s.disconnectLocked
  match info with
  | .error reason => s.throw (.report ("getaddrinfo failed: " ++ reason))
  | .ok addrs => { s with connecting := some (.loop host port addrs) }

/-- `m_conn = ::socket(...)`, for the first address. -/
def createSocket (s : State) (host : String) (port : UInt16) (addr : Addr) (addrs : List Addr)
    (result : Except String Nat) : State :=
  match result with
  | .error reason =>
    { s with socket := { s.socket with conn := none }, connecting := none }.throw
      (.report ("failed to create socket: " ++ reason))
  | .ok fd =>
    { s with
      socket := { s.socket with conn := some fd }
      descs := Function.update s.descs fd .unconnected
      connecting := some (.attempt host port addr addrs) }

/-- `::connect` fails, and `close_socket(m_conn)` follows. -/
def refused (s : State) (host : String) (port : UInt16) (addrs : List Addr) : State :=
  let s : State :=
    match s.socket.conn with
    | none => s
    | some fd => { s.closeSocket fd with socket := { s.socket with conn := none } }
  { s with connecting := some (.loop host port addrs) }

/-- `::connect` succeeds: the descriptor gets a connection. -/
def connected (s : State) (fd : Nat) (host : String) (port : UInt16) (addr : Addr) : State :=
  { s with
    socket := { s.socket with
      ipv6 := addr.ipv6
      peer := addr.peer
      host := host
      port := port }
    descs := Function.update s.descs fd (.connected s.connections)
    connections := s.connections + 1
    connecting := some .finish }

/-- The end of `connect`, after its loop. -/
def finish (s : State) (reason : String) (nodelay : Except String Unit) : State :=
  let s := { s with connecting := none }
  if s.socket.peer = "" then
    s.throw (.report ("connect failed: " ++ reason))
  else
    match nodelay with
    | .error reason => s.throw (.report ("setsockopt TCP_NODELAY failed: " ++ reason))
    | .ok () => s

/-! ## `send` and `recv` -/

/-- The condition of the loop. -/
def advance (s : State) (t : Transfer) : State :=
  if t.n < t.size then { s with call := some { t with pc := .loop } }
  else { s with call := none, log := .transferred t :: s.log }

/-- `MWR_REPORT_ON(conn < 0, ...)`. -/
def check (s : State) (t : Transfer) : State :=
  match s.socket.conn with
  | none =>
    { s with call := none }.throw (.report "error sending data: not connected")
  | some _ => s.advance t

/-- The operating system reports an error, or the end of the stream. -/
def fail (s : State) (direction : Direction) (reason : String) : State :=
  let s := { s.disconnectLocked with call := none }
  match direction with
  | .send => s.throw (.report ("error sending data: " ++ reason))
  | .recv => s.throw (.report ("error receiving data: " ++ reason))

/-- `n += r`. -/
def transferred (s : State) (t : Transfer) (connection r : Nat) : State :=
  let offset := s.position t.direction connection
  let s := { s with
    position := Function.update s.position t.direction
      (Function.update (s.position t.direction) connection (offset + r)) }
  s.advance { t with n := t.n + r, chunks := t.chunks ++ [.mk connection offset r] }

end State

/-! ## The steps -/

/-- What happens next. -/
inductive Act where
  | disconnect
  | connect (host : String) (port : UInt16) (info : Except String (List Addr))
  /-- `::socket` in the loop of `connect`. -/
  | socket (result : Except String Nat)
  /-- `::connect` in the loop of `connect`. -/
  | attempt (success : Bool)
  /-- The end of `connect`. -/
  | finish (reason : String) (nodelay : Except String Unit)
  /-- A call of `send` or `recv`. -/
  | transfer (direction : Direction) (size : Nat)
  /-- The call checks that there is a connection. -/
  | check
  /-- The call reads `m_conn` in its loop. -/
  | read
  /-- `::send` or `::recv` returns. -/
  | chunk (r : Except String Nat)

/-- One step, if it is possible. -/
def step (s : State) : Act → Option State
  | .disconnect => if s.connecting.isNone then some s.disconnectLocked else none
  | .connect host port info => if s.connecting.isNone then some (s.connect host port info) else none
  | .socket result =>
    match s.connecting with
    | some (.loop host port (addr :: addrs)) =>
      -- a descriptor that is open is not handed out again
      match result with
      | .ok fd =>
        if s.descs fd = .closed then some (s.createSocket host port addr addrs (.ok fd)) else none
      | .error reason => some (s.createSocket host port addr addrs (.error reason))
    | _ => none
  | .attempt success =>
    match s.connecting with
    | some (.attempt host port addr addrs) =>
      if success then
        match s.socket.conn with
        | none => none
        | some fd =>
          if s.descs fd = .unconnected then some (s.connected fd host port addr) else none
      else some (s.refused host port addrs)
    | _ => none
  | .finish reason nodelay =>
    match s.connecting with
    | some (.loop _ _ []) | some .finish => some (s.finish reason nodelay)
    | _ => none
  | .transfer direction size =>
    match s.call with
    | none => some { s with call := some (.mk direction size 0 .start []) }
    | some _ => none
  | .check =>
    match s.call with
    | some t => if t.pc = .start ∧ s.connecting.isNone then some (s.check t) else none
    | none => none
  | .read =>
    match s.call with
    | some t =>
      if t.pc = .loop ∧ s.connecting.isNone then
        some { s with call := some { t with pc := .chunk s.socket.conn } }
      else none
    | none => none
  | .chunk r =>
    match s.call with
    | some t =>
      match t.pc with
      | .chunk conn =>
        match r with
        | .error reason => some (s.fail t.direction reason)
        | .ok 0 => some (s.fail t.direction "disconnected")
        | .ok r =>
          match conn.bind fun fd => (s.descs fd).reach t.direction with
          | none => none
          | some connection =>
            if t.n + r ≤ t.size then some (s.transferred t connection r) else none
      | _ => none
    | none => none

/-- The class as a transition system. -/
def system (linux : Bool) : System State Act :=
  .ofStep (initial linux) step

end Mwr.ClientSocket
