import Mathlib.Tactic.Common
import Mwr.CodeLib.CallStack
import Mwr.CodeLib.Transition
import Mwr.Core.Report

/-!
# The server socket

A translation of the class `server_socket` of `include/mwr/utils/socket.h` and
`src/mwr/utils/socket_posix.cpp` into a step function.  A step runs a method
from one point where it drops the mutex to the next, so that the calls of any
number of threads interleave at these points.  A label says which thread takes
the step, and what the operating system and the callbacks answer in it.

* `State` holds the fields of the object, the calls in progress, and the
  descriptors that the operating system has handed out.
* A callback runs without the mutex.  The thread that runs it may call the
  object again, and `State.canCall` says when it may.
* A `send` or `recv` that fails calls `disconnect`, and changes nothing else.
-/

namespace Mwr.ServerSocket

open Mwr.CodeLib
open Mwr.CodeLib.Transition

/-! ## The data -/

/-- A connection that `::accept` has returned, with the address of the peer. -/
structure Peer where
  conn : Nat
  host : String
  port : Nat

/-- A `pollfd` with a nonzero `revents`, and whether `POLLIN` is set in it. -/
structure Ready where
  fd : Nat
  pollin : Bool

/-- The position of a call in progress. -/
inductive Call where
  /-- At the top of the loop of `poll`. -/
  | poll
  /-- In `::poll`. -/
  | waiting (listenSocket : Option Nat) (pollfds : List Nat)
  /-- In the loop of `poll` over `pollfds`, with these left. -/
  | scanning (listenSocket : Option Nat) (ready : List Ready)
  /-- In `notify_connect`, which `accept_new_client` calls from that loop. -/
  | connecting (client conn : Nat) (listenSocket : Option Nat) (ready : List Ready)
  /-- In `notify_disconnect`, which `disconnect` calls. -/
  | disconnecting (client : Nat)

/-- What a user of the object sees. -/
inductive Event where
  | connect (client : Nat) (host : String) (port : Nat)
  | disconnect (client : Nat)
  /-- `poll` has returned a client or -1, or has thrown. -/
  | polled (thread : Nat) (result : Except Fault (Option Nat))

/-- The fields of the object; `connectFn` and `disconnectFn` say whether
`m_connect` and `m_disconnect` hold a function.  Around them: whether
`MWR_LINUX` is defined, the descriptors that are open, the calls in progress,
and what has happened. -/
structure State where
  socket : Option Nat
  maxClients : Nat
  nextClientId : Nat
  clients : Std.TreeMap Nat Nat
  connectFn : Bool
  disconnectFn : Bool
  linux : Bool
  descriptors : List Nat
  calls : List (Nat × Call)
  log : List Event

/-- A server that listens on a socket and has no clients. -/
def initial (linux : Bool) (maxClients socket : Nat) : State where
  socket := some socket
  maxClients := maxClients
  nextClientId := 0
  clients := ∅
  connectFn := false
  disconnectFn := false
  linux := linux
  descriptors := [socket]
  calls := []
  log := []

/-! ## The methods -/

namespace State

/-- `num_clients()`. -/
def numClients (s : State) : Nat := s.clients.size

/-- `find_client(conn)`. -/
def findClient (s : State) (conn : Nat) : Option Nat :=
  (s.clients.toList.find? fun e => e.2 == conn).map Prod.fst

/-- `close_socket(socket)`, which leaves the descriptor open on Linux. -/
def closeSocket (s : State) (socket : Nat) : State :=
  { s with descriptors := if s.linux then s.descriptors else s.descriptors.erase socket }

theorem closeSockets_eq (s : State) (sockets : List Nat) :
    sockets.foldl closeSocket s = { s with
      descriptors := if s.linux then s.descriptors else s.descriptors.diff sockets } := by
  induction sockets generalizing s with
  | nil => rw [List.foldl_nil, List.diff_nil, ite_self]
  | cons socket sockets ih =>
    rw [List.foldl_cons, ih, closeSocket]
    cases s.linux with
    | true => rfl
    | false =>
      rw [List.diff_cons]
      rfl

/-- `unlisten()`. -/
def unlisten (s : State) : State :=
  match s.socket with
  | none => s
  | some socket => { s.closeSocket socket with socket := none }

theorem unlisten_eq (s : State) :
    s.unlisten = { s with socket := none, descriptors := s.unlisten.descriptors } := by
  cases hsocket : s.socket <;> simp only [unlisten, hsocket]
  · rw [← hsocket]
  · rfl

@[simp] theorem unlisten_socket (s : State) : s.unlisten.socket = none := by rw [unlisten_eq]

@[simp] theorem unlisten_clients (s : State) : s.unlisten.clients = s.clients := by rw [unlisten_eq]

@[simp] theorem unlisten_nextClientId (s : State) : s.unlisten.nextClientId = s.nextClientId := by
  rw [unlisten_eq]

@[simp] theorem unlisten_linux (s : State) : s.unlisten.linux = s.linux := by rw [unlisten_eq]

/-- `disconnect_all()`. -/
def disconnectAll (s : State) : State :=
  { s.clients.values.foldl closeSocket s with clients := ∅ }

/-- `disconnect(client)`, up to the callback. -/
def disconnect (s : State) (thread client : Nat) : State :=
  match s.clients[client]? with
  | none => s
  | some conn =>
    let s := { s.closeSocket conn with clients := s.clients.erase client }
    if s.disconnectFn then
      { s with
        calls := CallStack.push s.calls thread (.disconnecting client)
        log := .disconnect client :: s.log }
    else s

/-- The end of `accept_new_client`, where the client is inserted. -/
def insertClient (s : State) (client conn : Nat) (nodelay : Except String Unit) :
    State × Except Fault Unit :=
  match nodelay with
  | .error reason =>
    (s.closeSocket conn, .error (.report ("setsockopt TCP_NODELAY failed: " ++ reason)))
  | .ok () => ({ s with clients := s.clients.insert client conn }, .ok ())

/-- How `accept_new_client` leaves the mutex for the first time. -/
inductive Accepted where
  | done (result : Except Fault Unit)
  | connecting (client : Nat) (conn : Nat)

/-- `accept_new_client()`, up to the callback if there is one. -/
def acceptNewClient (s : State) (accepted : Except String Peer) (nodelay : Except String Unit) :
    State × Accepted :=
  match s.socket with
  | none => (s, .done (.ok ()))
  | some _ =>
    match accepted with
    | .error reason => (s, .done (.error (.report ("failed to accept connection: " ++ reason))))
    | .ok peer =>
      let s := { s with descriptors := peer.conn :: s.descriptors }
      if s.maxClients ≤ s.clients.size then
        (s.closeSocket peer.conn, .done (.ok ()))
      else
        let client := s.nextClientId
        let s := { s with nextClientId := client + 1 }
        if s.connectFn then
          ({ s with log := .connect client peer.host peer.port :: s.log },
            .connecting client peer.conn)
        else
          let (s, result) := s.insertClient client peer.conn nodelay
          (s, .done result)

/-- `accept_new_client()`, from the result of the callback on. -/
def connected (s : State) (client conn : Nat) (ok : Except Fault Bool)
    (nodelay : Except String Unit) : State × Except Fault Unit :=
  match ok with
  | .error fault => (s.closeSocket conn, .error fault)
  | .ok false => (s.closeSocket conn, .ok ())
  | .ok true => s.insertClient client conn nodelay

/-- `poll` returns or throws. -/
def leave (s : State) (thread : Nat) (result : Except Fault (Option Nat)) : State :=
  { s with
    calls := CallStack.pop s.calls thread
    log := .polled thread result :: s.log }

/-- `poll` reaches another position. -/
def advance (s : State) (thread : Nat) (call : Call) : State :=
  { s with calls := CallStack.advance s.calls thread call }

/-- `poll` goes on after `accept_new_client`. -/
def resume (s : State) (thread : Nat) (listenSocket : Option Nat) (ready : List Ready)
    (result : Except Fault Unit) : State :=
  match result with
  | .ok () => s.advance thread (.scanning listenSocket ready)
  | .error fault => s.leave thread (.error fault)

/-- A thread may call a method when it is in none, or in a callback. -/
def canCall (s : State) (thread : Nat) : Bool :=
  match CallStack.top s.calls thread with
  | none | some (.connecting ..) | some (.disconnecting _) => true
  | _ => false

end State

/-! ## The steps -/

/-- What happens next. -/
inductive Act where
  | onConnect (fn : Bool)
  | onDisconnect (fn : Bool)
  | unlisten
  | disconnectAll
  | disconnect (thread client : Nat)
  /-- The callback of `disconnect` returns or throws. -/
  | disconnected (thread : Nat)
  | poll (thread : Nat)
  /-- `poll` collects the descriptors. -/
  | collect (thread : Nat)
  /-- `::poll` returns the descriptors that are ready, or none in time. -/
  | polled (thread : Nat) (result : Except String (List Ready))
  /-- `poll` calls `accept_new_client`. -/
  | accept (thread : Nat) (accepted : Except String Peer) (nodelay : Except String Unit)
  /-- The callback of `accept_new_client` returns or throws. -/
  | connected (thread : Nat) (ok : Except Fault Bool) (nodelay : Except String Unit)
  /-- `poll` looks at another descriptor than its listening socket. -/
  | scan (thread : Nat)
  /-- `poll` has seen all descriptors, and finds its time to be over or not. -/
  | elapsed (thread : Nat) (late : Bool)

/-- The operating system does not hand out a descriptor that is open. -/
def fresh (s : State) : Except String Peer → Bool
  | .ok peer => !s.descriptors.contains peer.conn
  | .error _ => true

/-- One step, if it is possible. -/
def step (s : State) : Act → Option State
  | .onConnect fn => some { s with connectFn := fn }
  | .onDisconnect fn => some { s with disconnectFn := fn }
  | .unlisten => some s.unlisten
  | .disconnectAll => some s.disconnectAll
  | .disconnect thread client =>
    if s.canCall thread then some (s.disconnect thread client) else none
  | .disconnected thread =>
    match CallStack.top s.calls thread with
    | some (.disconnecting _) => some { s with calls := CallStack.pop s.calls thread }
    | _ => none
  | .poll thread =>
    if s.canCall thread then some { s with calls := CallStack.push s.calls thread .poll } else none
  | .collect thread =>
    match CallStack.top s.calls thread with
    | some .poll =>
      match s.socket.toList ++ s.clients.values with
      | [] => some (s.leave thread (.error (.report "server socket disconnected")))
      | pollfds => some (s.advance thread (.waiting s.socket pollfds))
    | _ => none
  | .polled thread result =>
    match CallStack.top s.calls thread with
    | some (.waiting listenSocket pollfds) =>
      match result with
      | .error reason =>
        some (s.leave thread (.error (.report ("failed to poll server socket: " ++ reason))))
      | .ok [] => some (s.leave thread (.ok none))
      | .ok ready =>
        if (ready.map Ready.fd).Sublist pollfds then
          some (s.advance thread (.scanning listenSocket ready))
        else none
    | _ => none
  | .accept thread accepted nodelay =>
    match CallStack.top s.calls thread with
    | some (.scanning (some listenSocket) (⟨fd, true⟩ :: ready)) =>
      if fd = listenSocket ∧ fresh s accepted then
        match s.acceptNewClient accepted nodelay with
        | (s, .done result) => some (s.resume thread (some listenSocket) ready result)
        | (s, .connecting client conn) =>
          some (s.advance thread (.connecting client conn (some listenSocket) ready))
      else none
    | _ => none
  | .connected thread ok nodelay =>
    match CallStack.top s.calls thread with
    | some (.connecting client conn listenSocket ready) =>
      let (s, result) := s.connected client conn ok nodelay
      some (s.resume thread listenSocket ready result)
    | _ => none
  | .scan thread =>
    match CallStack.top s.calls thread with
    | some (.scanning listenSocket (⟨fd, pollin⟩ :: ready)) =>
      if listenSocket = some fd then
        if pollin then none else some (s.advance thread (.scanning listenSocket ready))
      else
        match s.findClient fd with
        | none => some (s.advance thread (.scanning listenSocket ready))
        | some client => some (s.leave thread (.ok (some client)))
    | _ => none
  | .elapsed thread late =>
    match CallStack.top s.calls thread with
    | some (.scanning _ []) =>
      some (if late then s.leave thread (.ok none) else s.advance thread .poll)
    | _ => none

/-- The server as a transition system. -/
def system (linux : Bool) (maxClients socket : Nat) : System State Act :=
  .ofStep (initial linux maxClients socket) step

/-! ## The steps of `poll` outside of `accept_new_client` -/

/-- The callback of `accept_new_client` is running. -/
def Call.isConnecting : Call → Bool
  | .connecting .. => true
  | _ => false

/-- `poll` returns, or goes on at another position.  It is not in the callback of
`accept_new_client` before or after the step. -/
inductive Moved (s : State) (thread : Nat) : State → Prop
  | leave (call : Call) (result : Except Fault (Option Nat)) :
    CallStack.top s.calls thread = some call → call.isConnecting = false →
    Moved s thread (s.leave thread result)
  | advance (call call' : Call) :
    CallStack.top s.calls thread = some call → call.isConnecting = false →
    call'.isConnecting = false → Moved s thread (s.advance thread call')

variable {s s' : State} {thread : Nat}

theorem moved_collect (hstep : step s (.collect thread) = some s') : Moved s thread s' := by
  simp only [step] at hstep
  split at hstep
  next htop =>
    split at hstep <;> cases hstep
    · exact .leave _ _ htop rfl
    · exact .advance _ _ htop rfl rfl
  next => cases hstep

theorem moved_polled {result : Except String (List Ready)}
    (hstep : step s (.polled thread result) = some s') : Moved s thread s' := by
  simp only [step] at hstep
  split at hstep
  next htop =>
    split at hstep
    · cases hstep
      exact .leave _ _ htop rfl
    · cases hstep
      exact .leave _ _ htop rfl
    · rw [Option.ite_none_right_eq_some] at hstep
      cases hstep.2
      exact .advance _ _ htop rfl rfl
  next => cases hstep

theorem moved_scan (hstep : step s (.scan thread) = some s') : Moved s thread s' := by
  simp only [step] at hstep
  split at hstep
  next htop =>
    split at hstep
    · rw [Option.ite_none_left_eq_some] at hstep
      cases hstep.2
      exact .advance _ _ htop rfl rfl
    · split at hstep <;> cases hstep
      · exact .advance _ _ htop rfl rfl
      · exact .leave _ _ htop rfl
  next => cases hstep

theorem moved_elapsed {late : Bool} (hstep : step s (.elapsed thread late) = some s') :
    Moved s thread s' := by
  simp only [step] at hstep
  split at hstep
  next htop =>
    cases hstep
    cases late
    · exact .advance _ _ htop rfl rfl
    · exact .leave _ _ htop rfl
  next => cases hstep

end Mwr.ServerSocket
