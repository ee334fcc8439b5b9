import Mwr.CodeLib.Throwing
import Mwr.ServerSocket.Model

/-!
# The whole server socket

The model of the class `server_socket` with the methods that are missing in
`Mwr.ServerSocket.Model`: `listen` with its `create_socket`, and `send` and `recv`.
A step of this model is a step of that one, or one of these methods.

* `listen` keeps the mutex, so that it is one step.
* `send` and `recv` look for the descriptor of the client before each chunk, and
  call `disconnect` when the transfer of a chunk fails.
* `History` records what a run has done so far.
-/

namespace Mwr.ServerSocket

open Mwr.CodeLib
open Mwr.CodeLib.Transition

/-! ## The data -/

/-- An address family. -/
inductive Family where
  | unspec
  | inet
  | inet6
  | other (number : Int)
  deriving DecidableEq, Repr

/-- The number of a family that is neither `AF_INET` nor `AF_INET6`. -/
def Family.number : Family → Int
  | other number => number
  | _ => 0

/-- The options that `create_socket` sets. -/
inductive SockOpt where
  | reuseAddr
  | reusePort
  | v6Only
  deriving DecidableEq, Repr

def SockOpt.name : SockOpt → String
  | reuseAddr => "SO_REUSEADDR"
  | reusePort => "SO_REUSEPORT"
  | v6Only => "IPV6_V6ONLY"

/-- What the operating system answers to the calls of `listen`; `getaddrinfo` has
the family of the first address that it finds, and `getsockname` has a port and a
host. -/
structure ListenOs where
  inetPton : Family → String → Bool
  getaddrinfo : Family → String → Option Family
  socket : Except String Nat
  setsockopt : SockOpt → Except String Unit
  bind : Except String Unit
  listen : Except String Unit
  getsockname : Except String (UInt16 × String)

/-- A call of `send` or `recv`: its client, the number of bytes that are missing,
and the descriptor when it is in `::send` or `::recv`. -/
structure Transfer where
  client : Nat
  left : Nat
  conn : Option Nat
  deriving DecidableEq, Repr

/-- The other fields of the object, the two flags `g_no_ipv4` and `g_no_ipv6`, and
the calls of `send` and `recv` in progress, by thread. -/
structure Server extends State where
  host : String
  port : UInt16
  ipv6Only : Bool
  noIpv4 : Bool
  noIpv6 : Bool
  transfers : List (Nat × Transfer)

/-- The constructor `server_socket(max_clients)`. -/
def Server.new (linux noIpv4 noIpv6 : Bool) (maxClients : Nat) : Server where
  socket := none
  maxClients := maxClients
  nextClientId := 0
  clients := ∅
  connectFn := false
  disconnectFn := false
  linux := linux
  descriptors := []
  calls := []
  log := []
  host := ""
  port := 0
  ipv6Only := noIpv4 && !noIpv6
  noIpv4 := noIpv4
  noIpv6 := noIpv6
  transfers := []

/-! ## `listen` -/

namespace ListenOs

/-- `SET_SOCKOPT`. -/
def setSockopt (os : ListenOs) (opt : SockOpt) : Except Fault Unit :=
  match os.setsockopt opt with
  | .ok () => .ok ()
  | .error reason => .error (.report ("setsockopt " ++ opt.name ++ " failed: " ++ reason))

/-- `af_from_addr(host)`. -/
def afFromAddr (os : ListenOs) (host : String) : Family :=
  if os.inetPton .inet6 host then .inet6
  else if os.inetPton .inet host then .inet
  else (os.getaddrinfo .unspec host).getD .unspec

/-- `resolve_addr(family, addr)`. -/
def resolveAddr (os : ListenOs) (family : Family) (addr : String) : Except Fault Unit :=
  if os.inetPton family addr then .ok ()
  else
    match os.getaddrinfo family addr with
    | none => .error (.report ("failed to resolve '" ++ addr ++ "'"))
    | some _ => .ok ()

/-- The constructor `socket_addr(family, port, host)`. -/
def socketAddr (os : ListenOs) (family : Family) (host : String) : Except Fault Unit :=
  match family with
  | .inet | .inet6 => if host = "" then .ok () else os.resolveAddr family host
  | .unspec | .other _ =>
    .error (.error ("accept: unknown protocol family " ++ toString family.number))

/-- The options of a new socket; `MWR_MACOS` is defined where `MWR_LINUX` is not. -/
def setOptions (os : ListenOs) (linux : Bool) (family : Family) : Except Fault Unit := do
  os.setSockopt .reuseAddr
  if !linux then
    os.setSockopt .reusePort
  if family = .inet6 then
    os.setSockopt .v6Only

end ListenOs

/-- A method that may throw; the object keeps what the method has done to it. -/
abbrev ServerM := ExceptT Fault (StateM Server)

namespace Server

/-- `is_listening()`. -/
def isListening (s : Server) : Bool := s.socket.isSome

/-- The operating system hands out the descriptor of the listening socket. -/
def openSocket (s : Server) (fd : Nat) : Server :=
  { s with socket := some fd, descriptors := fd :: s.descriptors }

/-- `close_socket(m_socket)`. -/
def closeListening (s : Server) : Server :=
  { s with toState := s.toState.unlisten }

/-- `unlisten()`. -/
def unlisten (s : Server) : Server :=
  { s.closeListening with host := "", port := 0 }

/-- `create_socket(family, n, socket, port, host)`. -/
def createSocket (os : ListenOs) (family : Family) (port : UInt16) (host : String) :
    ServerM (UInt16 × String) := do
  match os.socket with
  | .error reason =>
    modify fun s => { s with socket := none }
    throw (.report ("failed to create socket: " ++ reason))
  | .ok fd =>
    modify fun s => s.openSocket fd
  ofExcept (os.setOptions (← get).linux family)
  if 0 < port ∨ host ≠ "" then
    ofExcept (os.socketAddr family host)
    match os.bind with
    | .error reason =>
      modify closeListening
      throw (.report ("binding socket to port " ++ toString port ++ " failed: " ++ reason))
    | .ok () => pure ()
  match os.listen with
  | .error reason => throw (.report ("listen for connections failed: " ++ reason))
  | .ok () => pure ()
  if port = 0 ∨ host = "" then
    match os.getsockname with
    | .error reason => throw (.error ("getsockname failed: " ++ reason))
    | .ok name => return name
  else
    return (port, host)

/-- The test at the top of `listen`. -/
def alreadyListening (s : Server) (port : UInt16) (addr : String) : Bool :=
  s.socket.isSome && (port = 0 || port = s.port) &&
    (addr = "" || addr = "localhost" || addr = s.host)

/-- The family that `listen` chooses. -/
def family (s : Server) (os : ListenOs) (addr : String) : Family :=
  if s.noIpv6 then .inet
  else if s.noIpv4 || s.ipv6Only then .inet6
  else if addr ≠ "" then os.afFromAddr addr
  else .inet

/-- `listen(port, addr)`. -/
def listen (os : ListenOs) (port : UInt16) (addr : String) : ServerM Unit := do
  let s ← get
  if s.alreadyListening port addr then
    return
  modify unlisten
  if s.noIpv4 ∧ s.noIpv6 then
    throw (.report "IPv4 and IPv6 both disabled via environment")
  let name ← createSocket os (s.family os addr) port addr
  modify fun s => { s with port := name.1, host := name.2 }

/-! ## The other methods -/

/-- `find_socket(client)`. -/
def findSocket (s : Server) (client : Nat) : Except Fault Nat :=
  match s.clients[client]? with
  | none => .error (.report ("client " ++ toString client ++ " not connected"))
  | some conn => .ok conn

/-- The call of `send` or `recv` that a thread is in. -/
def transfer (s : Server) (thread : Nat) : Option Transfer :=
  (s.transfers.find? fun e => e.1 == thread).map Prod.snd

/-- The call ends. -/
def endTransfer (s : Server) (thread : Nat) : Server :=
  { s with transfers := s.transfers.eraseP fun e => e.1 == thread }

/-- The call reaches another position. -/
def setTransfer (s : Server) (thread : Nat) (t : Transfer) : Server :=
  { s with transfers := (thread, t) :: (s.endTransfer thread).transfers }

end Server

/-! ## The steps -/

/-- The thread that takes the step, where it matters. -/
def Act.thread : Act → Option Nat
  | .onConnect _ | .onDisconnect _ | .unlisten | .disconnectAll => none
  | .disconnect thread _ | .disconnected thread | .poll thread | .collect thread
  | .polled thread _ | .accept thread _ _ | .connected thread _ _ | .scan thread
  | .elapsed thread _ => some thread

namespace Server

/-- What happens next. -/
inductive Act where
  /-- A step of the model without these methods. -/
  | call (a : ServerSocket.Act)
  | listen (port : UInt16) (addr : String) (os : ListenOs)
  | setIpv6Only (set : Bool)
  /-- A thread calls `send` or `recv`. -/
  | transfer (thread client size : Nat)
  /-- The call looks for the descriptor of its client. -/
  | find (thread : Nat)
  /-- `::send` or `::recv` returns. -/
  | transferred (thread : Nat) (r : Except String Nat)

/-- The operating system does not hand out a descriptor that is open. -/
def freshSocket (s : Server) : Except String Nat → Bool
  | .ok fd => !s.unlisten.descriptors.contains fd
  | .error _ => true

/-- One step, if it is possible.  There is none after the process has aborted. -/
def step (s : Server) : Act → Option Server
  | .call a =>
    if a.thread.any fun thread => (s.transfer thread).isSome then none
    else
      (ServerSocket.step s.toState a).map fun t =>
        match a with
        | .unlisten => { s with toState := t, host := "", port := 0 }
        | _ => { s with toState := t }
  | .listen port addr os =>
    if s.freshSocket os.socket then
      match Throwing.exec (listen os port addr) s with
      | (.error (.error _), _) => none
      | (_, s) => some s
    else none
  | .setIpv6Only set => some { s with ipv6Only := set }
  | .transfer thread client size =>
    if s.canCall thread ∧ (s.transfer thread).isNone then
      some (s.setTransfer thread ⟨client, size, none⟩)
    else none
  | .find thread =>
    match s.transfer thread with
    | some ⟨client, left, none⟩ =>
      -- the call has transferred all bytes
      if left = 0 then some (s.endTransfer thread)
      else
        match s.findSocket client with
        | .error _ => some (s.endTransfer thread)
        | .ok conn => some (s.setTransfer thread ⟨client, left, some conn⟩)
    | _ => none
  | .transferred thread r =>
    match s.transfer thread with
    | some ⟨client, left, some _⟩ =>
      match r with
      -- the call disconnects the client, and throws when the callback has returned
      | .error _ | .ok 0 =>
        some { s.endTransfer thread with toState := s.toState.disconnect thread client }
      | .ok r => if r ≤ left then some (s.setTransfer thread ⟨client, left - r, none⟩) else none
    | _ => none

/-- The server as a transition system. -/
def system (linux noIpv4 noIpv6 : Bool) (maxClients : Nat) : System Server Act :=
  .ofStep (.new linux noIpv4 noIpv6 maxClients) step

end Server

/-! ## The history of a run -/

/-- What a run has done so far: the connections that `::accept` has returned, each
descriptor with the number of its connection, the latest first; the identifiers that have
been assigned, and the entries that have been in the map of the clients, each with the
number of its connection; the descriptors that the operating system has handed out, and
the clients that have been inserted and have left. -/
structure History where
  accepts : Nat
  connections : List (Nat × Nat)
  assigned : List (Nat × Nat)
  entered : List (Nat × Option Nat)
  obtained : List Nat
  inserted : List Nat
  left : List Nat
  deriving DecidableEq, Repr

namespace History

def empty : History := ⟨0, [], [], [], [], [], []⟩

/-- The connection of a descriptor is the latest one that `::accept` has returned it
for. -/
def connection (h : History) (fd : Nat) : Option Nat := h.connections.lookup fd

/-- `::accept` returns descriptors, at most one in a step. -/
def accept (h : History) (accepted : List Nat) : History := { h with
  accepts := h.accepts + accepted.length
  connections := accepted.zipIdx h.accepts ++ h.connections }

/-- A step adds to the history what it has changed. -/
def note (h : History) (opened accepted : List Nat) (s s' : State) : History where
  accepts := (h.accept accepted).accepts
  connections := (h.accept accepted).connections
  assigned :=
    if s'.nextClientId = s.nextClientId then h.assigned
    else (s.nextClientId, h.accepts) :: h.assigned
  entered := (s'.clients.toList.diff s.clients.toList).map
    (Prod.map id (h.accept accepted).connection) ++ h.entered
  obtained := opened ++ accepted ++ h.obtained
  inserted := s'.clients.keys.diff s.clients.keys ++ h.inserted
  left := s.clients.keys.diff s'.clients.keys ++ h.left

end History

/-- The descriptor that `::accept` returns in a step. -/
def State.accepted (s : State) : ServerSocket.Act → List Nat
  | .accept _ (.ok peer) _ => if s.socket.isSome then [peer.conn] else []
  | _ => []

namespace Server

/-- The descriptor that `::socket` returns in a step. -/
def opened (s : Server) : Act → List Nat
  | .listen port addr os =>
    match os.socket with
    | .ok fd => if s.alreadyListening port addr ∨ s.noIpv4 ∧ s.noIpv6 then [] else [fd]
    | .error _ => []
  | _ => []

/-- The descriptor that `::accept` returns in a step. -/
def accepted (s : Server) : Act → List Nat
  | .call a => s.toState.accepted a
  | _ => []

/-- What a step adds to the history. -/
def note (s : Server) (a : Act) (s' : Server) (h : History) : History :=
  h.note (s.opened a) (s.accepted a) s.toState s'.toState

/-- The server with the history of its run. -/
def observed (linux noIpv4 noIpv6 : Bool) (maxClients : Nat) : System (Server × History) Act :=
  .ofStep (.new linux noIpv4 noIpv6 maxClients, .empty) (System.observe step note)

end Server

end Mwr.ServerSocket
