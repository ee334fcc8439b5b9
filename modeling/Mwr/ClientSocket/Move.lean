import Mwr.ClientSocket.Model

/-!
# Moving a client socket

A translation of the move constructor and the move assignment of the class `socket`
in `src/mwr/utils/socket_posix.cpp` and `src/mwr/utils/socket_win32.cpp`.  Both
list the members one by one.

The constructor of the first file leaves out `m_port`.  A member that is left out
keeps what was in its memory, which `Memory` holds.  The assignments of both files
overwrite `m_conn` without closing it.  `movesWhole_iff` says which moves are right.
-/

namespace Mwr.ClientSocket

/-- The two files. -/
inductive Platform where
  | posix
  | win32
  deriving DecidableEq, Repr

/-- What the language leaves open: the memory of an object before its constructor
runs, and the strings that are left behind in `m_host` and `m_peer` of the source. -/
structure Memory where
  storage : Socket
  movedHost : String
  movedPeer : String

/-- The two objects after a move, and the handles that it has passed to
`close_socket`. -/
structure Moved where
  target : Socket
  source : Socket
  closed : List Nat

/-- The source, whose strings have been moved and whose handle has been reset. -/
def moveOut (m : Memory) (other : Socket) : Socket :=
  { other with conn := none, host := m.movedHost, peer := m.movedPeer }

/-- `socket(socket&& other)`. -/
def moveConstruct (platform : Platform) (m : Memory) (other : Socket) : Moved :=
  match platform with
  | .posix =>
    { target := { m.storage with
        conn := other.conn
        host := other.host
        peer := other.peer
        ipv6 := other.ipv6 }
      source := moveOut m other
      closed := [] }
  | .win32 =>
    { target := { m.storage with
        conn := other.conn
        host := other.host
        peer := other.peer
        ipv6 := other.ipv6
        port := other.port }
      source := moveOut m other
      closed := [] }

/-- `operator=(socket&& other)`, which is the same in both files. -/
def moveAssign (m : Memory) (target other : Socket) : Moved where
  target := { target with
    host := other.host
    peer := other.peer
    ipv6 := other.ipv6
    port := other.port
    conn := other.conn }
  source := moveOut m other
  closed := []

/-- A move into a new object, or into another object that exists. -/
inductive Move where
  | construct
  | assign (target : Socket)

namespace Move

def run (platform : Platform) (m : Memory) (other : Socket) : Move → Moved
  | construct => moveConstruct platform m other
  | assign target => moveAssign m target other

/-- The connection that the target holds before the move. -/
def held : Move → Option Nat
  | construct => none
  | assign target => target.conn

end Move

/-- `is_connected()`, `port()`, `host()`, `peer()` and `is_ipv6()`. -/
def Socket.observe (s : Socket) : Bool × UInt16 × String × String × Bool :=
  (s.isConnected, s.port, s.host, s.peer, s.ipv6)

/-- The move takes over the whole state of the source, whatever the language leaves
open. -/
structure MovesWhole (platform : Platform) (move : Move) (other : Socket) : Prop where
  target : ∀ m, (move.run platform m other).target.observe = other.observe
  source : ∀ m, (move.run platform m other).source.isConnected = false
  closed : ∀ m, ∀ fd ∈ move.held, (move.run platform m other).closed.count fd = 1
  initialised : ∀ m m', (move.run platform m other).target = (move.run platform m' other).target

/-- The constructors of the second file, and the assignments to a socket that is
not connected. -/
def Move.Complete (platform : Platform) : Move → Prop
  | .construct => platform = .win32
  | .assign target => target.isConnected = false

/-! ## Which moves are right -/

variable {other : Socket}

theorem movesWhole_construct_win32 : MovesWhole .win32 .construct other where
  target := fun _ => rfl
  source := fun _ => rfl
  closed := fun _ => nofun
  initialised := fun _ _ => rfl

/-- Two objects in different memory get different ports. -/
theorem not_movesWhole_construct_posix : ¬ MovesWhole .posix .construct other := by
  intro h
  have hport := h.initialised ⟨{ Socket.new with port := 0 }, "", ""⟩
    ⟨{ Socket.new with port := 1 }, "", ""⟩
  cases congrArg Socket.port hport

theorem movesWhole_assign (platform : Platform) {target : Socket}
    (h : target.isConnected = false) : MovesWhole platform (.assign target) other where
  target := fun _ => rfl
  source := fun _ => rfl
  closed := by
    intro m fd hfd
    rw [Socket.isConnected, show target.conn = some fd from hfd] at h
    cases h
  initialised := fun _ _ => rfl

theorem not_movesWhole_assign (platform : Platform) {target : Socket}
    (h : target.isConnected = true) : ¬ MovesWhole platform (.assign target) other := by
  obtain ⟨fd, hfd⟩ := Option.isSome_iff_exists.1 h
  intro hmoves
  cases hmoves.closed ⟨.new, "", ""⟩ fd hfd

/-- The moves that take over the whole state are the constructor on Windows, and
the assignments to a socket that is not connected. -/
theorem movesWhole_iff (platform : Platform) (move : Move) (other : Socket) :
    MovesWhole platform move other ↔ move.Complete platform := by
  cases move with
  | construct =>
    cases platform with
    | posix => exact iff_of_false not_movesWhole_construct_posix nofun
    | win32 => exact iff_of_true movesWhole_construct_win32 rfl
  | assign target =>
    cases h : target.isConnected with
    | false => exact iff_of_true (movesWhole_assign platform h) h
    | true =>
      refine iff_of_false (not_movesWhole_assign platform h) fun hcomplete => ?_
      rw [Move.Complete, h] at hcomplete
      cases hcomplete

/-- On POSIX systems the target has the port that was in its memory, and an
assignment loses the connection of the target. -/
theorem move_incomplete :
    (moveConstruct .posix ⟨{ Socket.new with port := 1 }, "", ""⟩
        ⟨some 3, "localhost", "127.0.0.1:4711", false, 4711⟩).target =
      ⟨some 3, "localhost", "127.0.0.1:4711", false, 1⟩ ∧
    (moveAssign ⟨.new, "", ""⟩ ⟨some 4, "localhost", "127.0.0.1:4712", false, 4712⟩
        ⟨some 3, "localhost", "127.0.0.1:4711", false, 4711⟩).closed = [] ∧
    ¬ MovesWhole .posix .construct ⟨some 3, "localhost", "127.0.0.1:4711", false, 4711⟩ ∧
    ¬ MovesWhole .win32 (.assign ⟨some 4, "localhost", "127.0.0.1:4712", false, 4712⟩)
      ⟨some 3, "localhost", "127.0.0.1:4711", false, 4711⟩ :=
  ⟨rfl, rfl, not_movesWhole_construct_posix, not_movesWhole_assign .win32 rfl⟩

end Mwr.ClientSocket
