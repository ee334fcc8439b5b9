import Mathlib.Algebra.Order.Sub.Basic
import Mathlib.Data.Multiset.OrderedMonoid
import Mwr.CodeLib.Ledger
import Mwr.CodeLib.MapEntries
import Mwr.ServerSocket.Server

/-!
# The accounts of the server

The descriptors of a server are the resources of a `Ledger`.  The listening socket is
the root, the connections whose callbacks are running are the pending entries, and the
clients are the active ones.

* `ledger` is the abstraction, and `Frame` says which steps it does not show.
* `Books` is what the simulation proves of a method: its step is a sequence of steps
  of the ledger.
-/

namespace Mwr.ServerSocket

open Mwr.CodeLib
open Mwr.CodeLib.Ledger
open Mwr.CodeLib.MapEntries
open Relation

/-- The connection of a running callback, with its identifier. -/
def Call.inflight : Call → Option (Nat × Nat)
  | .connecting client conn _ _ => some (client, conn)
  | _ => none

/-- The client of a call of the disconnect callback. -/
def Event.disconnected : Event → Option Nat
  | .disconnect client => some client
  | _ => none

/-- The connections whose callbacks are running. -/
def inflight (calls : List (Nat × Call)) : Multiset (ℕ × ℕ) :=
  ↑(calls.filterMap fun e => e.2.inflight)

/-- The clients whose disconnect callbacks have been called. -/
def notified (log : List Event) : Multiset ℕ := ↑(log.filterMap Event.disconnected)

namespace State

/-- The accounts of a server and the history of its run. -/
def ledger (s : State) (h : History) : Ledger ℕ where
  root := ↑s.socket.toList
  pending := inflight s.calls
  active := entries s.clients
  next := s.nextClientId
  inUse := ↑s.descriptors
  obtained := ↑h.obtained
  entered := ↑h.inserted
  left := ↑h.left
  notified := ServerSocket.notified s.log

/-- A client that leaves in the step gets its callback. -/
def Notifies (s : State) : Act → Prop
  | .disconnectAll => s.clients.isEmpty
  | .disconnect _ _ => s.disconnectFn
  | _ => True

end State

open State

variable {s s' s₁ : State} {h : History} {opened accepted : List Nat} {thread : Nat}

/-! ## The calls in progress -/

theorem inflight_push (calls : List (Nat × Call)) (thread : Nat) (call : Call) :
    inflight (CallStack.push calls thread call) = ↑call.inflight.toList + inflight calls := by
  rw [CallStack.push, inflight, List.filterMap_cons, inflight]
  cases call.inflight <;> rfl

theorem inflight_pop {calls : List (Nat × Call)} {call : Call}
    (htop : CallStack.top calls thread = some call) :
    inflight calls = ↑call.inflight.toList + inflight (CallStack.pop calls thread) := by
  have hperm : inflight calls = inflight ((thread, call) :: CallStack.pop calls thread) :=
    Multiset.coe_eq_coe.2 ((CallStack.perm_pop htop).filterMap _)
  rw [hperm]
  exact inflight_push _ _ _

theorem inflight_eq_none {call : Call} (hcall : call.isConnecting = false) :
    call.inflight = none := by
  cases call with
  | connecting => cases hcall
  | poll | waiting | scanning | disconnecting => rfl

theorem notified_cons (e : Event) (log : List Event) :
    notified (e :: log) = ↑e.disconnected.toList + notified log := by
  rw [notified, List.filterMap_cons, notified]
  cases e.disconnected <;> rfl

/-! ## Steps that the ledger does not show -/

/-- Nothing changes but the positions of calls in progress, the callbacks and the log,
where no disconnect callback is called. -/
structure Frame (s s' : State) : Prop where
  linux : s'.linux = s.linux
  socket : s'.socket = s.socket
  clients : s'.clients = s.clients
  nextClientId : s'.nextClientId = s.nextClientId
  descriptors : s'.descriptors = s.descriptors
  inflight : inflight s'.calls = inflight s.calls
  notified : notified s'.log = notified s.log

theorem Frame.ledger_eq (hframe : Frame s s') (h : History) : s'.ledger h = s.ledger h := by
  unfold ledger
  rw [hframe.socket, hframe.inflight, hframe.clients, hframe.nextClientId, hframe.descriptors,
    hframe.notified]

theorem Frame.note_eq (hframe : Frame s₁ s') :
    h.note opened accepted s s' = h.note opened accepted s s₁ := by
  unfold History.note
  rw [hframe.clients, hframe.nextClientId]

theorem Frame.trans (h : Frame s s₁) (h' : Frame s₁ s') : Frame s s' where
  linux := h'.linux.trans h.linux
  socket := h'.socket.trans h.socket
  clients := h'.clients.trans h.clients
  nextClientId := h'.nextClientId.trans h.nextClientId
  descriptors := h'.descriptors.trans h.descriptors
  inflight := h'.inflight.trans h.inflight
  notified := h'.notified.trans h.notified

/-- A call ends that is in no connect callback. -/
theorem frame_pop {call : Call} (htop : CallStack.top s.calls thread = some call)
    (hcall : call.isConnecting = false) :
    Frame s { s with calls := CallStack.pop s.calls thread } := by
  refine ⟨rfl, rfl, rfl, rfl, rfl, ?_, rfl⟩
  rw [inflight_pop htop, inflight_eq_none hcall]
  exact (zero_add _).symm

theorem frame_push {call : Call} (hcall : call.isConnecting = false) :
    Frame s { s with calls := CallStack.push s.calls thread call } := by
  refine ⟨rfl, rfl, rfl, rfl, rfl, ?_, rfl⟩
  rw [inflight_push, inflight_eq_none hcall]
  exact zero_add _

theorem frame_pop_leave (result : Except Fault (Option Nat)) :
    Frame { s with calls := CallStack.pop s.calls thread } (s.leave thread result) :=
  ⟨rfl, rfl, rfl, rfl, rfl, rfl, rfl⟩

/-- `poll` goes on after a call that has ended. -/
theorem frame_pop_resume (listenSocket : Option Nat) (ready : List Ready)
    (result : Except Fault Unit) :
    Frame { s with calls := CallStack.pop s.calls thread }
      (s.resume thread listenSocket ready result) := by
  unfold resume
  split
  · exact frame_push rfl
  · exact frame_pop_leave _

theorem frame_resume {call : Call} (htop : CallStack.top s.calls thread = some call)
    (hcall : call.isConnecting = false) (listenSocket : Option Nat) (ready : List Ready)
    (result : Except Fault Unit) : Frame s (s.resume thread listenSocket ready result) :=
  (frame_pop htop hcall).trans (frame_pop_resume _ _ _)

theorem Moved.frame (h : Moved s thread s') : Frame s s' := by
  cases h with
  | leave call result htop hcall => exact (frame_pop htop hcall).trans (frame_pop_leave result)
  | advance call call' htop hcall hcall' =>
    exact (frame_pop htop hcall).trans (frame_push hcall')

/-! ## What a step adds to the history -/

variable (h opened accepted)

theorem inserted_note :
    (↑(h.note opened accepted s s').inserted : Multiset ℕ) =
      (entries s'.clients).map Prod.fst - (entries s.clients).map Prod.fst + ↑h.inserted := by
  rw [History.note, ← Multiset.coe_add, map_fst_entries, map_fst_entries, Multiset.coe_sub]

theorem left_note :
    (↑(h.note opened accepted s s').left : Multiset ℕ) =
      (entries s.clients).map Prod.fst - (entries s'.clients).map Prod.fst + ↑h.left := by
  rw [History.note, ← Multiset.coe_add, map_fst_entries, map_fst_entries, Multiset.coe_sub]

/-- The map has gained entries. -/
theorem note_of_gain {gain : Multiset (ℕ × ℕ)}
    (hclients : entries s'.clients = gain + entries s.clients) :
    (↑(h.note opened accepted s s').inserted : Multiset ℕ) = gain.map Prod.fst + ↑h.inserted ∧
      (↑(h.note opened accepted s s').left : Multiset ℕ) = ↑h.left := by
  rw [inserted_note, left_note, hclients, Multiset.map_add, Multiset.add_sub_cancel_right,
    tsub_eq_zero_of_le (Multiset.le_add_left _ _), zero_add]
  exact ⟨rfl, rfl⟩

/-- The map has lost entries. -/
theorem note_of_loss {loss : Multiset (ℕ × ℕ)}
    (hclients : entries s.clients = loss + entries s'.clients) :
    (↑(h.note opened accepted s s').inserted : Multiset ℕ) = ↑h.inserted ∧
      (↑(h.note opened accepted s s').left : Multiset ℕ) = loss.map Prod.fst + ↑h.left := by
  rw [inserted_note, left_note, hclients, Multiset.map_add, Multiset.add_sub_cancel_right,
    tsub_eq_zero_of_le (Multiset.le_add_left _ _), zero_add]
  exact ⟨rfl, rfl⟩

/-! ## The simulation -/

/-- What is known of a step that opens and accepts some descriptors.  It draws at most
one identifier, for a connection, and it is a sequence of steps of the ledger. -/
structure Books (quiet : Bool) (opened accepted : List Nat) (h : History) (s s' : State) :
    Prop where
  linux : s'.linux = s.linux
  next : s'.nextClientId = s.nextClientId ∨
    s'.nextClientId = s.nextClientId + 1 ∧ accepted.length = 1
  steps : ReflTransGen (Step s.linux quiet) (s.ledger h)
    (s'.ledger (h.note opened accepted s s'))

variable {h opened accepted}
variable {quiet : Bool}

/-- A step whose map gains entries. -/
theorem Books.of_gain {gain : Multiset (ℕ × ℕ)} (hlinux : s'.linux = s.linux)
    (hnext : s'.nextClientId = s.nextClientId ∨
      s'.nextClientId = s.nextClientId + 1 ∧ accepted.length = 1)
    (hclients : entries s'.clients = gain + entries s.clients)
    (hsteps : ReflTransGen (Step s.linux quiet) (s.ledger h) {
      root := ↑s'.socket.toList
      pending := inflight s'.calls
      active := gain + entries s.clients
      next := s'.nextClientId
      inUse := ↑s'.descriptors
      obtained := ↑(opened ++ accepted ++ h.obtained)
      entered := gain.map Prod.fst + ↑h.inserted
      left := ↑h.left
      notified := notified s'.log }) :
    Books quiet opened accepted h s s' := by
  refine ⟨hlinux, hnext, ?_⟩
  obtain ⟨hinserted, hleft⟩ := note_of_gain h opened accepted hclients
  unfold State.ledger at hsteps ⊢
  rw [hinserted, hleft, hclients]
  exact hsteps

/-- A step whose map loses entries. -/
theorem Books.of_loss {loss : Multiset (ℕ × ℕ)} (hlinux : s'.linux = s.linux)
    (hnext : s'.nextClientId = s.nextClientId)
    (hclients : entries s.clients = loss + entries s'.clients)
    (hsteps : ReflTransGen (Step s.linux quiet) (s.ledger h) {
      root := ↑s'.socket.toList
      pending := inflight s'.calls
      active := entries s'.clients
      next := s'.nextClientId
      inUse := ↑s'.descriptors
      obtained := ↑(opened ++ accepted ++ h.obtained)
      entered := ↑h.inserted
      left := loss.map Prod.fst + ↑h.left
      notified := notified s'.log }) :
    Books quiet opened accepted h s s' := by
  refine ⟨hlinux, .inl hnext, ?_⟩
  obtain ⟨hinserted, hleft⟩ := note_of_loss h opened accepted hclients
  unfold State.ledger at hsteps ⊢
  rw [hinserted, hleft]
  exact hsteps

/-- A step that keeps the clients. -/
theorem Books.of_clients (hlinux : s'.linux = s.linux)
    (hnext : s'.nextClientId = s.nextClientId ∨
      s'.nextClientId = s.nextClientId + 1 ∧ accepted.length = 1)
    (hclients : s'.clients = s.clients)
    (hsteps : ReflTransGen (Step s.linux quiet) (s.ledger h)
      (s'.ledger { h with obtained := opened ++ accepted ++ h.obtained })) :
    Books quiet opened accepted h s s' := by
  have hgain : entries s'.clients = 0 + entries s.clients := by rw [hclients, zero_add]
  refine .of_gain hlinux hnext hgain ?_
  rw [zero_add, Multiset.map_zero, zero_add, ← hclients]
  exact hsteps

theorem Frame.books (hframe : Frame s s') : Books quiet [] [] h s s' := by
  refine .of_clients hframe.linux (.inl hframe.nextClientId) hframe.clients ?_
  rw [hframe.ledger_eq]
  exact .refl

/-- Then come changes that the ledger does not show. -/
theorem Books.frame (hbooks : Books quiet opened accepted h s s₁)
    (hframe : Frame s₁ s') : Books quiet opened accepted h s s' := by
  refine ⟨hframe.linux.trans hbooks.linux, ?_, ?_⟩
  · rw [hframe.nextClientId]
    exact hbooks.next
  · rw [hframe.note_eq, hframe.ledger_eq]
    exact hbooks.steps

/-- Then `poll` goes on. -/
theorem Books.resume (hbooks : Books quiet opened accepted h s s₁)
    (hcalls : s₁.calls = s.calls) {call : Call} (htop : CallStack.top s.calls thread = some call)
    (hcall : call.isConnecting = false) (listenSocket : Option Nat) (ready : List Ready)
    (result : Except Fault Unit) :
    Books quiet opened accepted h s (s₁.resume thread listenSocket ready result) :=
  hbooks.frame (frame_resume (hcalls ▸ htop) hcall _ _ _)

theorem release_eq (s : State) (fd : Nat) :
    release s.linux ↑s.descriptors fd = ↑(s.closeSocket fd).descriptors := by
  unfold closeSocket release
  cases s.linux <;> rfl

/-- The listening socket is closed, if there is one. -/
theorem steps_unlisten (s : State) (h : History) :
    ReflTransGen (Step s.linux quiet) (s.ledger h) { s.ledger h with
      root := 0
      inUse := ↑s.unlisten.descriptors } := by
  cases hsocket : s.socket with
  | none =>
    have hsame : { s.ledger h with root := 0, inUse := ↑s.unlisten.descriptors } = s.ledger h := by
      rw [ledger, unlisten, hsocket]
      rfl
    rw [hsame]
  | some socket =>
    have hroot : (s.ledger h).root = socket ::ₘ 0 := by
      rw [ledger, hsocket]
      rfl
    have hstep : Step s.linux quiet (s.ledger h) _ := .closeRoot _ socket 0 hroot
    rw [ledger, release_eq] at hstep
    rw [unlisten, hsocket]
    exact .single hstep

theorem books_unlisten : Books quiet [] [] h s s.unlisten := by
  have hsteps : ReflTransGen (Step s.linux quiet) _ _ := steps_unlisten s h
  rw [unlisten_eq]
  exact .of_clients rfl (.inl rfl) rfl hsteps

theorem books_disconnectAll (hquiet : quiet = true ∨ entries s.clients = 0) :
    Books quiet [] [] h s s.disconnectAll := by
  have hrelease : (↑(if s.linux then s.descriptors else s.descriptors.diff s.clients.values) :
      Multiset ℕ) =
        if s.linux then ↑s.descriptors else ↑s.descriptors - (entries s.clients).map Prod.snd := by
    rw [map_snd_entries, Multiset.coe_sub]
    cases s.linux <;> rfl
  unfold disconnectAll
  rw [closeSockets_eq]
  exact .of_loss rfl rfl (add_zero (entries s.clients)).symm
    (steps_leave_all rfl hquiet hrelease rfl)

theorem books_disconnect (thread client : Nat) (hquiet : quiet = true ∨ s.disconnectFn = true) :
    Books quiet [] [] h s (s.disconnect thread client) := by
  unfold disconnect
  split
  next => exact Frame.books ⟨rfl, rfl, rfl, rfl, rfl, rfl, rfl⟩
  next conn hconn =>
    have hclients := entries_of_getElem? hconn
    have hactive : (s.ledger h).active = (client, conn) ::ₘ entries (s.clients.erase client) :=
      hclients
    rw [← Multiset.singleton_add] at hclients
    dsimp only
    split
    next =>
      have hstep : Step s.linux quiet (s.ledger h) _ :=
        .leave _ client conn _ true hactive (.inl rfl)
      rw [ledger, release_eq] at hstep
      refine .of_loss rfl rfl hclients (.single ?_)
      rw [inflight_push, notified_cons]
      exact hstep
    next hfn =>
      have hstep : Step s.linux quiet (s.ledger h) _ :=
        .leave _ client conn _ false hactive (.inr (hquiet.resolve_right hfn))
      rw [ledger, release_eq] at hstep
      exact .of_loss rfl rfl hclients (.single hstep)

/-- The callback of a connection refuses it, or something fails after it. -/
theorem books_drop {client conn : Nat}
    (hpending : inflight s.calls = (client, conn) ::ₘ inflight (CallStack.pop s.calls thread))
    (hs' : s' = { s.closeSocket conn with calls := CallStack.pop s.calls thread }) :
    Books quiet [] [] h s s' := by
  have hstep : Step s.linux quiet (s.ledger h) _ := .drop _ client conn _ hpending
  rw [ledger, release_eq] at hstep
  rw [hs']
  exact .of_clients rfl (.inl rfl) rfl (.single hstep)

/-- The callback of a connection accepts it. -/
theorem books_enter {client conn : Nat}
    (hpending : inflight s.calls = (client, conn) ::ₘ inflight (CallStack.pop s.calls thread))
    (hnew : s.clients[client]? = none)
    (hs' : s' = { s with
      clients := s.clients.insert client conn
      calls := CallStack.pop s.calls thread }) :
    Books quiet [] [] h s s' := by
  have hstep : Step s.linux quiet (s.ledger h) _ := .enter _ client conn _ hpending
  have hclients : entries (s.clients.insert client conn) = {(client, conn)} + entries s.clients :=
    entries_insert hnew conn
  rw [hs']
  exact .of_gain rfl (.inl rfl) hclients (.single hstep)

/-- An identifier that has not entered is not in the map. -/
theorem getElem?_eq_none {keep : Bool} (hinv : (s.ledger h).Inv keep) {client : Nat}
    (hnew : client ∉ (s.ledger h).entered) : s.clients[client]? = none := by
  rw [Option.eq_none_iff_forall_ne_some]
  intro conn hconn
  apply hnew
  rw [hinv.entered, Multiset.mem_add]
  exact .inl (Multiset.mem_map_of_mem Prod.fst (mem_entries.2 hconn))

theorem books_connected {keep : Bool} (hinv : (s.ledger h).Inv keep) {client conn : Nat}
    {listenSocket : Option Nat} {ready : List Ready}
    (htop : CallStack.top s.calls thread = some (.connecting client conn listenSocket ready))
    (ok : Except Fault Bool) (nodelay : Except String Unit) :
    Books quiet [] [] h s
      ((s.connected client conn ok nodelay).1.resume thread listenSocket ready
        (s.connected client conn ok nodelay).2) := by
  have hpending : inflight s.calls = (client, conn) ::ₘ inflight (CallStack.pop s.calls thread) :=
    inflight_pop htop
  have hnew : client ∉ (s.ledger h).entered := by
    apply hinv.notMem_entered
    rw [show (s.ledger h).pending = _ from hpending]
    exact Multiset.mem_map_of_mem Prod.fst (Multiset.mem_cons_self _ _)
  refine Books.frame ?_ (frame_pop_resume _ _ _)
  unfold connected
  split
  next => exact books_drop hpending rfl
  next => exact books_drop hpending rfl
  next =>
    cases nodelay with
    | error reason => exact books_drop hpending rfl
    | ok _ => exact books_enter hpending (getElem?_eq_none hinv hnew) rfl

/-- A connection is refused, as there are too many clients. -/
theorem books_refuse {conn : Nat} (hfresh : conn ∉ s.descriptors)
    (hs' : s' = closeSocket { s with descriptors := conn :: s.descriptors } conn) :
    Books quiet [] [conn] h s s' := by
  have hstep : Step s.linux quiet (s.ledger h) _ := .refuse _ conn hfresh
  have hrelease := release_eq { s with descriptors := conn :: s.descriptors } conn
  rw [ledger, Multiset.cons_coe, hrelease] at hstep
  rw [hs']
  exact .of_clients rfl (.inl rfl) rfl (.single hstep)

/-- The accounts after a connection has got an identifier. -/
def drawn (L : Ledger ℕ) (conn : Nat) : Ledger ℕ := { L with
  pending := (L.next, conn) ::ₘ L.pending
  next := L.next + 1
  inUse := conn ::ₘ L.inUse
  obtained := conn ::ₘ L.obtained }

/-- A connection gets an identifier, and its callback is called. -/
theorem books_draw {call : Call} {conn : Nat} {event : Event} {listenSocket : Option Nat}
    {ready : List Ready} (htop : CallStack.top s.calls thread = some call)
    (hcall : call.isConnecting = false) (hevent : event.disconnected = none)
    (hfresh : conn ∉ s.descriptors)
    (hs' : s' = advance { s with
      descriptors := conn :: s.descriptors
      nextClientId := s.nextClientId + 1
      log := event :: s.log } thread (.connecting s.nextClientId conn listenSocket ready)) :
    Books quiet [] [conn] h s s' := by
  have hstep : Step s.linux quiet (s.ledger h) (drawn (s.ledger h) conn) := .draw _ conn hfresh
  have hpending : inflight s'.calls = (s.nextClientId, conn) ::ₘ inflight s.calls := by
    rw [hs', inflight_pop htop, inflight_eq_none hcall]
    exact inflight_push _ _ _
  have hnotified : notified s'.log = notified s.log := by
    rw [hs']
    refine (notified_cons _ _).trans ?_
    rw [hevent]
    exact zero_add _
  refine .of_clients (hs' ▸ rfl) (.inr ⟨hs' ▸ rfl, rfl⟩) (hs' ▸ rfl) ?_
  have hledger : s'.ledger { h with obtained := [] ++ [conn] ++ h.obtained } =
      drawn (s.ledger h) conn := by
    unfold State.ledger
    rw [hpending, hnotified, hs']
    rfl
  rw [hledger]
  exact .single hstep

/-- A connection gets an identifier, and an option of it cannot be set. -/
theorem books_draw_drop {conn : Nat} (hfresh : conn ∉ s.descriptors)
    (hs' : s' = closeSocket { s with
      descriptors := conn :: s.descriptors
      nextClientId := s.nextClientId + 1 } conn) :
    Books quiet [] [conn] h s s' := by
  have hdraw : Step s.linux quiet (s.ledger h) (drawn (s.ledger h) conn) := .draw _ conn hfresh
  have hdrop : Step s.linux quiet (drawn (s.ledger h) conn) _ :=
    .drop _ s.nextClientId conn (s.ledger h).pending rfl
  have hrelease := release_eq { s with
    descriptors := conn :: s.descriptors
    nextClientId := s.nextClientId + 1 } conn
  rw [show release s.linux (drawn (s.ledger h) conn).inUse conn = _ from hrelease] at hdrop
  rw [hs']
  exact .of_clients rfl (.inr ⟨rfl, rfl⟩) rfl (.tail (.single hdraw) hdrop)

/-- A connection gets an identifier, and becomes a client. -/
theorem books_draw_enter {conn : Nat} (hfresh : conn ∉ s.descriptors)
    (hnew : s.clients[s.nextClientId]? = none)
    (hs' : s' = { s with
      descriptors := conn :: s.descriptors
      nextClientId := s.nextClientId + 1
      clients := s.clients.insert s.nextClientId conn }) :
    Books quiet [] [conn] h s s' := by
  have hdraw : Step s.linux quiet (s.ledger h) (drawn (s.ledger h) conn) := .draw _ conn hfresh
  have henter : Step s.linux quiet (drawn (s.ledger h) conn) _ :=
    .enter _ s.nextClientId conn (s.ledger h).pending rfl
  have hclients : entries (s.clients.insert s.nextClientId conn) =
      {(s.nextClientId, conn)} + entries s.clients := entries_insert hnew conn
  rw [hs']
  exact .of_gain rfl (.inr ⟨rfl, rfl⟩) hclients (.tail (.single hdraw) henter)

/-- What `accept_new_client` does with a connection. -/
theorem acceptNewClient_of_isSome (hsocket : s.socket.isSome) (peer : Peer)
    (nodelay : Except String Unit) :
    s.acceptNewClient (.ok peer) nodelay =
      if s.maxClients ≤ s.clients.size then
        (closeSocket { s with descriptors := peer.conn :: s.descriptors } peer.conn,
          .done (.ok ()))
      else if s.connectFn then
        ({ s with
          descriptors := peer.conn :: s.descriptors
          nextClientId := s.nextClientId + 1
          log := .connect s.nextClientId peer.host peer.port :: s.log },
          .connecting s.nextClientId peer.conn)
      else
        (insertClient { s with
          descriptors := peer.conn :: s.descriptors
          nextClientId := s.nextClientId + 1 } s.nextClientId peer.conn nodelay).map id .done := by
  unfold acceptNewClient
  split
  next hnone =>
    rw [hnone] at hsocket
    cases hsocket
  next => rfl

theorem books_accept {keep : Bool} (hinv : (s.ledger h).Inv keep) {accepted : Except String Peer}
    {nodelay : Except String Unit} (hstep : step s (.accept thread accepted nodelay) = some s') :
    Books quiet [] (s.accepted (.accept thread accepted nodelay)) h s s' := by
  simp only [step] at hstep
  split at hstep
  next listenSocket fd ready htop =>
    rw [Option.ite_none_right_eq_some] at hstep
    obtain ⟨⟨-, hfresh⟩, hresult⟩ := hstep
    cases accepted with
    | error reason =>
      cases hsocket : s.socket with
      | none =>
        simp only [acceptNewClient, hsocket] at hresult
        cases hresult
        exact (frame_resume htop rfl _ _ _).books
      | some socket =>
        simp only [acceptNewClient, hsocket] at hresult
        cases hresult
        exact (frame_resume htop rfl _ _ _).books
    | ok peer =>
      by_cases hsocket : s.socket.isSome
      · have haccepted : s.accepted (.accept thread (.ok peer) nodelay) = [peer.conn] :=
          if_pos hsocket
        have hconn : peer.conn ∉ s.descriptors := by simpa [fresh] using hfresh
        rw [acceptNewClient_of_isSome hsocket] at hresult
        rw [haccepted]
        by_cases hfull : s.maxClients ≤ s.clients.size
        · rw [if_pos hfull] at hresult
          cases hresult
          exact (books_refuse hconn rfl).resume rfl htop rfl _ _ _
        · rw [if_neg hfull] at hresult
          by_cases hfn : s.connectFn = true
          · rw [if_pos hfn] at hresult
            cases hresult
            exact books_draw htop rfl rfl hconn rfl
          · rw [if_neg hfn] at hresult
            cases nodelay with
            | error reason =>
              cases hresult
              exact (books_draw_drop hconn rfl).resume rfl htop rfl _ _ _
            | ok _ =>
              cases hresult
              have hnew : s.clients[s.nextClientId]? = none := getElem?_eq_none hinv fun hmem =>
                Nat.lt_irrefl _ (hinv.bound _ (Multiset.mem_add.2 (.inl hmem)))
              exact (books_draw_enter hconn hnew rfl).resume rfl htop rfl _ _ _
      · have haccepted : s.accepted (.accept thread (.ok peer) nodelay) = [] := if_neg hsocket
        rw [Option.isSome_iff_ne_none, not_not] at hsocket
        simp only [acceptNewClient, hsocket] at hresult
        cases hresult
        rw [haccepted]
        exact (frame_resume htop rfl _ _ _).books
  next => cases hstep

/-- One step, in the accounts of the server. -/
theorem books_step {keep : Bool} (hinv : (s.ledger h).Inv keep) {a : Act}
    (hnotifies : quiet = true ∨ s.Notifies a) (hstep : step s a = some s') :
    Books quiet [] (s.accepted a) h s s' := by
  cases a with
  | onConnect fn | onDisconnect fn =>
    cases hstep
    exact Frame.books ⟨rfl, rfl, rfl, rfl, rfl, rfl, rfl⟩
  | unlisten =>
    cases hstep
    exact books_unlisten
  | disconnectAll =>
    cases hstep
    refine books_disconnectAll (hnotifies.imp_right fun hempty => ?_)
    exact entries_eq_zero hempty
  | disconnect thread client =>
    simp only [step, Option.ite_none_right_eq_some] at hstep
    cases hstep.2
    exact books_disconnect thread client hnotifies
  | disconnected thread =>
    simp only [step] at hstep
    split at hstep
    next htop =>
      cases hstep
      exact (frame_pop htop rfl).books
    next => cases hstep
  | poll thread =>
    simp only [step, Option.ite_none_right_eq_some] at hstep
    cases hstep.2
    exact (frame_push rfl).books
  | collect thread => exact (moved_collect hstep).frame.books
  | polled thread result => exact (moved_polled hstep).frame.books
  | accept thread accepted nodelay => exact books_accept hinv hstep
  | connected thread ok nodelay =>
    simp only [step] at hstep
    split at hstep
    next htop =>
      cases hstep
      exact books_connected hinv htop ok nodelay
    next => cases hstep
  | scan thread => exact (moved_scan hstep).frame.books
  | elapsed thread late => exact (moved_elapsed hstep).frame.books

end Mwr.ServerSocket
