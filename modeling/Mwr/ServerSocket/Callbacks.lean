import Mwr.ServerSocket.Runs

/-!
# The callbacks of the server

`disconnect` calls the callback for the client that it takes out of the map, after it
has dropped the mutex.  `disconnect_all` clears the map and calls no callback.

* `Installed` is the condition that both callbacks are installed when anything else
  happens, and `Spares` the condition that there are no clients when `disconnect_all`
  is called.
* `notified_once` is the result about runs that meet both, and
  `not_notified_of_disconnectAll` says what a call that breaks the second one does.
-/

namespace Mwr.ServerSocket

open Mwr.CodeLib
open Mwr.CodeLib.Ledger
open Mwr.CodeLib.MapEntries
open Mwr.CodeLib.Transition

/-- How often the disconnect callback has been called for a client. -/
def State.disconnects (s : State) (client : Nat) : Nat :=
  (s.log.filterMap Event.disconnected).count client

namespace Server

/-- A callback is installed. -/
def Act.installs : Act → Bool
  | .call (.onConnect _) | .call (.onDisconnect _) => true
  | _ => false

/-- A call of `disconnect_all`. -/
def Act.disconnectsAll : Act → Bool
  | .call .disconnectAll => true
  | _ => false

/-- Both callbacks are installed, unless the step installs one. -/
def Installed (s : Server) (a : Act) : Prop :=
  a.installs ∨ s.connectFn ∧ s.disconnectFn

/-- `disconnect_all` is not called while there are clients. -/
def Spares (s : Server) (a : Act) : Prop :=
  a.disconnectsAll → s.clients.isEmpty

instance (s : Server) (a : Act) : Decidable (s.Installed a) :=
  inferInstanceAs (Decidable (_ ∨ _ ∧ _))

instance (s : Server) (a : Act) : Decidable (s.Spares a) :=
  inferInstanceAs (Decidable (_ → _))

variable {linux noIpv4 noIpv6 : Bool} {maxClients : Nat} {p q : Server × History} {a : Act}
  {s : Server}

/-- Under both conditions, a client that leaves gets its callback. -/
theorem notifies_of_installed (hinstalled : s.Installed a) (hspares : s.Spares a) :
    s.Notifies a := by
  cases a with
  | call a =>
    cases a with
    | disconnectAll => exact hspares rfl
    | disconnect thread client => exact (hinstalled.resolve_left nofun).2
    | _ => trivial
  | transferred thread r => exact (hinstalled.resolve_left nofun).2
  | _ => trivial

theorem disconnects_eq_count (p : Server × History) (client : Nat) :
    p.1.disconnects client = (accounts p).notified.count client :=
  (Multiset.coe_count _ _).symm

/-- In a run that has both callbacks installed, and that does not call `disconnect_all`
while there are clients, the disconnect callback is called once for each client that
was inserted and has left, and for no other one. -/
theorem notified_once
    (h : ((observed linux noIpv4 noIpv6 maxClients).restrict fun p a =>
      p.1.Installed a ∧ p.1.Spares a).Reachable p) (client : Nat) :
    (client ∈ p.2.inserted → client ∈ p.2.left → p.1.disconnects client = 1) ∧
      (client ∉ p.2.left → p.1.disconnects client = 0) ∧
      (client ∉ p.2.inserted → p.1.disconnects client = 0) := by
  have hpaired : (accounts p).Paired :=
    paired (h.mono_restrict fun _ _ hok => notifies_of_installed hok.1 hok.2)
  have hinv := (sound h.of_restrict).accounts
  have hcount := hpaired.count_notified hinv client
  rw [← disconnects_eq_count] at hcount
  have hinserted : client ∈ p.2.left → client ∈ p.2.inserted := fun hleft =>
    Multiset.mem_of_le (hinv.entered ▸ Multiset.le_add_left _ _) hleft
  refine ⟨fun _ hleft => ?_, fun hleft => ?_, fun hnew => ?_⟩
  · rw [hcount]
    exact if_pos hleft
  · rw [hcount]
    exact if_neg hleft
  · rw [hcount]
    exact if_neg fun hleft => hnew (hinserted hleft)

/-- A client that `disconnect_all` takes out of the map has left, and its callback has
not been called. -/
theorem not_notified_of_disconnectAll
    (h : (observed linux noIpv4 noIpv6 maxClients).Reachable p) {client conn : Nat}
    (hclient : p.1.clients[client]? = some conn)
    (hstep : System.observe step note p (.call .disconnectAll) = some q) :
    client ∈ q.2.left ∧ q.1.disconnects client = 0 := by
  have hinv := (sound h).accounts
  have hmem : client ∈ (accounts p).active.map Prod.fst :=
    Multiset.mem_map_of_mem Prod.fst (mem_entries.2 hclient)
  have hnot : client ∉ (accounts p).notified := fun hnotified =>
    hinv.notMem_left hmem (Multiset.mem_of_le hinv.notified hnotified)
  obtain ⟨hs, hnote⟩ := System.observe_eq_some hstep
  have hstate : q.1.toState = p.1.toState.disconnectAll := by rw [← Option.some.inj hs]
  have hlog : q.1.log = p.1.log := by
    rw [hstate, State.disconnectAll, State.closeSockets_eq]
  have hclients : entries q.1.clients = 0 := by
    rw [hstate, State.disconnectAll]
    rfl
  constructor
  · have hleft : client ∈ (↑q.2.left : Multiset ℕ) := by
      rw [hnote, note, left_note, hclients, Multiset.map_zero, Multiset.sub_zero, Multiset.mem_add]
      exact .inl hmem
    exact hleft
  · rw [State.disconnects, hlog]
    exact List.count_eq_zero.2 hnot

/-- The callback of a connection that `poll` accepts returns true. -/
def greetClient (thread fd conn : Nat) : List Act :=
  (acceptClient thread fd conn).take 4 ++
    [.call (.connected thread (.ok true) (.ok ())), .call (.elapsed thread true)]

/-- Both callbacks are installed, the server listens, and two clients are accepted. -/
def greeting : List Act :=
  [.call (.onConnect true), .call (.onDisconnect true), .listen 0 "" (listening 3)] ++
    greetClient 0 3 4 ++ greetClient 0 3 5

/-- One client is disconnected after a `recv` that has failed, and the other one by
`disconnect`.  Then `disconnect_all` finds no clients. -/
theorem notified_once_two :
    ∃ p, ((observed true false false 4).restrict fun p a =>
        p.1.Installed a ∧ p.1.Spares a).Reachable p ∧
      p.2.left = [0, 1] ∧ p.1.disconnects 1 = 1 := by
  obtain ⟨p, h, hleft, hinserted⟩ : ∃ p, ((observed true false false 4).restrict fun p a =>
      p.1.Installed a ∧ p.1.Spares a).Reachable p ∧
        p.2.left = [0, 1] ∧ p.2.inserted = [1, 0] :=
    System.exists_reachable_restrict_of_run
      (greeting ++ [.transfer 1 1 8, .find 1, .transferred 1 (.ok 0), .call (.disconnected 1),
        .call (.disconnect 0 0), .call (.disconnected 0), .call .disconnectAll])
      (by decide +kernel)
  refine ⟨p, h, hleft, (notified_once h 1).1 ?_ ?_⟩
  · rw [hinserted]
    decide
  · rw [hleft]
    decide

/-- `disconnect_all` takes a client out of the map, and calls no callback. -/
theorem client_not_notified :
    ∃ p, ((observed true false false 4).restrict fun p a => p.1.Installed a).Reachable p ∧
      0 ∈ p.2.inserted ∧ 0 ∈ p.2.left ∧ p.1.disconnects 0 = 0 :=
  System.exists_reachable_restrict_of_run (greeting ++ [.call .disconnectAll])
    (by decide +kernel)

end Server

end Mwr.ServerSocket
