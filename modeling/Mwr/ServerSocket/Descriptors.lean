import Mwr.ServerSocket.Runs

/-!
# The descriptors of the server

On Linux, `close_socket` shuts a socket down and does not close its descriptor.  On
the other platforms, the descriptors that are open are those that the server holds.

* `descriptors_perm` says which descriptors are open in a reachable state, also while
  connections are being accepted.
* `descriptors_of_idle` is the result when none is.
-/

namespace Mwr.ServerSocket

open Mwr.CodeLib
open Mwr.CodeLib.Ledger
open Mwr.CodeLib.MapEntries
open Mwr.CodeLib.Transition

namespace State

/-- The descriptors in `m_socket` and `m_clients`. -/
def held (s : State) : List Nat := s.socket.toList ++ s.clients.values

/-- The descriptors of the connections whose callbacks are running. -/
def accepting (s : State) : List Nat :=
  s.calls.filterMap fun e => e.2.inflight.map Prod.snd

end State

namespace Server

variable {linux noIpv4 noIpv6 : Bool} {maxClients : Nat} {p : Server × History}

theorem owned_accounts (p : Server × History) :
    (accounts p).owned = ↑(p.1.held ++ p.1.accepting) := by
  have haccepting : (inflight p.1.calls).map Prod.snd = ↑p.1.accepting := by
    rw [inflight, Multiset.map_coe, List.map_filterMap]
    rfl
  have hclients : (entries p.1.clients).map Prod.snd = ↑p.1.clients.values := map_snd_entries _
  show ↑p.1.socket.toList + (inflight p.1.calls + entries p.1.clients).map Prod.snd = _
  rw [Multiset.map_add, haccepting, hclients, State.held, ← Multiset.coe_add, ← Multiset.coe_add,
    add_assoc, add_comm (↑p.1.accepting : Multiset ℕ)]

/-- The descriptors that are open. -/
theorem descriptors_perm (h : (observed linux noIpv4 noIpv6 maxClients).Reachable p) :
    p.1.descriptors.Nodup ∧ (p.1.held ++ p.1.accepting).Subperm p.1.descriptors ∧
      if linux then p.1.descriptors.Perm p.2.obtained
      else p.1.descriptors.Perm (p.1.held ++ p.1.accepting) := by
  have hstock := (sound h).accounts.stock
  rw [owned_accounts] at hstock
  refine ⟨Multiset.coe_nodup.1 hstock.nodup, Multiset.coe_le.1 hstock.le, ?_⟩
  cases linux with
  | true => exact Multiset.coe_eq_coe.1 (hstock.kept rfl)
  | false => exact Multiset.coe_eq_coe.1 (hstock.exact rfl)

/-- When no connection is being accepted, the open descriptors are those in `m_socket`
and `m_clients`, each of them once.  On Linux, all descriptors stay open that the
server has obtained. -/
theorem descriptors_of_idle (h : (observed linux noIpv4 noIpv6 maxClients).Reachable p)
    (hidle : p.1.accepting = []) :
    p.1.descriptors.Nodup ∧ p.1.held.Subperm p.1.descriptors ∧
      if linux then p.1.descriptors.Perm p.2.obtained else p.1.descriptors.Perm p.1.held := by
  have hperm := descriptors_perm h
  rwa [hidle, List.append_nil] at hperm

/-- Two clients on another platform than Linux; the first one is disconnected, and
the server has been told to listen again. -/
theorem descriptors_of_idle_two :
    ∃ p, (observed false false false 2).Reachable p ∧ p.1.accepting = [] ∧ p.1.held = [6, 5] ∧
      p.1.descriptors.Perm p.1.held := by
  obtain ⟨p, h, hidle, hheld⟩ : ∃ p, (observed false false false 2).Reachable p ∧
      p.1.accepting = [] ∧ p.1.held = [6, 5] :=
    System.exists_reachable_of_run
      ([.listen 0 "" (listening 3)] ++ acceptClient 0 3 4 ++ acceptClient 0 3 5 ++
        [.call (.disconnect 0 0), .listen 4000 "" (listening 6)]) (by decide +kernel)
  exact ⟨p, h, hidle, hheld, (descriptors_of_idle h hidle).2.2⟩

/-- On Linux, the descriptor of a client that has been disconnected stays open. -/
theorem descriptor_kept :
    ∃ p, (observed true false false 1).Reachable p ∧ p.1.accepting = [] ∧ p.1.held = [3] ∧
      p.1.descriptors = [4, 3] :=
  System.exists_reachable_of_run
    ([.listen 0 "" (listening 3)] ++ acceptClient 0 3 4 ++ [.call (.disconnect 0 0)])
    (by decide +kernel)

end Server

end Mwr.ServerSocket
