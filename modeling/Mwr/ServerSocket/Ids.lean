import Mwr.ServerSocket.Runs

/-!
# The identifiers of the clients

`accept_new_client` draws the identifier of a connection before it drops the mutex to
run the callback, and inserts the client after it.  Other threads accept and close
connections in between, and the operating system uses their descriptors again.

* `Assigned` is the invariant of the identifiers that have been assigned, and
  `Entitled` that of the entries: each of them, the entries of the map and those of the
  running callbacks, is under the identifier that its connection was assigned.
* `ids_unambiguous` is the result about runs.
-/

namespace Mwr.ServerSocket

open Mwr.CodeLib
open Mwr.CodeLib.Ledger
open Mwr.CodeLib.MapEntries
open Mwr.CodeLib.Transition

namespace Server

variable {linux noIpv4 noIpv6 : Bool} {maxClients : Nat} {p q : Server × History} {a : Act}

/-- The identifiers so far are below the next one, and all of them differ. -/
structure Assigned (p : Server × History) : Prop where
  lt : ∀ e ∈ p.2.assigned, e.1 < p.1.nextClientId
  nodup : (p.2.assigned.map Prod.fst).Nodup

theorem assigned_step (hsound : Sound linux p) (hassigned : Assigned p)
    (hstep : System.observe step note p a = some q) : Assigned q := by
  have hquiet : true = true ∨ p.1.Notifies a := .inl rfl
  obtain ⟨hbooks, hnote⟩ := books_observe hsound hquiet hstep
  have hq : q.2.assigned = if q.1.nextClientId = p.1.nextClientId then p.2.assigned
      else (p.1.nextClientId, p.2.accepts) :: p.2.assigned := by
    rw [hnote]
    rfl
  rcases hbooks.next with hsame | ⟨hdrawn, -⟩
  · rw [if_pos hsame] at hq
    refine ⟨?_, ?_⟩
    · rw [hq, hsame]
      exact hassigned.lt
    · rw [hq]
      exact hassigned.nodup
  · rw [if_neg (by omega)] at hq
    refine ⟨?_, ?_⟩
    · intro e he
      rw [hdrawn]
      rw [hq, List.mem_cons] at he
      rcases he with rfl | he
      · exact Nat.lt_succ_self _
      · exact Nat.lt_succ_of_lt (hassigned.lt e he)
    · rw [hq, List.map_cons, List.nodup_cons]
      refine ⟨fun hmem => ?_, hassigned.nodup⟩
      obtain ⟨e, he, heq⟩ := List.mem_map.1 hmem
      have hlt := hassigned.lt e he
      omega

theorem assigned (h : (observed linux noIpv4 noIpv6 maxClients).Reachable p) : Assigned p := by
  refine h.invariant (I := Assigned) ?_ ?_
  · rintro _ rfl
    exact ⟨nofun, List.nodup_nil⟩
  · intro p a q hreach hassigned hstep
    exact assigned_step (sound hreach) hassigned hstep

/-! ## The connections -/

/-- The entry is under an identifier that was assigned to its connection. -/
def Entitled (h : History) (client : Nat) (connection : Option Nat) : Prop :=
  ∃ i, connection = some i ∧ (client, i) ∈ h.assigned

/-- The entries that are held, and those that have been in the map, are under the
identifiers of their connections. -/
structure Entries (p : Server × History) : Prop where
  held : ∀ e ∈ (accounts p).pending + (accounts p).active,
    Entitled p.2 e.1 (p.2.connection e.2)
  entered : ∀ e ∈ p.2.entered, Entitled p.2 e.1 e.2
  noted : ∀ e ∈ (accounts p).active, (e.1, p.2.connection e.2) ∈ p.2.entered

theorem Entitled.note {s s' : State} {h : History} {opened accepted : List Nat} {client : Nat}
    {connection : Option Nat} (hentitled : Entitled h client connection) :
    Entitled (h.note opened accepted s s') client connection := by
  obtain ⟨i, hi, hassigned⟩ := hentitled
  refine ⟨i, hi, ?_⟩
  unfold History.note
  dsimp only
  split
  · exact hassigned
  · exact List.mem_cons_of_mem _ hassigned

/-- The operating system has not handed out the descriptor. -/
theorem notMem_descriptors_of_accepted {s s' : Server} (hstep : step s a = some s') {fd : Nat}
    (hfd : fd ∈ s.accepted a) : fd ∉ s.descriptors := by
  cases a with
  | call a =>
    cases a with
    | accept thread accepted nodelay =>
      rw [step, Option.ite_none_left_eq_some, Option.map_eq_some_iff] at hstep
      obtain ⟨-, t, ht, -⟩ := hstep
      simp only [ServerSocket.step] at ht
      split at ht
      next =>
        rw [Option.ite_none_right_eq_some] at ht
        cases accepted with
        | error reason => cases hfd
        | ok peer =>
          have hconn : peer.conn ∉ s.descriptors := by simpa [fresh] using ht.1.2
          have hpeer : fd ∈ s.toState.accepted (.accept thread (.ok peer) nodelay) := hfd
          rw [State.accepted] at hpeer
          split at hpeer
          · rwa [List.mem_singleton.1 hpeer]
          · cases hpeer
      next => cases ht
    | _ => cases hfd
  | _ => cases hfd

/-- A step that accepts a connection opens no socket. -/
theorem opened_eq_nil_of_accepted {s : Server} {fd : Nat} (hfd : fd ∈ s.accepted a) :
    s.opened a = [] := by
  cases a with
  | call => rfl
  | _ => cases hfd

/-- The descriptors of the entries are open. -/
theorem mem_descriptors_of_held (hsound : Sound linux p) {e : ℕ × ℕ}
    (he : e ∈ (accounts p).pending + (accounts p).active) : e.2 ∈ p.1.descriptors := by
  have howned : e.2 ∈ (accounts p).owned :=
    Multiset.mem_add.2 (.inr (Multiset.mem_map_of_mem Prod.snd he))
  exact Multiset.mem_coe.1 (Multiset.mem_of_le hsound.accounts.stock.le howned)

/-- A step keeps the connections of the entries before it. -/
theorem connection_note_of_held (hsound : Sound linux p) {s' : Server}
    (hstep : step p.1 a = some s') {e : ℕ × ℕ}
    (he : e ∈ (accounts p).pending + (accounts p).active) :
    (note p.1 a s' p.2).connection e.2 = p.2.connection e.2 := by
  have hopen := mem_descriptors_of_held hsound he
  show List.lookup e.2 ((p.1.accepted a).zipIdx p.2.accepts ++ p.2.connections) = _
  rw [List.lookup_append, List.lookup_eq_none_iff.2, Option.none_or]
  · rfl
  · intro c hc
    have hc : c.1 ∈ p.1.accepted a := by
      have hmap := List.mem_map_of_mem (f := Prod.fst) hc
      rwa [List.zipIdx_map_fst] at hmap
    rw [bne_iff_ne]
    intro heq
    exact notMem_descriptors_of_accepted hstep hc (heq ▸ hopen)

/-- A descriptor that a step obtains for an entry is that of the connection which the
step has numbered, and it has drawn the identifier for it. -/
theorem entitled_of_drawn {s' : Server} {client fd : ℕ}
    (hbooks : Books true (p.1.opened a) (p.1.accepted a) p.2 p.1.toState s'.toState)
    (hle : p.1.nextClientId ≤ client) (hlt : client < s'.nextClientId)
    (hnew : fd ∈ p.1.opened a ++ p.1.accepted a) :
    Entitled (note p.1 a s' p.2) client ((note p.1 a s' p.2).connection fd) := by
  rcases hbooks.next with hsame | ⟨hdrawn, hlength⟩
  · omega
  · obtain ⟨conn, hconn⟩ := List.length_eq_one_iff.1 hlength
    have hmem : conn ∈ p.1.accepted a := hconn ▸ List.mem_singleton_self conn
    have hopened : p.1.opened a = [] := opened_eq_nil_of_accepted hmem
    rw [hopened, hconn, List.nil_append, List.mem_singleton] at hnew
    refine ⟨p.2.accepts, ?_, ?_⟩
    · show List.lookup fd ((p.1.accepted a).zipIdx p.2.accepts ++ p.2.connections) = _
      rw [hconn, hnew]
      exact List.lookup_cons_self
    · show (client, p.2.accepts) ∈ ite _ _ _
      rw [if_neg (by omega), show client = p.1.nextClientId by omega]
      exact List.mem_cons_self

/-- The entries after a step are entitled. -/
theorem held_step (hsound : Sound linux p) (hentries : Entries p)
    (hstep : System.observe step note p a = some q) :
    ∀ e ∈ (accounts q).pending + (accounts q).active,
      Entitled q.2 e.1 (q.2.connection e.2) := by
  intro e he
  have hquiet : true = true ∨ p.1.Notifies a := .inl rfl
  obtain ⟨hs, hnote⟩ := System.observe_eq_some hstep
  obtain ⟨hbooks, -⟩ := books_observe hsound hquiet hstep
  obtain ⟨new, hgrown⟩ := grown_of_steps (steps_observe hsound hquiet hstep)
  have hobtained : new = ↑(p.1.opened a ++ p.1.accepted a) := by
    have hsum : (↑q.2.obtained : Multiset ℕ) = new + ↑p.2.obtained := hgrown.obtained
    have hnoted : q.2.obtained = (p.1.opened a ++ p.1.accepted a) ++ p.2.obtained := by
      rw [hnote]
      rfl
    rw [hnoted, ← Multiset.coe_add] at hsum
    exact (add_right_cancel hsum).symm
  rcases hgrown.entries e he with hold | ⟨hid, hnew⟩
  · rw [hnote, connection_note_of_held hsound hs hold]
    exact (hentries.held e hold).note
  · rw [hobtained, Multiset.mem_coe] at hnew
    rw [hnote]
    exact entitled_of_drawn hbooks hid ((sound_step hsound hstep).accounts.lt_next he) hnew

theorem entries_step (hsound : Sound linux p) (hentries : Entries p)
    (hstep : System.observe step note p a = some q) : Entries q := by
  have hheld := held_step hsound hentries hstep
  obtain ⟨hs, hnote⟩ := System.observe_eq_some hstep
  have hentered : q.2.entered = (q.1.clients.toList.diff p.1.clients.toList).map
      (Prod.map id q.2.connection) ++ p.2.entered := by
    rw [hnote]
    rfl
  refine ⟨hheld, ?_, ?_⟩
  · intro e he
    rw [hentered, List.mem_append, List.mem_map] at he
    rcases he with ⟨entry, hentry, rfl⟩ | he
    · exact hheld entry (Multiset.mem_add.2 (.inr ((List.diff_subset _ _) hentry)))
    · rw [hnote]
      exact (hentries.entered e he).note
  · intro e he
    rw [hentered, List.mem_append, List.mem_map]
    by_cases hold : e ∈ (accounts p).active
    · refine .inr ?_
      rw [hnote, connection_note_of_held hsound hs (Multiset.mem_add.2 (.inr hold))]
      exact hentries.noted e hold
    · exact .inl ⟨e, List.mem_diff_of_mem he hold, rfl⟩

theorem entries_of_reachable (h : (observed linux noIpv4 noIpv6 maxClients).Reachable p) :
    Entries p := by
  refine h.invariant (I := Entries) ?_ ?_
  · rintro _ rfl
    exact ⟨nofun, nofun, nofun⟩
  · intro p a q hreach hentries hstep
    exact entries_step (sound hreach) hentries hstep

/-! ## The clients -/

variable {s : Server} {client client' conn : Nat}

theorem findSocket_of_getElem? (h : s.clients[client]? = some conn) :
    s.findSocket client = .ok conn := by
  rw [findSocket, h]

/-- The client of a descriptor is found, if no other client has the same descriptor. -/
theorem findClient_of_getElem? (h : s.clients[client]? = some conn)
    (hunique : ∀ client', s.clients[client']? = some conn → client = client') :
    s.findClient conn = some client := by
  have hmem : (client, conn) ∈ s.clients.toList :=
    Std.TreeMap.mem_toList_iff_getElem?_eq_some.2 h
  have hfound : (s.clients.toList.find? fun e => e.2 == conn).isSome :=
    List.find?_isSome.2 ⟨(client, conn), hmem, beq_self_eq_true conn⟩
  obtain ⟨e, he⟩ := Option.isSome_iff_exists.1 hfound
  have hconn : (e.2 == conn) = true := 
    List.find?_some (p := fun e : Nat × Nat => e.2 == conn) he
  have hclient : s.clients[e.1]? = some e.2 :=
    Std.TreeMap.mem_toList_iff_getElem?_eq_some.1 (List.mem_of_find?_eq_some he)
  rw [eq_of_beq hconn] at hclient
  rw [State.findClient, he, Option.map_some, ← hunique e.1 hclient]

/-- No two clients have the same descriptor. -/
theorem eq_of_getElem? (hsound : Sound linux p) (h : p.1.clients[client]? = some conn)
    (h' : p.1.clients[client']? = some conn) : client = client' := by
  have hresources : ((entries p.1.clients).map Prod.snd).Nodup := hsound.accounts.nodup_resources
  have hsame := Multiset.inj_on_of_nodup_map hresources (client, conn) (mem_entries.2 h)
    (client', conn) (mem_entries.2 h') rfl
  exact congrArg Prod.fst hsame

/-- In every reachable state, each identifier has been assigned to one connection at
most.  Every entry that has ever been in the map is for the connection that its
identifier has been assigned to, and so is every connection whose callback is running;
the entries of the map now are among the former.  No two clients have the same
descriptor, and `find_socket` and `find_client` are inverse to each other.  After fewer
than `2 ^ 31` connections, the next identifier is still an `int`. -/
theorem ids_unambiguous (h : (observed linux noIpv4 noIpv6 maxClients).Reachable p)
    (haccepts : p.2.accepts < 2 ^ 31) :
    p.1.nextClientId < 2 ^ 31 ∧
      (∀ client i j, (client, i) ∈ p.2.assigned → (client, j) ∈ p.2.assigned → i = j) ∧
      (∀ e ∈ p.2.entered, ∃ i, e.2 = some i ∧ (e.1, i) ∈ p.2.assigned) ∧
      (∀ e ∈ inflight p.1.calls,
        ∃ i, p.2.connection e.2 = some i ∧ (e.1, i) ∈ p.2.assigned) ∧
      (∀ client conn : Nat, p.1.clients[client]? = some conn →
        (client, p.2.connection conn) ∈ p.2.entered) ∧
      (∀ client client' conn : Nat, p.1.clients[client]? = some conn →
        p.1.clients[client']? = some conn → client = client') ∧
      ∀ client conn : Nat, p.1.clients[client]? = some conn →
        p.1.findSocket client = .ok conn ∧ p.1.findClient conn = some client := by
  have hsound := sound h
  have hentries := entries_of_reachable h
  refine ⟨Nat.lt_of_le_of_lt hsound.next haccepts, ?_, hentries.entered, ?_, ?_, ?_, ?_⟩
  · intro client i j hi hj
    have hsame := List.inj_on_of_nodup_map (assigned h).nodup hi hj rfl
    exact congrArg Prod.snd hsame
  · intro e he
    exact hentries.held e (Multiset.mem_add.2 (.inl he))
  · intro client conn hconn
    exact hentries.noted (client, conn) (mem_entries.2 hconn)
  · intro client client' conn hconn hconn'
    exact eq_of_getElem? hsound hconn hconn'
  · intro client conn hconn
    exact ⟨findSocket_of_getElem? hconn,
      findClient_of_getElem? hconn fun client' hconn' => eq_of_getElem? hsound hconn hconn'⟩

/-- The first client has been disconnected.  Then two threads accept a connection each
while the callback of the other one is running, and one of the connections has the
descriptor of the first client. -/
theorem ids_unambiguous_concurrent :
    ∃ p, (observed false false false 4).Reachable p ∧ p.1.clients.toList = [(1, 4), (2, 5)] ∧
      p.2.assigned = [(2, 2), (1, 1), (0, 0)] ∧
      p.2.entered = [(2, some 2), (1, some 1), (0, some 0)] ∧ p.1.findSocket 2 = .ok 5 ∧
      p.1.findClient 5 = some 2 := by
  obtain ⟨p, h, hclients, hhistory⟩ : ∃ p, (observed false false false 4).Reachable p ∧
      p.1.clients.toList = [(1, 4), (2, 5)] ∧
      (p.2.assigned = [(2, 2), (1, 1), (0, 0)] ∧
        p.2.entered = [(2, some 2), (1, some 1), (0, some 0)] ∧ p.2.accepts = 3) :=
    System.exists_reachable_of_run
      ([.listen 0 "" (listening 3)] ++ acceptClient 0 3 4 ++
        [.call (.disconnect 0 0), .call (.onConnect true)] ++
        (acceptClient 0 3 4).take 4 ++ (acceptClient 1 3 5).take 4 ++
        [.call (.connected 0 (.ok true) (.ok ())), .call (.connected 1 (.ok true) (.ok ()))])
      (by decide +kernel)
  have hclient : p.1.clients[2]? = some 5 := by
    rw [← Std.TreeMap.mem_toList_iff_getElem?_eq_some, hclients]
    decide
  obtain ⟨hassigned, hentered, haccepts⟩ := hhistory
  have hresult := ids_unambiguous h (by rw [haccepts]; decide)
  exact ⟨p, h, hclients, hassigned, hentered, hresult.2.2.2.2.2.2 2 5 hclient⟩

end Server

end Mwr.ServerSocket
