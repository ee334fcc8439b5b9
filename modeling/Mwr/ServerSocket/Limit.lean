import Mwr.ServerSocket.Model

/-!
# The limit on the clients

`accept_new_client` compares the number of clients with the limit before it drops
the mutex to run the callback, and inserts the client after it.  The connections
whose callbacks are running are not counted, so several of them can be admitted
into the same vacancy.

* `pending` counts these connections, and `Limited` is the invariant that counts
  them as clients.
* `Vacant` is the condition on the calls of `accept_new_client` that keeps it.
* `numClients_le` is the result about runs, and `lt_load_of_not_vacant` says what
  a call that does not meet the condition leads to.
-/

namespace Mwr.ServerSocket

open Mwr.CodeLib
open Mwr.CodeLib.Transition

namespace State

variable {s : State}

/-- The connections whose callbacks are running. -/
def pending (s : State) : Nat := CallStack.count Call.isConnecting s.calls

/-- The clients and the connections that may become clients. -/
def load (s : State) : Nat := s.clients.size + s.pending

/-- A call of `accept_new_client` that passes its check, and does not fail after
it, finds a vacancy that no connection with a running callback can take. -/
def Vacant (s : State) : Act → Prop
  | .accept _ (.ok _) nodelay =>
    s.socket.isSome → s.clients.size < s.maxClients → s.connectFn || nodelay.isOk →
      s.load < s.maxClients
  | _ => True

instance (a : Act) : Decidable (s.Vacant a) :=
  match a with
  | .accept _ (.ok _) nodelay =>
    inferInstanceAs (Decidable (s.socket.isSome → s.clients.size < s.maxClients →
      s.connectFn || nodelay.isOk → _ < _))
  | .accept _ (.error _) _ | .onConnect _ | .onDisconnect _ | .unlisten | .disconnectAll
  | .disconnect .. | .disconnected _ | .poll _ | .collect _ | .polled .. | .connected ..
  | .scan _ | .elapsed .. => inferInstanceAs (Decidable True)

/-- No more clients than allowed, if every callback that is running returns true. -/
def Limited (maxClients : Nat) (s : State) : Prop :=
  s.maxClients = maxClients ∧ s.load ≤ maxClients

/-! ## What the methods do to the load -/

/-- The number of clients that another state may have, with the same limit and
the same calls in progress. -/
structure Within (s s' : State) (size : Nat) : Prop where
  maxClients : s'.maxClients = s.maxClients
  calls : s'.calls = s.calls
  size : s'.clients.size ≤ size

theorem Within.load_le {s' : State} {size : Nat} (h : Within s s' size) :
    s'.load ≤ size + s.pending := by
  rw [load, pending, h.calls]
  exact Nat.add_le_add_right h.size _

theorem within_disconnectAll : Within s s.disconnectAll s.clients.size := by
  rw [disconnectAll, closeSockets_eq]
  exact ⟨rfl, rfl, Nat.zero_le _⟩

theorem within_unlisten : Within s s.unlisten s.clients.size := by
  rw [unlisten_eq]
  exact ⟨rfl, rfl, Nat.le_refl _⟩

theorem within_insertClient (client conn : Nat) (nodelay : Except String Unit) :
    Within s (s.insertClient client conn nodelay).1 (s.clients.size + 1) := by
  cases nodelay with
  | error reason => exact ⟨rfl, rfl, Nat.le_succ _⟩
  | ok _ => exact ⟨rfl, rfl, Std.TreeMap.size_insert_le⟩

theorem within_connected (client conn : Nat) (ok : Except Fault Bool)
    (nodelay : Except String Unit) :
    Within s (s.connected client conn ok nodelay).1 (s.clients.size + 1) := by
  unfold connected
  split
  · exact ⟨rfl, rfl, Nat.le_succ _⟩
  · exact ⟨rfl, rfl, Nat.le_succ _⟩
  · exact within_insertClient client conn nodelay

/-- `poll` goes on in a state with the same clients, and its call is no longer
in the callback. -/
structure Resumed (s s' : State) (thread : Nat) : Prop where
  maxClients : s'.maxClients = s.maxClients
  clients : s'.clients = s.clients
  pending : s'.pending = CallStack.count Call.isConnecting (CallStack.pop s.calls thread)

theorem resumed_leave (thread : Nat) (result : Except Fault (Option Nat)) :
    Resumed s (s.leave thread result) thread :=
  ⟨rfl, rfl, rfl⟩

theorem resumed_advance (thread : Nat) {call : Call} (h : call.isConnecting = false) :
    Resumed s (s.advance thread call) thread := by
  refine ⟨rfl, rfl, ?_⟩
  rw [State.pending, advance, CallStack.advance, CallStack.count_push, h]
  rfl

theorem resumed_resume (thread : Nat) (listenSocket : Option Nat) (ready : List Ready)
    (result : Except Fault Unit) :
    Resumed s (s.resume thread listenSocket ready result) thread := by
  unfold resume
  split
  · exact resumed_advance thread rfl
  · exact resumed_leave thread _

theorem Resumed.load_le {s' : State} {thread : Nat} (h : Resumed s s' thread) :
    s'.load ≤ s.load := by
  rw [load, load, h.clients, h.pending]
  exact Nat.add_le_add_left (CallStack.count_pop_le _ _ _) _

/-- A call that goes on into the callback adds one to the load. -/
theorem load_advance_le (thread : Nat) (call : Call) :
    (s.advance thread call).load ≤ s.load + 1 := by
  have hpop := CallStack.count_pop_le Call.isConnecting s.calls thread
  have hcall : (if call.isConnecting then 1 else 0) ≤ 1 := by
    split <;> decide
  show s.clients.size + CallStack.count _ (CallStack.push _ _ _) ≤ s.clients.size + s.pending + 1
  rw [CallStack.count_push, pending]
  omega

/-- `accept_new_client` finds a vacancy, or it changes no clients. -/
theorem acceptNewClient_cases {s' : State} {accepted : Except String Peer}
    {nodelay : Except String Unit} {out : Accepted}
    (h : s.acceptNewClient accepted nodelay = (s', out)) :
    Within s s' s.clients.size ∧ (∃ result, out = .done result) ∨
      ((∃ peer, accepted = .ok peer) ∧ s.socket.isSome ∧ s.clients.size < s.maxClients ∧
          (s.connectFn || nodelay.isOk)) ∧
        (Within s s' (s.clients.size + 1) ∧ (∃ result, out = .done result) ∨
          Within s s' s.clients.size ∧ ∃ client conn, out = .connecting client conn) := by
  unfold acceptNewClient at h
  split at h
  next =>
    cases h
    exact .inl ⟨⟨rfl, rfl, Nat.le_refl _⟩, _, rfl⟩
  next socket hsocket =>
    split at h
    next =>
      cases h
      exact .inl ⟨⟨rfl, rfl, Nat.le_refl _⟩, _, rfl⟩
    next peer =>
      by_cases hfull : s.maxClients ≤ s.clients.size
      · rw [if_pos hfull] at h
        cases h
        exact .inl ⟨⟨rfl, rfl, Nat.le_refl _⟩, _, rfl⟩
      · rw [if_neg hfull] at h
        have hvacant : s.clients.size < s.maxClients := Nat.lt_of_not_le hfull
        have hopen : s.socket.isSome := hsocket ▸ rfl
        by_cases hfn : s.connectFn = true
        · cases (if_pos hfn).symm.trans h
          refine .inr ⟨⟨⟨peer, rfl⟩, hopen, hvacant, ?_⟩,
            .inr ⟨⟨rfl, rfl, Nat.le_refl _⟩, _, _, rfl⟩⟩
          rw [hfn, Bool.true_or]
        · cases (if_neg hfn).symm.trans h
          cases nodelay with
          | error reason => exact .inl ⟨⟨rfl, rfl, Nat.le_refl _⟩, _, rfl⟩
          | ok _ =>
            refine .inr ⟨⟨⟨peer, rfl⟩, hopen, hvacant, ?_⟩,
              .inl ⟨⟨rfl, rfl, Std.TreeMap.size_insert_le⟩, _, rfl⟩⟩
            rw [Except.isOk, Except.toBool, Bool.or_true]

/-! ## The limit -/

variable {s' : State} {maxClients thread : Nat}

theorem Limited.within (h : Limited maxClients s) (hwithin : Within s s' s.clients.size) :
    Limited maxClients s' :=
  ⟨hwithin.maxClients.trans h.1, Nat.le_trans hwithin.load_le h.2⟩

theorem Limited.resumed (h : Limited maxClients s) (hresumed : Resumed s s' thread) :
    Limited maxClients s' :=
  ⟨hresumed.maxClients.trans h.1, Nat.le_trans hresumed.load_le h.2⟩

theorem Limited.advance (h : Limited maxClients s) {call : Call}
    (hcall : call.isConnecting = false) : Limited maxClients (s.advance thread call) :=
  h.resumed (resumed_advance thread hcall)

theorem Limited.leave (h : Limited maxClients s) (result : Except Fault (Option Nat)) :
    Limited maxClients (s.leave thread result) :=
  h.resumed (resumed_leave thread result)

theorem Limited.resume (h : Limited maxClients s) (listenSocket : Option Nat)
    (ready : List Ready) (result : Except Fault Unit) :
    Limited maxClients (s.resume thread listenSocket ready result) :=
  h.resumed (resumed_resume thread listenSocket ready result)

/-- The callback ends, and the client takes the place that was kept for it. -/
theorem limited_connected (h : Limited maxClients s) {client conn : Nat}
    {listenSocket : Option Nat} {ready : List Ready}
    (htop : CallStack.top s.calls thread = some (.connecting client conn listenSocket ready))
    (ok : Except Fault Bool) (nodelay : Except String Unit) :
    Limited maxClients ((s.connected client conn ok nodelay).1.resume thread listenSocket ready
      (s.connected client conn ok nodelay).2) := by
  have hwithin := within_connected (s := s) client conn ok nodelay
  have hresumed := resumed_resume (s := (s.connected client conn ok nodelay).1) thread
    listenSocket ready (s.connected client conn ok nodelay).2
  have hpop : s.pending =
      CallStack.count Call.isConnecting (CallStack.pop s.calls thread) + 1 :=
    CallStack.count_pop _ htop
  refine ⟨hresumed.maxClients.trans (hwithin.maxClients.trans h.1), ?_⟩
  have hload := h.2
  have hsize := hwithin.size
  rw [load, hpop] at hload
  rw [load, hresumed.clients, hresumed.pending, hwithin.calls]
  omega

theorem limited_accept (h : Limited maxClients s) {accepted : Except String Peer}
    {nodelay : Except String Unit} (hok : s.Vacant (.accept thread accepted nodelay))
    (hstep : step s (.accept thread accepted nodelay) = some s') : Limited maxClients s' := by
  simp only [step] at hstep
  split at hstep
  next listenSocket fd ready htop =>
    rw [Option.ite_none_right_eq_some] at hstep
    have hresult := hstep.2
    split at hresult
    next s₁ result haccept =>
      cases hresult
      rcases acceptNewClient_cases haccept with ⟨hwithin, -⟩ |
        ⟨⟨⟨peer, rfl⟩, hsocket, hsize, hadmit⟩, hout⟩
      · exact (h.within hwithin).resume _ _ _
      · have hload := hok hsocket hsize hadmit
        rcases hout with ⟨hwithin, -⟩ | ⟨-, client, conn, hconn⟩
        · refine Limited.resume ⟨hwithin.maxClients.trans h.1, ?_⟩ _ _ _
          have hle := hwithin.load_le
          rw [load, h.1] at hload
          omega
        · cases hconn
    next s₁ client conn haccept =>
      cases hresult
      rcases acceptNewClient_cases haccept with ⟨-, result, hdone⟩ |
        ⟨⟨⟨peer, rfl⟩, hsocket, hsize, hadmit⟩, ⟨-, result, hdone⟩ | ⟨hwithin, -⟩⟩
      · cases hdone
      · cases hdone
      · have hload : s.load < maxClients := h.1 ▸ hok hsocket hsize hadmit
        refine ⟨hwithin.maxClients.trans h.1, ?_⟩
        exact Nat.le_trans (load_advance_le thread _)
          (Nat.succ_le_of_lt (Nat.lt_of_le_of_lt hwithin.load_le hload))
  next => cases hstep

theorem limited_disconnect (h : Limited maxClients s) (thread client : Nat) :
    Limited maxClients (s.disconnect thread client) := by
  have herase : (s.clients.erase client).size ≤ s.clients.size := Std.TreeMap.size_erase_le
  have hload : (s.clients.erase client).size + s.pending ≤ maxClients :=
    Nat.le_trans (Nat.add_le_add_right herase _) h.2
  unfold disconnect
  split
  next => exact h
  next conn _ =>
    show Limited maxClients (if s.disconnectFn = true then _ else _)
    split <;> exact ⟨h.1, hload⟩

theorem Limited.moved (h : Limited maxClients s) (hmoved : Moved s thread s') :
    Limited maxClients s' := by
  cases hmoved with
  | leave call result => exact h.leave result
  | advance call call' _ _ hcall' => exact h.advance hcall'

/-- One step keeps the limit. -/
theorem limited_step {a : Act} (h : Limited maxClients s) (hok : s.Vacant a)
    (hstep : step s a = some s') : Limited maxClients s' := by
  cases a with
  | onConnect fn | onDisconnect fn =>
    cases hstep
    exact h
  | unlisten =>
    cases hstep
    exact h.within within_unlisten
  | disconnectAll =>
    cases hstep
    exact h.within within_disconnectAll
  | disconnect thread client =>
    simp only [step, Option.ite_none_right_eq_some] at hstep
    cases hstep.2
    exact limited_disconnect h thread client
  | disconnected thread =>
    simp only [step] at hstep
    split at hstep
    next =>
      cases hstep
      exact h.resumed ⟨rfl, rfl, rfl⟩
    next => cases hstep
  | poll thread =>
    simp only [step, Option.ite_none_right_eq_some] at hstep
    cases hstep.2
    exact h
  | collect thread => exact h.moved (moved_collect hstep)
  | polled thread result => exact h.moved (moved_polled hstep)
  | accept thread accepted nodelay => exact limited_accept h hok hstep
  | connected thread ok nodelay =>
    simp only [step] at hstep
    split at hstep
    next htop =>
      cases hstep
      exact limited_connected h htop ok nodelay
    next => cases hstep
  | scan thread => exact h.moved (moved_scan hstep)
  | elapsed thread late => exact h.moved (moved_elapsed hstep)

/-- A call that breaks the condition while a callback is installed admits one
connection more than allowed: if every callback returns true, all of them become
clients. -/
theorem lt_load_of_not_vacant {accepted : Except String Peer} {nodelay : Except String Unit}
    (hfn : s.connectFn = true) (hnot : ¬ s.Vacant (.accept thread accepted nodelay))
    (hstep : step s (.accept thread accepted nodelay) = some s') : s'.maxClients < s'.load := by
  cases accepted with
  | error reason => exact absurd trivial hnot
  | ok peer =>
    simp only [Vacant, Classical.not_imp, Nat.not_lt] at hnot
    obtain ⟨hsocket, hsize, -, hload⟩ := hnot
    obtain ⟨socket, hsocket⟩ := Option.isSome_iff_exists.1 hsocket
    simp only [step] at hstep
    split at hstep
    next listenSocket fd ready htop =>
      rw [Option.ite_none_right_eq_some] at hstep
      have hresult := hstep.2
      have hpop := CallStack.count_pop Call.isConnecting htop
      simp only [acceptNewClient, hsocket, if_neg (Nat.not_le.2 hsize), hfn, if_true,
        Option.some.injEq] at hresult
      rw [← hresult]
      show s.maxClients < s.clients.size + CallStack.count _ (CallStack.push _ _ _)
      rw [CallStack.count_push]
      rw [load, pending, hpop] at hload
      simp only [Call.isConnecting, Bool.false_eq_true, if_false, if_true] at hload ⊢
      omega
    next => cases hstep

end State

open State

/-- In a run whose calls of `accept_new_client` find a vacancy for every
connection that they admit, there are never more clients than allowed. -/
theorem numClients_le {linux : Bool} {maxClients socket : Nat} {s : State}
    (h : ((system linux maxClients socket).restrict Vacant).Reachable s) :
    s.numClients ≤ maxClients := by
  have hinv : Limited maxClients s := by
    refine h.invariant (I := Limited maxClients) ?_ ?_
    · rintro _ rfl
      exact ⟨rfl, Nat.zero_le _⟩
    · intro s a s' _ hs hstep
      exact limited_step hs hstep.1 hstep.2
  exact Nat.le_trans (Nat.le_add_right _ _) hinv.2

/-- `poll` accepts a connection from the listening socket. -/
def accepting (thread conn : Nat) : List Act :=
  [.poll thread, .collect thread, .polled thread (.ok [⟨3, true⟩]),
    .accept thread (.ok ⟨conn, "127.0.0.1", 4711⟩) (.ok ())]

/-- A second connection is accepted while the callback of the first one is running, and a third
one is refused. -/
theorem numClients_le_two :
    ∃ s, ((system true 2 3).restrict Vacant).Reachable s ∧ s.descriptors = [6, 5, 4, 3] ∧
      s.numClients ≤ 2 := by
  obtain ⟨s, h, hs⟩ : ∃ s, ((system true 2 3).restrict Vacant).Reachable s ∧
      s.descriptors = [6, 5, 4, 3] :=
    System.exists_reachable_restrict_of_run
      ([.onConnect true] ++ accepting 0 4 ++ accepting 1 5 ++
        [.connected 0 (.ok true) (.ok ()), .connected 1 (.ok true) (.ok ()), .elapsed 0 true] ++
        accepting 0 6) (by decide +kernel)
  exact ⟨s, h, hs, numClients_le h⟩

/-- Two threads accept a connection each while the callback of the other one is
running, and both of them are admitted into the only vacancy. -/
theorem limit_exceeded :
    ∃ s, (system true 1 3).Reachable s ∧ s.maxClients = 1 ∧ s.numClients = 2 :=
  System.exists_reachable_of_run
    ([.onConnect true] ++ accepting 0 4 ++ accepting 1 5 ++
      [.connected 0 (.ok true) (.ok ()), .connected 1 (.ok true) (.ok ())]) (by decide +kernel)

end Mwr.ServerSocket
