import Mwr.ClientSocket.Model

/-!
# What the steps of a client socket do

* `reach` is the connection that a transfer over a handle reaches.
* `Narrows` says that a step lets no handle reach another connection than before.
* `Effect` has one case for each kind of step, and `effect_of_step` shows that there
  are no others.
-/

namespace Mwr.ClientSocket

namespace State

/-- The connection that a transfer over a handle reaches. -/
def reach (s : State) (direction : Direction) (conn : Option Nat) : Option Nat :=
  conn.bind fun fd => (s.descs fd).reach direction

end State

open State

variable {s s' : State}

/-! ## The connections that handles reach -/

theorem reach_update {fd : Nat} {desc : Desc} {direction : Direction} {conn : Option Nat} :
    reach { s with descs := Function.update s.descs fd desc } direction conn =
      if conn = some fd then desc.reach direction else s.reach direction conn := by
  cases conn with
  | none => rfl
  | some fd' =>
    by_cases h : fd' = fd
    · subst h
      rw [if_pos rfl]
      show (Function.update s.descs fd' desc fd').reach direction = _
      rw [Function.update_self]
    · rw [if_neg fun heq => h (Option.some.inj heq)]
      show (Function.update s.descs fd desc fd').reach direction = _
      rw [Function.update_of_ne h]
      rfl

/-- A closed descriptor reaches no other connection than before. -/
theorem reach_closeSocket {fd connection : Nat} {direction : Direction} {conn : Option Nat}
    (h : (s.closeSocket fd).reach direction conn = some connection) :
    s.reach direction conn = some connection := by
  rw [closeSocket, reach_update] at h
  split at h
  next hconn =>
    subst hconn
    show (s.descs fd).reach direction = some connection
    split at h
    next =>
      cases hdesc : s.descs fd with
      | connected c =>
        rw [hdesc] at h
        cases direction with
        | send => cases h
        | recv => exact h
      | closed | unconnected | shutDown c =>
        rw [hdesc] at h
        exact h
    next => cases h
  next => exact h

/-- The state after a step of another thread, in which no handle reaches another
connection than before. -/
structure Narrows (s s' : State) : Prop where
  call : s'.call = s.call
  connections : s'.connections = s.connections
  log : ∀ t, Event.transferred t ∈ s'.log → Event.transferred t ∈ s.log
  position : s'.position = s.position
  reach : ∀ direction conn c, s'.reach direction conn = some c → s.reach direction conn = some c
  conn : ∀ direction c, s'.reach direction s'.socket.conn = some c →
    s.reach direction s.socket.conn = some c

theorem Narrows.refl (s : State) : Narrows s s :=
  ⟨rfl, rfl, fun _ h => h, rfl, fun _ _ _ h => h, fun _ _ h => h⟩

/-- A step that goes on with `connect`, and may throw. -/
theorem Narrows.connecting (h : Narrows s s') (connecting : Option Connecting)
    (faults : List Fault) :
    Narrows s { s' with connecting := connecting, log := faults.map .thrown ++ s'.log } where
  call := h.call
  connections := h.connections
  log := fun t ht => by
    rcases List.mem_append.1 ht with ht | ht
    · obtain ⟨fault, -, hfault⟩ := List.mem_map.1 ht
      cases hfault
    · exact h.log t ht
  position := h.position
  reach := h.reach
  conn := h.conn

theorem narrows_disconnectLocked : Narrows s s.disconnectLocked := by
  unfold disconnectLocked
  split
  next => exact .refl s
  next fd _ =>
    exact ⟨rfl, rfl, fun _ h => h, rfl, fun _ _ _ h => reach_closeSocket h, fun _ _ h => nomatch h⟩

theorem narrows_connect (host : String) (port : UInt16) (info : Except String (List Addr)) :
    Narrows s (s.connect host port info) := by
  cases info with
  | error reason => exact narrows_disconnectLocked.connecting _ [_]
  | ok addrs => exact narrows_disconnectLocked.connecting _ []

theorem narrows_createSocket (host : String) (port : UInt16) (addr : Addr) (addrs : List Addr)
    (result : Except String Nat) : Narrows s (s.createSocket host port addr addrs result) := by
  cases result with
  | error reason =>
    exact ⟨rfl, rfl, fun t ht => by simpa [createSocket, State.throw] using ht, rfl,
      fun _ _ _ h => h, fun _ _ h => nomatch h⟩
  | ok fd =>
    refine ⟨rfl, rfl, fun _ h => h, rfl, ?_, ?_⟩
    · intro direction conn c hc
      change State.reach { s with descs := Function.update s.descs fd .unconnected } _ _ = _ at hc
      rw [reach_update] at hc
      split at hc
      next => cases hc
      next => exact hc
    · intro direction c hc
      change State.reach { s with descs := Function.update s.descs fd .unconnected } _
        (some fd) = _ at hc
      rw [reach_update, if_pos rfl] at hc
      cases hc

theorem narrows_refused (host : String) (port : UInt16) (addrs : List Addr) :
    Narrows s (s.refused host port addrs) := by
  unfold refused
  split
  next => exact (Narrows.refl s).connecting _ []
  next fd _ =>
    exact ⟨rfl, rfl, fun _ h => h, rfl, fun _ _ _ h => reach_closeSocket h, fun _ _ h => nomatch h⟩

theorem narrows_finish (reason : String) (nodelay : Except String Unit) :
    Narrows s (s.finish reason nodelay) := by
  unfold finish
  dsimp only
  split
  next => exact (Narrows.refl s).connecting none [_]
  next =>
    cases nodelay with
    | error reason => exact (Narrows.refl s).connecting none [_]
    | ok _ => exact (Narrows.refl s).connecting none []

/-! ## The kinds of steps -/

/-- What a step does.  Only a connection that is made, and a chunk that is transferred,
change what a call in progress may reach. -/
inductive Effect (s : State) : Act → State → Prop
  | narrow {a : Act} {s' : State} : Narrows s s' → Effect s a s'
  | connected (fd : Nat) (host : String) (port : UInt16) (addr : Addr) :
    s.socket.conn = some fd → Effect s (.attempt true) (s.connected fd host port addr)
  | transfer (direction : Direction) (size : Nat) :
    Effect s (.transfer direction size) { s with call := some (.mk direction size 0 .start []) }
  | check (t : Transfer) : s.call = some t → t.pc = .start → Effect s .check (s.check t)
  | read (t : Transfer) : s.call = some t → t.pc = .loop →
    Effect s .read { s with call := some { t with pc := .chunk s.socket.conn } }
  | fail {r : Except String Nat} (direction : Direction) (reason : String) :
    Effect s (.chunk r) (s.fail direction reason)
  | transferred (t : Transfer) (conn : Option Nat) (c r : Nat) : s.call = some t →
    t.pc = .chunk conn → s.reach t.direction conn = some c → 0 < r → t.n + r ≤ t.size →
    Effect s (.chunk (.ok r)) (s.transferred t c r)

theorem connected_of_step (hstep : step s (.attempt true) = some s') :
    ∃ fd host port addr, s.socket.conn = some fd ∧ s' = s.connected fd host port addr := by
  simp only [step] at hstep
  split at hstep
  next host port addr addrs _ =>
    rw [if_pos trivial] at hstep
    split at hstep
    next => cases hstep
    next fd hconn =>
      rw [Option.ite_none_right_eq_some] at hstep
      exact ⟨fd, host, port, addr, hconn, (Option.some.inj hstep.2).symm⟩
  next => cases hstep

theorem effect_of_step {a : Act} (hstep : step s a = some s') : Effect s a s' := by
  cases a with
  | disconnect =>
    simp only [step, Option.ite_none_right_eq_some] at hstep
    cases hstep.2
    exact .narrow narrows_disconnectLocked
  | connect host port info =>
    simp only [step, Option.ite_none_right_eq_some] at hstep
    cases hstep.2
    exact .narrow (narrows_connect host port info)
  | socket result =>
    simp only [step] at hstep
    split at hstep
    next host port addr addrs _ =>
      cases result with
      | error reason =>
        cases hstep
        exact .narrow (narrows_createSocket host port addr addrs (.error reason))
      | ok fd =>
        simp only [Option.ite_none_right_eq_some] at hstep
        cases hstep.2
        exact .narrow (narrows_createSocket host port addr addrs (.ok fd))
    next => cases hstep
  | attempt success =>
    cases success with
    | true =>
      obtain ⟨fd, host, port, addr, hconn, rfl⟩ := connected_of_step hstep
      exact .connected fd host port addr hconn
    | false =>
      simp only [step] at hstep
      split at hstep
      next host port addr addrs _ =>
        cases hstep
        exact .narrow (narrows_refused host port addrs)
      next => cases hstep
  | finish reason nodelay =>
    simp only [step] at hstep
    split at hstep
    · cases hstep
      exact .narrow (narrows_finish reason nodelay)
    · cases hstep
      exact .narrow (narrows_finish reason nodelay)
    · cases hstep
  | transfer direction size =>
    simp only [step] at hstep
    split at hstep
    next =>
      cases hstep
      exact .transfer direction size
    next => cases hstep
  | check =>
    simp only [step] at hstep
    split at hstep
    next t ht =>
      rw [Option.ite_none_right_eq_some] at hstep
      cases hstep.2
      exact .check t ht hstep.1.1
    next => cases hstep
  | read =>
    simp only [step] at hstep
    split at hstep
    next t ht =>
      rw [Option.ite_none_right_eq_some] at hstep
      cases hstep.2
      exact .read t ht hstep.1.1
    next => cases hstep
  | chunk r =>
    simp only [step] at hstep
    split at hstep
    next t ht =>
      split at hstep
      next conn hpc =>
        split at hstep
        next reason =>
          cases hstep
          exact .fail t.direction reason
        next =>
          cases hstep
          exact .fail t.direction "disconnected"
        next r hr =>
          split at hstep
          next => cases hstep
          next c hc =>
            rw [Option.ite_none_right_eq_some] at hstep
            cases hstep.2
            exact .transferred t conn c r ht hpc hc (Nat.pos_of_ne_zero fun h0 => hr (h0 ▸ rfl))
              hstep.1
      next => cases hstep
    next => cases hstep

end Mwr.ClientSocket
