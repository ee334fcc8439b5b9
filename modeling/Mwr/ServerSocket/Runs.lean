import Mwr.ServerSocket.Accounts
import Mwr.ServerSocket.Listen

/-!
# The accounts of a run

The simulation of `Mwr.ServerSocket.Accounts` goes on to the methods of the whole
server, and to its runs.

* `books_step` is one step, and `Sound` the invariant that the accounts are in order.
* `sound` is the result about runs.  `paired` is about those whose clients all get
  their callbacks when they leave.
-/

namespace Mwr.ServerSocket

open Mwr.CodeLib
open Mwr.CodeLib.Ledger
open Mwr.CodeLib.Transition
open Relation
open State

variable {h : History} {quiet : Bool}

/-! ## The whole server -/

namespace Server

/-- A client that leaves in the step gets its callback. -/
def Notifies (s : Server) : Act → Prop
  | .call a => s.toState.Notifies a
  | .transferred _ _ => s.disconnectFn
  | _ => True

variable {s s' : Server}

/-- `listen` opens a socket after it has closed the old one. -/
theorem steps_openSocket {fd : Nat} (hfresh : fd ∉ s.unlisten.descriptors) :
    ReflTransGen (Step s.linux quiet) (s.toState.ledger h)
      ((s.unlisten.openSocket fd).ledger { h with obtained := fd :: h.obtained }) := by
  have hopen : Step s.linux quiet
      { s.toState.ledger h with root := 0, inUse := ↑s.toState.unlisten.descriptors } _ :=
    .openRoot _ fd hfresh
  refine .tail (steps_unlisten s.toState h) ?_
  show Step _ _ _ (State.ledger { s.toState.unlisten with
    socket := some fd
    descriptors := fd :: s.toState.unlisten.descriptors } _)
  rw [unlisten_eq]
  exact hopen

theorem books_openSocket {fd : Nat} (hfresh : fd ∉ s.unlisten.descriptors) :
    Books quiet [fd] [] h s.toState (s.unlisten.openSocket fd).toState :=
  .of_clients (unlisten_linux _) (.inl (unlisten_nextClientId _)) (unlisten_clients _)
    (steps_openSocket hfresh)

/-- The new socket is closed again. -/
theorem books_closeListening {fd : Nat} (hfresh : fd ∉ s.unlisten.descriptors) :
    Books quiet [fd] [] h s.toState (s.unlisten.openSocket fd).closeListening.toState := by
  have hopen : ReflTransGen (Step s.linux quiet) _ _ := steps_openSocket (h := h) hfresh
  have hlinux : (s.unlisten.openSocket fd).linux = s.linux := unlisten_linux s.toState
  have hclose : ReflTransGen (Step (s.unlisten.openSocket fd).linux quiet) _ _ :=
    steps_unlisten (s.unlisten.openSocket fd).toState { h with obtained := fd :: h.obtained }
  rw [hlinux] at hclose
  refine .of_clients ((unlisten_linux _).trans hlinux)
    (.inl ((unlisten_nextClientId _).trans (unlisten_nextClientId s.toState)))
    ((unlisten_clients _).trans (unlisten_clients s.toState)) ?_
  show ReflTransGen _ _ (State.ledger (State.unlisten _) _)
  rw [unlisten_eq]
  exact hopen.trans hclose

theorem opened_listen {port : UInt16} {addr : String} {os : ListenOs} {fd : Nat}
    (halready : s.alreadyListening port addr = false) (hdisabled : ¬(s.noIpv4 ∧ s.noIpv6))
    (hsocket : os.socket = .ok fd) : s.opened (.listen port addr os) = [fd] := by
  rw [opened, hsocket]
  exact if_neg (not_or.2 ⟨Bool.eq_false_iff.1 halready, hdisabled⟩)

theorem opened_listen_eq_nil {port : UInt16} {addr : String} {os : ListenOs}
    (h : s.alreadyListening port addr = true ∨ s.noIpv4 ∧ s.noIpv6) :
    s.opened (.listen port addr os) = [] := by
  rw [opened]
  cases os.socket with
  | error reason => rfl
  | ok fd => exact if_pos h

theorem books_created {port : UInt16} {addr : String} {os : ListenOs} {fd : Nat} {s₁ : Server}
    {r : Except Fault (UInt16 × String)} (halready : s.alreadyListening port addr = false)
    (hdisabled : ¬(s.noIpv4 ∧ s.noIpv6)) (hsocket : os.socket = .ok fd)
    (hcreated : Created os (s.family os addr) port addr s.unlisten fd (r, s₁))
    (hfresh : s.freshSocket os.socket) :
    Books quiet (s.opened (.listen port addr os)) [] h s.toState s₁.toState := by
  have hfd : fd ∉ s.unlisten.descriptors := by
    rw [hsocket] at hfresh
    simpa [freshSocket] using hfresh
  rw [opened_listen halready hdisabled hsocket]
  cases hcreated with
  | options | address | listen | getsockname | done => exact books_openSocket hfd
  | bind => exact books_closeListening hfd

theorem books_listen {port : UInt16} {addr : String} {os : ListenOs}
    (hstep : step s (.listen port addr os) = some s') :
    Books quiet (s.opened (.listen port addr os)) (s.accepted (.listen port addr os)) h
      s.toState s'.toState := by
  rw [step, Option.ite_none_right_eq_some] at hstep
  obtain ⟨hfresh, hexec⟩ := hstep
  have hlistened : Listened s port addr os (Throwing.exec (listen os port addr) s) := listened
  rcases hrun : Throwing.exec (listen os port addr) s with ⟨r, s₁⟩
  rw [hrun] at hexec hlistened
  have hs₁ : s₁ = s' := by
    split at hexec
    · cases hexec
    next heq =>
      cases heq
      exact Option.some.inj hexec
  cases hs₁
  cases hlistened with
  | already halready =>
    rw [opened_listen_eq_nil (.inl halready)]
    exact Frame.books ⟨rfl, rfl, rfl, rfl, rfl, rfl, rfl⟩
  | disabled _ _ hdisabled =>
    rw [opened_listen_eq_nil (.inr hdisabled)]
    exact books_unlisten
  | socket reason _ _ _ hsocket =>
    have hopened : s.opened (.listen port addr os) = [] := by
      rw [opened, hsocket]
    rw [hopened]
    exact books_unlisten.frame ⟨rfl, (unlisten_socket _).symm, rfl, rfl, rfl, rfl, rfl⟩
  | failed fd fault _ halready hdisabled hsocket hcreated =>
    exact books_created halready hdisabled hsocket hcreated hfresh
  | done fd name s₂ halready hdisabled hsocket hcreated =>
    have hbooks : Books quiet _ [] h s.toState s₂.toState :=
      books_created halready hdisabled hsocket hcreated hfresh
    exact hbooks

theorem toState_find {thread : Nat} (hstep : step s (.find thread) = some s') :
    s'.toState = s.toState := by
  simp only [step] at hstep
  split at hstep
  next =>
    split at hstep
    · cases hstep
      rfl
    · split at hstep <;> cases hstep <;> rfl
  next => cases hstep

theorem books_transferred {thread : Nat} {r : Except String Nat}
    (hnotifies : quiet = true ∨ s.disconnectFn = true)
    (hstep : step s (.transferred thread r) = some s') :
    Books quiet (s.opened (.transferred thread r)) (s.accepted (.transferred thread r)) h
      s.toState s'.toState := by
  simp only [step] at hstep
  split at hstep
  next client left _ _ =>
    split at hstep
    · cases hstep
      exact books_disconnect thread client hnotifies
    · cases hstep
      exact books_disconnect thread client hnotifies
    · rw [Option.ite_none_right_eq_some] at hstep
      cases hstep.2
      exact Frame.books ⟨rfl, rfl, rfl, rfl, rfl, rfl, rfl⟩
  next => cases hstep

/-- One step, in the accounts of the server. -/
theorem books_step {keep : Bool} (hinv : (s.toState.ledger h).Inv keep) {a : Act}
    (hnotifies : quiet = true ∨ s.Notifies a) (hstep : step s a = some s') :
    Books quiet (s.opened a) (s.accepted a) h s.toState s'.toState := by
  have hframe : Frame s.toState s.toState := ⟨rfl, rfl, rfl, rfl, rfl, rfl, rfl⟩
  cases a with
  | call a =>
    rw [step, Option.ite_none_left_eq_some, Option.map_eq_some_iff] at hstep
    obtain ⟨-, t, ht, hs'⟩ := hstep
    have htoState : s'.toState = t := by
      rw [← hs']
      split <;> rfl
    rw [htoState]
    exact ServerSocket.books_step hinv hnotifies ht
  | listen port addr os => exact books_listen hstep
  | setIpv6Only set =>
    cases hstep
    exact hframe.books
  | transfer thread client size =>
    rw [step, Option.ite_none_right_eq_some] at hstep
    cases hstep.2
    exact hframe.books
  | find thread =>
    rw [toState_find hstep]
    exact hframe.books
  | transferred thread r => exact books_transferred hnotifies hstep

/-! ## Runs -/

/-- The accounts of a server with the history of its run. -/
def accounts (p : Server × History) : Ledger ℕ := p.1.toState.ledger p.2

/-- The invariant of a run. -/
structure Sound (linux : Bool) (p : Server × History) : Prop where
  platform : p.1.linux = linux
  accounts : (accounts p).Inv linux
  next : p.1.nextClientId ≤ p.2.accepts

variable {linux noIpv4 noIpv6 : Bool} {maxClients : Nat} {p q : Server × History} {a : Act}

/-- An observed step, in the accounts of the server. -/
theorem books_observe (hsound : Sound linux p) (hnotifies : quiet = true ∨ p.1.Notifies a)
    (hstep : System.observe step note p a = some q) :
    Books quiet (p.1.opened a) (p.1.accepted a) p.2 p.1.toState q.1.toState ∧
      q.2 = p.2.note (p.1.opened a) (p.1.accepted a) p.1.toState q.1.toState := by
  obtain ⟨hs, hnote⟩ := System.observe_eq_some hstep
  exact ⟨books_step hsound.accounts hnotifies hs, hnote⟩

theorem steps_observe (hsound : Sound linux p) (hnotifies : quiet = true ∨ p.1.Notifies a)
    (hstep : System.observe step note p a = some q) :
    ReflTransGen (Step linux quiet) (accounts p) (accounts q) := by
  obtain ⟨hbooks, hnote⟩ := books_observe hsound hnotifies hstep
  have hsteps := hbooks.steps
  rw [hsound.platform, ← hnote] at hsteps
  exact hsteps

theorem sound_step (hsound : Sound linux p) (hstep : System.observe step note p a = some q) :
    Sound linux q := by
  have hquiet : true = true ∨ p.1.Notifies a := .inl rfl
  obtain ⟨hbooks, hnote⟩ := books_observe hsound hquiet hstep
  refine ⟨hbooks.linux.trans hsound.platform,
    inv_of_steps hsound.accounts (steps_observe hsound hquiet hstep), ?_⟩
  have hnext := hsound.next
  have haccepts : q.2.accepts = p.2.accepts + (p.1.accepted a).length := by
    rw [hnote]
    rfl
  rcases hbooks.next with hsame | ⟨hdrawn, hlength⟩ <;> omega

/-- In every reachable state, the accounts are in order. -/
theorem sound (h : (observed linux noIpv4 noIpv6 maxClients).Reachable p) : Sound linux p := by
  refine h.invariant (I := Sound linux) ?_ ?_
  · rintro _ rfl
    refine ⟨rfl, ⟨Multiset.nodup_zero, nofun, rfl, le_rfl, ?_⟩, le_rfl⟩
    exact ⟨Multiset.nodup_zero, le_rfl, fun _ => rfl, fun _ => rfl⟩
  · intro p a q _ hsound hstep
    exact sound_step hsound hstep

/-- In a run whose clients all get their callbacks when they leave, every client that
has left has been notified. -/
theorem paired
    (h : ((observed linux noIpv4 noIpv6 maxClients).restrict fun p a =>
      p.1.Notifies a).Reachable p) :
    (accounts p).Paired := by
  refine h.invariant (I := fun p => (accounts p).Paired) ?_ ?_
  · rintro _ rfl
    rfl
  · intro p a q hreach hpaired hstep
    exact paired_of_steps hpaired (steps_observe (sound hreach.of_restrict) (.inr hstep.1) hstep.2)

/-- What the operating system answers to a `listen` that succeeds. -/
def listening (fd : Nat) : ListenOs where
  inetPton := fun _ _ => false
  getaddrinfo := fun _ _ => none
  socket := .ok fd
  setsockopt := fun _ => .ok ()
  bind := .ok ()
  listen := .ok ()
  getsockname := .ok (4711, "127.0.0.1")

/-- A thread polls, and `poll` accepts a connection and runs out of time. -/
def acceptClient (thread fd conn : Nat) : List Act :=
  [.call (.poll thread), .call (.collect thread), .call (.polled thread (.ok [⟨fd, true⟩])),
    .call (.accept thread (.ok ⟨conn, "127.0.0.1", 4712⟩) (.ok ())), .call (.elapsed thread true)]

end Server

end Mwr.ServerSocket
