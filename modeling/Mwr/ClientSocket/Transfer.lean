import Mwr.ClientSocket.Steps

/-!
# Transfers over a client socket

`send` and `recv` read `m_conn` again before each chunk.  If another thread has
connected the socket again since the last chunk, the next chunk goes over the new
connection, and the call returns although its bytes are on two connections.

* `Contiguous` says that chunks follow one another on one connection.
* `Exposed` says when a call in progress can still put bytes on an old and on a new
  connection, and `Unexposed` that no connection is made then.
* `Steady` is the invariant of a call in progress.
* `onOneConnection_of_unexposed` is the result about runs.
-/

namespace Mwr.ClientSocket

open Mwr.CodeLib.Transition

/-- The chunks follow one another on a connection, from one position to another. -/
def Contiguous (connection : Nat) : Nat → List Chunk → Nat → Prop
  | start, [], stop => start = stop
  | start, chunk :: chunks, stop =>
    chunk.connection = connection ∧ chunk.offset = start ∧
      Contiguous connection (start + chunk.length) chunks stop

/-- All bytes of the call have gone over one connection, one after another. -/
def Transfer.OnOneConnection (t : Transfer) : Prop :=
  ∃ connection start, Contiguous connection start t.chunks (start + t.size)

namespace State

/-- Every call of `send` or `recv` that has returned was on one connection. -/
def OnOneConnection (s : State) : Prop :=
  ∀ t, Event.transferred t ∈ s.log → t.OnOneConnection

/-- The call can put bytes on an old connection and on the one that the descriptor
`fd` gets: it has transferred bytes and is about to read `m_conn`, or it has
transferred bytes and still has the same descriptor from an older connection, or
it has the descriptor of an older connection that it can use, and more than one
byte is missing. -/
def Exposed (s : State) (fd : Nat) (t : Transfer) : Prop :=
  match t.pc with
  | .start | .chunk none => False
  | .loop => 0 < t.n
  | .chunk (some old) =>
    if old = fd then 0 < t.n
    else s.reach t.direction (some old) ≠ none ∧ t.n + 1 < t.size

/-- No connection is made while a call is exposed. -/
def Unexposed (s : State) : Act → Prop
  | .attempt true => ∀ t ∈ s.call, ∀ fd ∈ s.socket.conn, ¬ s.Exposed fd t
  | _ => True

instance (s : State) (fd : Nat) (t : Transfer) : Decidable (s.Exposed fd t) :=
  match t with
  | ⟨_, _, _, .start, _⟩ | ⟨_, _, _, .chunk none, _⟩ => inferInstanceAs (Decidable False)
  | ⟨_, _, n, .loop, _⟩ => inferInstanceAs (Decidable (0 < n))
  | ⟨direction, size, n, .chunk (some old), _⟩ =>
    inferInstanceAs (Decidable (if old = fd then 0 < n
      else s.reach direction (some old) ≠ none ∧ n + 1 < size))

instance (s : State) (a : Act) : Decidable (s.Unexposed a) :=
  match a with
  | .attempt true =>
    decidable_of_iff (s.call.all fun t => s.socket.conn.all fun fd => decide ¬ s.Exposed fd t)
      (by simp [Unexposed, Option.all_eq_true])
  | .attempt false | .disconnect | .connect .. | .socket _ | .finish .. | .transfer .. | .check
  | .read | .chunk _ => inferInstanceAs (Decidable True)

/-- The invariant of a call in progress, whose bytes so far start at a position of
a connection.  Unless the next chunk is sure to be the last one, the handle that it
has read and the handle in `m_conn` do not reach different connections. -/
structure Steady (s : State) (t : Transfer) (connection start : Nat) : Prop where
  chunks : Contiguous connection start t.chunks (start + t.n)
  empty : t.n = 0 → t.chunks = []
  position : 0 < t.n → s.position t.direction connection = start + t.n
  start : t.pc = .start → t.n = 0
  loop : t.pc = .loop → 0 < t.n → ∀ c ∈ s.reach t.direction s.socket.conn, c = connection
  chunk : ∀ conn, t.pc = .chunk conn → ∀ c ∈ s.reach t.direction conn,
    (0 < t.n → c = connection) ∧
      (t.n + 1 < t.size → ∀ c' ∈ s.reach t.direction s.socket.conn, c' = c)

/-- The invariant. -/
structure Safe (s : State) : Prop where
  returned : s.OnOneConnection
  call : ∀ t ∈ s.call, ∃ connection start, s.Steady t connection start

end State

open State

variable {s s' : State}

/-! ## Contiguous chunks -/

theorem Contiguous.append {connection start stop length : Nat} {chunks : List Chunk}
    (h : Contiguous connection start chunks stop) :
    Contiguous connection start (chunks ++ [.mk connection stop length]) (stop + length) := by
  induction chunks generalizing start with
  | nil =>
    cases h
    exact ⟨rfl, rfl, rfl⟩
  | cons chunk chunks ih =>
    obtain ⟨hconnection, hoffset, hrest⟩ := h
    exact ⟨hconnection, hoffset, ih hrest⟩

/-! ## What the steps do -/

theorem State.Steady.narrow {t : Transfer} {connection start : Nat}
    (h : s.Steady t connection start) (hnarrow : Narrows s s') :
    s'.Steady t connection start where
  chunks := h.chunks
  empty := h.empty
  position := hnarrow.position ▸ h.position
  start := h.start
  loop := fun hpc hn c hc => h.loop hpc hn c (hnarrow.conn _ c hc)
  chunk := fun conn hpc c hc => by
    obtain ⟨hsame, hnext⟩ := h.chunk conn hpc c (hnarrow.reach _ _ c hc)
    exact ⟨hsame, fun hlt c' hc' => hnext hlt c' (hnarrow.conn _ c' hc')⟩

theorem State.Safe.narrow (h : s.Safe) (hnarrow : Narrows s s') : s'.Safe where
  returned := fun t ht => h.returned t (hnarrow.log t ht)
  call := fun t ht => by
    obtain ⟨connection, start, hsteady⟩ := h.call t (hnarrow.call ▸ ht)
    exact ⟨connection, start, hsteady.narrow hnarrow⟩

/-- A connection is made that no call in progress is exposed to. -/
theorem safe_connected (h : s.Safe) {fd : Nat} (hconn : s.socket.conn = some fd)
    (hok : ∀ t ∈ s.call, ¬ s.Exposed fd t) (host : String) (port : UInt16) (addr : Addr) :
    (s.connected fd host port addr).Safe := by
  have hreach : ∀ direction conn, (s.connected fd host port addr).reach direction conn =
      if conn = some fd then some s.connections else s.reach direction conn :=
    fun _ _ => reach_update
  refine ⟨h.returned, fun t ht => ?_⟩
  obtain ⟨connection, start, hsteady⟩ := h.call t ht
  have hexposed := hok t ht
  refine ⟨connection, start, hsteady.chunks, hsteady.empty, hsteady.position, hsteady.start,
    ?_, ?_⟩
  · intro hpc hn
    rw [Exposed, hpc] at hexposed
    exact absurd hn hexposed
  · intro conn hpc c hc
    rw [Option.mem_def, hreach] at hc
    cases conn with
    | none => cases hc
    | some old =>
      rw [Exposed, hpc] at hexposed
      dsimp only at hexposed
      by_cases hold : old = fd
      · subst hold
        rw [if_pos rfl] at hc
        have hn : ¬ 0 < t.n := by simpa using hexposed
        refine ⟨fun hpos => absurd hpos hn, fun _ c' hc' => ?_⟩
        rw [Option.mem_def, hreach, show (s.connected old host port addr).socket.conn = some old
          from hconn, if_pos rfl] at hc'
        exact Option.some.inj (hc'.symm.trans hc)
      · rw [if_neg fun heq => hold (Option.some.inj heq)] at hc
        have hlast : ¬ t.n + 1 < t.size := by
          intro hlt
          apply hexposed
          rw [if_neg hold]
          exact ⟨fun hnone => Option.some_ne_none c (hc.symm.trans hnone), hlt⟩
        exact ⟨(hsteady.chunk _ hpc c hc).1, fun hlt => absurd hlt hlast⟩

/-- The call goes on with its loop, or returns. -/
theorem safe_advance (hreturned : s.OnOneConnection) {t : Transfer} {connection start : Nat}
    (hchunks : Contiguous connection start t.chunks (start + t.n))
    (hempty : t.n = 0 → t.chunks = []) (hle : t.n ≤ t.size)
    (hposition : 0 < t.n → s.position t.direction connection = start + t.n)
    (hnext : 0 < t.n → t.n < t.size → ∀ c ∈ s.reach t.direction s.socket.conn, c = connection) :
    (s.advance t).Safe := by
  unfold advance
  split
  next hlt =>
    refine ⟨hreturned, fun t' ht' => ?_⟩
    cases ht'
    exact ⟨connection, start, hchunks, hempty, hposition, nofun, fun _ hn => hnext hn hlt, nofun⟩
  next hlt =>
    refine ⟨fun t' ht' => ?_, nofun⟩
    rcases List.mem_cons.1 ht' with ht' | ht'
    · cases ht'
      have hsize : t.n = t.size := by omega
      exact ⟨connection, start, hsize ▸ hchunks⟩
    · exact hreturned t' ht'

/-- A call that throws. -/
theorem safe_ended (h : s.Safe) (hcall : s'.call = none)
    (hlog : ∀ t, Event.transferred t ∈ s'.log → Event.transferred t ∈ s.log) : s'.Safe where
  returned := fun t ht => h.returned t (hlog t ht)
  call := by
    rw [hcall]
    exact nofun

theorem safe_fail (h : s.Safe) (direction : Direction) (reason : String) :
    (s.fail direction reason).Safe := by
  have hlog := (narrows_disconnectLocked (s := s)).log
  cases direction with
  | send | recv =>
    refine safe_ended h rfl fun t ht => hlog t ?_
    simpa [fail, State.throw] using ht

theorem safe_check (h : s.Safe) {t : Transfer} (ht : s.call = some t) (hpc : t.pc = .start) :
    (s.check t).Safe := by
  obtain ⟨connection, start, hsteady⟩ := h.call t ht
  have hn : t.n = 0 := hsteady.start hpc
  unfold check
  split
  next => exact safe_ended h rfl fun t ht => by simpa [State.throw] using ht
  next =>
    refine safe_advance h.returned hsteady.chunks hsteady.empty (by omega) hsteady.position ?_
    intro hpos
    omega

theorem safe_read (h : s.Safe) {t : Transfer} (ht : s.call = some t) (hpc : t.pc = .loop) :
    Safe { s with call := some { t with pc := .chunk s.socket.conn } } := by
  obtain ⟨connection, start, hsteady⟩ := h.call t ht
  refine ⟨h.returned, fun t' ht' => ?_⟩
  cases ht'
  refine ⟨connection, start, hsteady.chunks, hsteady.empty, hsteady.position, nofun, nofun, ?_⟩
  intro conn hconn c hc
  cases hconn
  refine ⟨fun hn => hsteady.loop hpc hn c hc, fun _ c' hc' => ?_⟩
  exact Option.mem_unique hc' hc

theorem safe_transferred (h : s.Safe) {t : Transfer} (ht : s.call = some t) {conn : Option Nat}
    (hpc : t.pc = .chunk conn) {c r : Nat} (hc : s.reach t.direction conn = some c)
    (hr : 0 < r) (hle : t.n + r ≤ t.size) : (s.transferred t c r).Safe := by
  obtain ⟨connection, start, hsteady⟩ := h.call t ht
  obtain ⟨hsame, hnext⟩ := hsteady.chunk conn hpc c hc
  -- the first chunk determines the connection and the position at which the call starts
  obtain ⟨start', hchunks, hoffset⟩ : ∃ start', Contiguous c start' t.chunks (start' + t.n) ∧
      s.position t.direction c = start' + t.n := by
    by_cases hn : t.n = 0
    · rw [hsteady.empty hn, hn]
      exact ⟨s.position t.direction c, rfl, rfl⟩
    · have hpos : 0 < t.n := Nat.pos_of_ne_zero hn
      rw [hsame hpos]
      exact ⟨start, hsteady.chunks, hsteady.position hpos⟩
  refine @safe_advance _ ?_ _ c start' ?_ ?_ ?_ ?_ ?_
  · exact h.returned
  · rw [hoffset, ← Nat.add_assoc]
    exact hchunks.append
  · intro hn
    have hpos : 0 < t.n + r := Nat.add_pos_right _ hr
    exact absurd hn (Nat.ne_of_gt hpos)
  · exact hle
  · intro _
    show (Function.update s.position t.direction (Function.update (s.position t.direction) c
      (s.position t.direction c + r))) t.direction c = start' + (t.n + r)
    rw [Function.update_self, Function.update_self, hoffset, Nat.add_assoc]
  · intro _ hlt
    have hmissing : t.n + 1 < t.size := Nat.lt_of_le_of_lt (Nat.add_le_add_left hr _) hlt
    exact hnext hmissing

/-- One step keeps the invariant. -/
theorem safe_step {a : Act} (h : s.Safe) (hok : s.Unexposed a) (hstep : step s a = some s') :
    s'.Safe := by
  cases effect_of_step hstep with
  | narrow hnarrow => exact h.narrow hnarrow
  | connected fd host port addr hconn =>
    exact safe_connected h hconn (fun t ht => hok t ht fd hconn) host port addr
  | transfer direction size =>
    refine ⟨h.returned, fun t ht => ?_⟩
    cases ht
    exact ⟨0, 0, rfl, fun _ => rfl, nofun, fun _ => rfl, nofun, nofun⟩
  | check t ht hpc => exact safe_check h ht hpc
  | read t ht hpc => exact safe_read h ht hpc
  | fail direction reason => exact safe_fail h direction reason
  | transferred t conn c r ht hpc hc hr hle => exact safe_transferred h ht hpc hc hr hle

/-! ## Whole runs -/

/-- In a run in which no connection is made while a call is exposed, every call of
`send` or `recv` that returns has transferred its bytes over one connection, one
after another. -/
theorem onOneConnection_of_unexposed {linux : Bool} {s : State}
    (h : ((system linux).restrict Unexposed).Reachable s) : s.OnOneConnection := by
  have hinv : s.Safe := by
    refine h.invariant (I := Safe) ?_ ?_
    · rintro _ rfl
      exact ⟨nofun, nofun⟩
    · intro s a s' _ hs hstep
      exact safe_step hs hstep.1 hstep.2
  exact hinv.returned

/-- The socket is connected, and gets this descriptor. -/
def connectActs (fd : Nat) : List Act :=
  [.connect "localhost" 4711 (.ok [⟨false, "127.0.0.1:4711"⟩]), .socket (.ok fd),
    .attempt true, .finish "" (.ok ())]

/-- Two bytes are received in two chunks.  For the next two bytes the call has read the handle
when the socket is connected again under the same one. -/
theorem onOneConnection_of_unexposed_twice :
    ∃ s, ((system false).restrict Unexposed).Reachable s ∧
      s.log = [.transferred ⟨.recv, 2, 2, .chunk (some 3), [⟨1, 0, 1⟩, ⟨1, 1, 1⟩]⟩,
        .transferred ⟨.recv, 2, 2, .chunk (some 3), [⟨0, 0, 1⟩, ⟨0, 1, 1⟩]⟩] ∧
      s.OnOneConnection := by
  obtain ⟨s, h, hlog⟩ : ∃ s, ((system false).restrict Unexposed).Reachable s ∧
      s.log = [.transferred ⟨.recv, 2, 2, .chunk (some 3), [⟨1, 0, 1⟩, ⟨1, 1, 1⟩]⟩,
        .transferred ⟨.recv, 2, 2, .chunk (some 3), [⟨0, 0, 1⟩, ⟨0, 1, 1⟩]⟩] :=
    System.exists_reachable_restrict_of_run
      (connectActs 3 ++ [.transfer .recv 2, .check, .read, .chunk (.ok 1), .read, .chunk (.ok 1),
          .transfer .recv 2, .check, .read] ++
        connectActs 3 ++ [.chunk (.ok 1), .read, .chunk (.ok 1)]) (by decide +kernel)
  exact ⟨s, h, hlog, onOneConnection_of_unexposed h⟩

theorem Contiguous.connection_eq {connection start stop : Nat} {chunks : List Chunk}
    (h : Contiguous connection start chunks stop) {chunk : Chunk} (hmem : chunk ∈ chunks) :
    chunk.connection = connection := by
  induction chunks generalizing start with
  | nil => cases hmem
  | cons head chunks ih =>
    rcases List.mem_cons.1 hmem with rfl | hmem
    · exact h.1
    · exact ih h.2.2 hmem

/-- The socket is connected again between two chunks, and `recv` returns with the
first byte from the old connection and the second one from the new one. -/
theorem received_from_two :
    ∃ s, (system true).Reachable s ∧
      s.log = [.transferred ⟨.recv, 2, 2, .chunk (some 4), [⟨0, 0, 1⟩, ⟨1, 0, 1⟩]⟩] ∧
      ¬ s.OnOneConnection := by
  obtain ⟨s, h, hlog⟩ : ∃ s, (system true).Reachable s ∧
      s.log = [.transferred ⟨.recv, 2, 2, .chunk (some 4), [⟨0, 0, 1⟩, ⟨1, 0, 1⟩]⟩] :=
    System.exists_reachable_of_run
      (connectActs 3 ++ [.transfer .recv 2, .check, .read, .chunk (.ok 1)] ++ connectActs 4 ++
        [.read, .chunk (.ok 1)]) (by decide +kernel)
  refine ⟨s, h, hlog, fun hone => ?_⟩
  obtain ⟨connection, start, hchunks⟩ := hone _ (by rw [hlog]; exact List.mem_cons_self)
  have hfirst : 0 = connection := hchunks.connection_eq List.mem_cons_self
  have hsecond : 1 = connection :=
    hchunks.connection_eq (List.mem_cons_of_mem _ List.mem_cons_self)
  omega

end Mwr.ClientSocket
