import Mwr.ClientSocket.Transfer

/-!
# Split transfers

The condition of `Mwr.ClientSocket.Transfer` is exact: if a connection is made while a
call of `send` or `recv` is exposed, the run can go on so that the call returns with
bytes on the old and on the new connection.

* `Numbered` is the invariant that makes the new connection different from all others.
* `splits_of_exposed` is the result.
-/

namespace Mwr.ClientSocket

open Mwr.CodeLib.Transition

variable {s s' : State} {t : Transfer}

namespace State

/-- Connections have numbers below the next one, and a call in progress that has checked
the connection has bytes left to transfer. -/
structure Numbered (s : State) : Prop where
  reach : ∀ direction conn c, s.reach direction conn = some c → c < s.connections
  chunks : ∀ t ∈ s.call, ∀ chunk ∈ t.chunks, chunk.connection < s.connections
  nonempty : ∀ t ∈ s.call, 0 < t.n → t.chunks ≠ []
  missing : ∀ t ∈ s.call, t.pc ≠ .start → t.n < t.size

/-- The run can go on to a call that returns with bytes on two connections. -/
def Splits (s : State) : Prop :=
  ∃ acts s', System.run step s acts = some s' ∧ ¬ s'.OnOneConnection

end State

open State

/-! ## The numbers of the connections -/

theorem numbered_of_ended (hreach : ∀ direction conn c, s.reach direction conn = some c →
    c < s.connections) (hcall : s.call = none) : s.Numbered := by
  refine ⟨hreach, ?_, ?_, ?_⟩ <;> rw [hcall] <;> exact nofun

theorem numbered_advance
    (hreach : ∀ direction conn c, s.reach direction conn = some c → c < s.connections)
    (hchunks : ∀ chunk ∈ t.chunks, chunk.connection < s.connections)
    (hnonempty : 0 < t.n → t.chunks ≠ []) : (s.advance t).Numbered := by
  unfold advance
  split
  next hlt =>
    refine ⟨hreach, fun t' ht' => ?_, fun t' ht' => ?_, fun t' ht' _ => ?_⟩ <;> cases ht'
    · exact hchunks
    · exact hnonempty
    · exact hlt
  next => exact numbered_of_ended hreach rfl

theorem numbered_step {a : Act} (h : s.Numbered) (hstep : step s a = some s') : s'.Numbered := by
  cases effect_of_step hstep with
  | narrow hnarrow =>
    obtain ⟨hcall, hconnections, -, -, hreach, -⟩ := hnarrow
    refine ⟨?_, ?_, ?_, ?_⟩
    · intro direction conn c hc
      rw [hconnections]
      exact h.reach _ _ _ (hreach _ _ _ hc)
    · rw [hcall, hconnections]
      exact h.chunks
    · rw [hcall]
      exact h.nonempty
    · rw [hcall]
      exact h.missing
  | connected fd host port addr hconn =>
    refine ⟨fun direction conn c hc => ?_, fun t ht chunk hchunk => ?_, h.nonempty, h.missing⟩
    · change State.reach { s with
        descs := Function.update s.descs fd (.connected s.connections) } _ _ = _ at hc
      rw [reach_update] at hc
      split at hc
      next =>
        cases hc
        exact Nat.lt_succ_self _
      next => exact Nat.lt_succ_of_lt (h.reach _ _ _ hc)
    · exact Nat.lt_succ_of_lt (h.chunks t ht chunk hchunk)
  | transfer direction size =>
    refine ⟨h.reach, fun t ht => ?_, fun t ht => ?_, fun t ht => ?_⟩ <;> cases ht
    · exact nofun
    · exact nofun
    · exact fun hpc => absurd rfl hpc
  | check t ht hpc =>
    unfold check
    split
    next => exact numbered_of_ended h.reach rfl
    next => exact numbered_advance h.reach (h.chunks t ht) (h.nonempty t ht)
  | read t ht hpc =>
    refine ⟨h.reach, fun t' ht' => ?_, fun t' ht' => ?_, fun t' ht' _ => ?_⟩ <;> cases ht'
    · exact h.chunks t ht
    · exact h.nonempty t ht
    · exact h.missing t ht (hpc ▸ nofun)
  | fail direction reason =>
    have hnarrow := narrows_disconnectLocked (s := s)
    have hreach : ∀ direction conn c, s.disconnectLocked.reach direction conn = some c →
        c < s.disconnectLocked.connections := fun direction conn c hc => by
      rw [hnarrow.connections]
      exact h.reach _ _ _ (hnarrow.reach _ _ _ hc)
    cases direction with
    | send | recv => exact numbered_of_ended hreach rfl
  | transferred t conn c r ht hpc hc hr hle =>
    refine numbered_advance h.reach (fun chunk hchunk => ?_) fun _ => ?_
    · rcases List.mem_append.1 hchunk with hchunk | hchunk
      · exact h.chunks t ht chunk hchunk
      · cases List.mem_singleton.1 hchunk
        exact h.reach _ _ _ hc
    · exact List.append_ne_nil_of_right_ne_nil _ (List.cons_ne_nil _ _)

theorem numbered {linux : Bool} (h : (system linux).Reachable s) : s.Numbered := by
  refine h.invariant (I := Numbered) ?_ ?_
  · rintro _ rfl
    refine numbered_of_ended (fun direction conn c hc => ?_) rfl
    cases conn <;> cases hc
  · intro s a s' _ hs hstep
    exact numbered_step hs hstep

/-! ## How a run goes on -/

theorem State.Splits.head {a : Act} (h : s'.Splits) (hstep : step s a = some s') : s.Splits := by
  obtain ⟨acts, s'', hrun, hsplit⟩ := h
  refine ⟨a :: acts, s'', ?_, hsplit⟩
  rw [System.run, hstep]
  exact hrun

theorem step_chunk {conn : Option Nat} {c r : Nat} (ht : s.call = some t)
    (hpc : t.pc = .chunk conn) (hc : s.reach t.direction conn = some c) (hr : 0 < r)
    (hle : t.n + r ≤ t.size) : step s (.chunk (.ok r)) = some (s.transferred t c r) := by
  obtain ⟨r, rfl⟩ := Nat.exists_eq_add_one.2 hr
  rw [State.reach] at hc
  simp only [step, ht, hpc, hc, if_pos hle]

/-- A call that has a chunk on one connection, and transfers the rest over another. -/
theorem splits_of_chunk {conn : Option Nat} {c : Nat} (ht : s.call = some t)
    (hpc : t.pc = .chunk conn) (hc : s.reach t.direction conn = some c) (hlt : t.n < t.size)
    {chunk : Chunk} (hmem : chunk ∈ t.chunks) (hne : chunk.connection ≠ c) : s.Splits := by
  have hstep : step s (.chunk (.ok (t.size - t.n))) =
      some (s.transferred t c (t.size - t.n)) := step_chunk ht hpc hc (by omega) (by omega)
  refine ⟨[.chunk (.ok (t.size - t.n))], s.transferred t c (t.size - t.n), ?_, fun hone => ?_⟩
  · rw [System.run, hstep]
    rfl
  · have hlog : Event.transferred { t with
        n := t.n + (t.size - t.n)
        chunks := t.chunks ++ [.mk c (s.position t.direction c) (t.size - t.n)] } ∈
        (s.transferred t c (t.size - t.n)).log := by
      have hend : ¬ t.n + (t.size - t.n) < t.size := by omega
      simp [transferred, advance, hend]
    obtain ⟨connection, start, hchunks⟩ := hone _ hlog
    have hold := hchunks.connection_eq (List.mem_append_left _ hmem)
    have hnew := hchunks.connection_eq (List.mem_append_right _ List.mem_cons_self)
    exact hne (hold.trans hnew.symm)

/-- The connection has been made, and the call is about to read `m_conn`. -/
theorem splits_of_loop {c : Nat} (hconnecting : s.connecting = some .finish)
    (ht : s.call = some t) (hpc : t.pc = .loop)
    (hc : s.reach t.direction s.socket.conn = some c) (hlt : t.n < t.size)
    {chunk : Chunk} (hmem : chunk ∈ t.chunks) (hne : chunk.connection ≠ c) : s.Splits := by
  have hfinish : step s (.finish "" (.ok ())) = some (s.finish "" (.ok ())) := by
    simp only [step, hconnecting]
  refine State.Splits.head ?_ hfinish
  obtain ⟨log, hlog⟩ : ∃ log, s.finish "" (.ok ()) = { s with connecting := none, log := log } := by
    unfold finish
    dsimp only
    split
    next => exact ⟨_, rfl⟩
    next => exact ⟨_, rfl⟩
  rw [hlog]
  have hread : step { s with connecting := none, log := log } .read =
      some { s with
        connecting := none
        log := log
        call := some { t with pc := .chunk s.socket.conn } } := by
    simp [step, ht, hpc]
  refine State.Splits.head ?_ hread
  exact splits_of_chunk rfl rfl hc hlt hmem hne

theorem exposed_of_not_unexposed {a : Act} (h : ¬ s.Unexposed a) :
    a = .attempt true ∧ ∃ t ∈ s.call, ∃ fd ∈ s.socket.conn, s.Exposed fd t := by
  cases a with
  | attempt success =>
    cases success with
    | true => simpa [Unexposed] using h
    | false => exact absurd trivial h
  | _ => exact absurd trivial h

/-- If a connection is made while a call is exposed, the run can go on so that the
call returns with bytes on two connections. -/
theorem splits_of_exposed {linux : Bool} {a : Act} (h : (system linux).Reachable s)
    (hexposed : ¬ s.Unexposed a) (hstep : step s a = some s') : s'.Splits := by
  have hnumbered := numbered h
  obtain ⟨rfl, t, ht, fd, hfd, hexposed⟩ := exposed_of_not_unexposed hexposed
  obtain ⟨fd', host, port, addr, hconn, rfl⟩ := connected_of_step hstep
  cases Option.mem_unique hfd hconn
  have hreach : ∀ conn, (s.connected fd host port addr).reach t.direction conn =
      if conn = some fd then some s.connections else s.reach t.direction conn :=
    fun _ => reach_update
  have hnew : (s.connected fd host port addr).reach t.direction
      (s.connected fd host port addr).socket.conn = some s.connections := by
    show State.reach _ _ s.socket.conn = _
    rw [hreach, if_pos hconn]
  have hold : ∀ chunk ∈ t.chunks, chunk.connection ≠ s.connections :=
    fun chunk hchunk => Nat.ne_of_lt (hnumbered.chunks t ht chunk hchunk)
  cases hpc : t.pc with
  | start =>
    rw [Exposed, hpc] at hexposed
    exact hexposed.elim
  | loop =>
    rw [Exposed, hpc] at hexposed
    obtain ⟨chunk, hmem⟩ := List.exists_mem_of_ne_nil _ (hnumbered.nonempty t ht hexposed)
    have hlt := hnumbered.missing t ht (by simp [hpc])
    exact splits_of_loop rfl ht hpc hnew hlt hmem (hold chunk hmem)
  | chunk conn =>
    have hlt := hnumbered.missing t ht (by simp [hpc])
    rw [Exposed, hpc] at hexposed
    cases conn with
    | none => exact hexposed.elim
    | some old =>
      dsimp only at hexposed
      by_cases heq : old = fd
      · subst heq
        rw [if_pos rfl] at hexposed
        obtain ⟨chunk, hmem⟩ := List.exists_mem_of_ne_nil _ (hnumbered.nonempty t ht hexposed)
        exact splits_of_chunk ht hpc (hconn ▸ hnew) hlt hmem (hold chunk hmem)
      · rw [if_neg heq] at hexposed
        obtain ⟨husable, hmissing⟩ := hexposed
        obtain ⟨c, hc⟩ := Option.ne_none_iff_exists'.1 husable
        have hc' : (s.connected fd host port addr).reach t.direction (some old) = some c := by
          rw [hreach, if_neg fun h => heq (Option.some.inj h), hc]
        -- one more byte on the old connection, and the rest on the new one
        refine State.Splits.head ?_ (step_chunk ht hpc hc' Nat.one_pos (Nat.le_of_lt hmissing))
        unfold transferred advance
        dsimp only
        rw [if_pos hmissing]
        exact splits_of_loop rfl rfl rfl hnew hmissing
          (List.mem_append_right _ List.mem_cons_self)
          (Nat.ne_of_lt (hnumbered.reach _ _ _ hc))

end Mwr.ClientSocket
