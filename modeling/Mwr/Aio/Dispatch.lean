import Mwr.Aio.Win32

/-!
# The handle that has been signalled

`WaitForMultipleObjects` waits for the handles of one chunk, and its result `k` is
an index into this chunk.  `aio_thread` takes it as an index into all of `polls`.

* `Dispatches` says that the thread schedules the handler of `polls[i + k]`, and
  that the handles behind the chunk do not matter.
* `dispatch_eq` says what it schedules.
* `dispatches_iff` compares the two.
-/

namespace Mwr.Aio.Win32

open Mwr.CodeLib.Transition

variable {H : Type}

/-- The handlers that the thread is going to call. -/
def Pc.scheduled : Pc H → List (Info H)
  | .failed _ _ scheduled | .reaping _ _ scheduled | .timeout _ _ scheduled
  | .closing _ scheduled | .invoke _ scheduled | .handler _ scheduled => scheduled
  | _ => []

namespace State

/-- The number of handles in the chunk at `i`. -/
def num (s : State H) (i : Nat) : Nat := min (s.polls.length - i) MAXIMUM_WAIT_OBJECTS

/-- What is registered for `polls[j]`. -/
def registered (s : State H) (j : Nat) : Option (Info H) :=
  s.handlers.lookup (s.polls.getD j 0)

/-- The thread, which holds the mutex to look at the handle that has been signalled,
calls `fd_peek` for its descriptor and schedules its handler. -/
def dispatch (mingw : Bool) (s : State H) (ret : UInt32) (fdPeek : Int → Bool) :
    Option (List (Info H)) :=
  (step mingw s (.peek ((s.registered ret.toNat).any fun info => fdPeek info.fd))).map
    fun s => s.pc.scheduled

/-- The thread schedules the handler of the handle with the index `k` in the chunk
at `i`, if its descriptor has data, and no handle behind the chunk matters. -/
structure Dispatches (mingw : Bool) (s : State H) (i : Nat) (ret : UInt32) : Prop where
  handler : ∀ fdPeek, s.dispatch mingw ret fdPeek =
    some ((s.registered (i + ret.toNat)).toList.filter fun info => fdPeek info.fd)
  chunk : ∀ rest fdPeek,
    dispatch mingw { s with polls := s.polls.take (i + s.num i) ++ rest } ret fdPeek =
      s.dispatch mingw ret fdPeek

end State

open State

variable {mingw : Bool} {s : State H} {i : Nat} {ret : UInt32}

/-- The thread schedules the handler of `polls[ret]`. -/
theorem dispatch_eq (hpc : s.pc = .peeking i ret) (fdPeek : Int → Bool) :
    s.dispatch mingw ret fdPeek =
      some ((s.registered ret.toNat).toList.filter fun info => fdPeek info.fd) := by
  simp only [State.dispatch, step, State.peek, hpc]
  rw [← State.registered]
  cases hinfo : s.registered ret.toNat with
  | none => rfl
  | some info =>
    rw [Option.any_some, Option.toList_some, List.filter_singleton]
    cases fdPeek info.fd <;> rfl

/-- The handle is in front of the end of the chunk. -/
theorem dispatch_take (hpc : s.pc = .peeking i ret) (hret : ret.toNat < s.num i)
    (rest : List Handle) (fdPeek : Int → Bool) :
    dispatch mingw { s with polls := s.polls.take (i + s.num i) ++ rest } ret fdPeek =
      s.dispatch mingw ret fdPeek := by
  let s' : State H := { s with polls := s.polls.take (i + s.num i) ++ rest }
  have hpc' : s'.pc = .peeking i ret := hpc
  have hindex : s'.polls[ret.toNat]? = s.polls[ret.toNat]? := by
    have hlength : s.num i ≤ s.polls.length := by
      rw [State.num]
      omega
    have htake : ret.toNat < (s.polls.take (i + s.num i)).length := by
      rw [List.length_take]
      omega
    show (s.polls.take (i + s.num i) ++ rest)[ret.toNat]? = _
    rw [List.getElem?_append_left htake, List.getElem?_take_of_lt (by omega)]
  have hregistered : s'.registered ret.toNat = s.registered ret.toNat := by
    show s.handlers.lookup (s'.polls.getD _ _) = s.handlers.lookup (s.polls.getD _ _)
    rw [List.getD_eq_getElem?_getD, List.getD_eq_getElem?_getD, hindex]
  show s'.dispatch mingw ret fdPeek = _
  rw [dispatch_eq hpc', dispatch_eq hpc, hregistered]

/-- The handler of `polls[i + k]` is scheduled in the first chunk, and where
`polls[k]` has the same registration. -/
theorem dispatches_iff {s : State H} {i : Nat} {ret : UInt32} (hpc : s.pc = .peeking i ret)
    (hret : ret.toNat < s.num i) :
    s.Dispatches mingw i ret ↔
      i = 0 ∨ s.registered ret.toNat = s.registered (i + ret.toNat) := by
  have hiff : s.Dispatches mingw i ret ↔
      s.registered ret.toNat = s.registered (i + ret.toNat) := by
    constructor
    · intro h
      have hdata := h.handler fun _ => true
      rw [dispatch_eq hpc, Option.some.injEq, List.filter_true, List.filter_true] at hdata
      refine Option.ext fun info => ?_
      rw [← Option.mem_toList, hdata, Option.mem_toList]
    · intro h
      refine ⟨fun fdPeek => ?_, dispatch_take hpc hret⟩
      rw [dispatch_eq hpc, h]
  rw [hiff]
  constructor
  · exact .inr
  · rintro (rfl | h)
    · rw [Nat.zero_add]
    · exact h

/-- The calls of `notify` for the descriptors below `n`, whose handles are one
larger. -/
def notifyActs (n : Nat) : List (Act Nat) :=
  (List.range n).flatMap fun j : Nat => callActs .other (.notify j j) (j + 1)

/-- The thread waits for the first chunk in vain, and goes on to the second one. -/
def secondChunk : List (Act Nat) :=
  [.wait STATUS_TIMEOUT, .work, .work, .work, .work, .work, .work]

/-- There are 65 handles, and the last one is for the descriptor and the handler of the first
one. -/
theorem dispatches_iff_later :
    ∃ s, (system false Nat).Reachable s ∧ s.pc = .peeking 64 0 ∧ s.Dispatches false 64 0 := by
  obtain ⟨s, hs, hpc, hnum, hsame⟩ : ∃ s, (system false Nat).Reachable s ∧
      s.pc = .peeking 64 0 ∧ 0 < s.num 64 ∧ s.registered 0 = s.registered (64 + 0) :=
    System.exists_reachable_of_run
      (notifyActs 64 ++ callActs .other (.notify 0 0) 65 ++ waitActs (List.range' 1 65) ++
        secondChunk ++ [.wait 0, .work, .work])
      (by decide +kernel)
  exact ⟨s, hs, hpc, (dispatches_iff hpc hnum).2 (.inr hsame)⟩

/-- There are 65 handles.  The last one is signalled, which is the first one of its
chunk, and the thread schedules the handler of the first handle of all. -/
theorem wrong_handler :
    ∃ s, (system false Nat).Reachable s ∧ s.pc = .peeking 64 0 ∧ 0 < s.num 64 ∧
      s.dispatch false 0 (fun _ => true) = some [⟨0, 0⟩] ∧ s.registered (64 + 0) = some ⟨64, 64⟩ ∧
      ¬ s.Dispatches false 64 0 := by
  obtain ⟨s, hs, hpc, hnum, hfirst, hlast⟩ : ∃ s, (system false Nat).Reachable s ∧
      s.pc = .peeking 64 0 ∧ 0 < s.num 64 ∧ s.registered 0 = some ⟨0, 0⟩ ∧
      s.registered (64 + 0) = some ⟨64, 64⟩ :=
    System.exists_reachable_of_run
      (notifyActs 65 ++ waitActs (List.range' 1 65) ++ secondChunk ++ [.wait 0, .work, .work])
      (by decide +kernel)
  have hdispatch : s.dispatch false 0 (fun _ => true) = some [⟨0, 0⟩] := by
    rw [dispatch_eq hpc]
    show some ((s.registered 0).toList.filter _) = _
    rw [hfirst]
    rfl
  refine ⟨s, hs, hpc, hnum, hdispatch, hlast, fun h => ?_⟩
  have hhandler := h.handler fun _ => true
  rw [hdispatch] at hhandler
  change _ = some ((s.registered (64 + 0)).toList.filter _) at hhandler
  rw [hlast] at hhandler
  cases hhandler

end Mwr.Aio.Win32
