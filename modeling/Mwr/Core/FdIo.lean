import Mathlib.Algebra.Ring.Nat
import Mwr.CodeLib.Loop
import Mwr.CodeLib.Memory

/-!
# Reading from and writing to descriptors

A translation of `fd_read` and `fd_write` of `src/mwr/core/utils.cpp`.  The results of the
system calls are a parameter, and every run may have different ones.  On Windows, `fd_read` does
not call `read` for a console but takes one event of it (`msvcReadConsole`).

* `transfer` has the two loops that both functions consist of.  `transfer_iff` reduces them to
  the single loop of `callOnce`, one round for each system call.
* `Moved` is what a transfer does, and `moved_of_returns` says that it does it.  The
  invariant of the rounds is `Progress`.
* `returns_of_frequently` is the termination: a transfer ends, unless all calls are interrupted
  from some point on.
* `fdRead_fdWrite_complete` is the result for the two functions.
-/

namespace Mwr.FdIo

open Mwr.CodeLib
open Mwr.CodeLib.Loop

/-- The systems that the functions are written for. -/
inductive Platform where
  | posix
  /-- `MWR_MSVC`. -/
  | msvc
  deriving DecidableEq, Repr

/-- What the system makes of a call. -/
inductive Outcome where
  /-- At most `n` bytes are transferred.  `0` is the end of the file. -/
  | count (n : Nat)
  /-- The call fails with `EINTR`. -/
  | eintr
  /-- The call fails with another error. -/
  | error
  deriving DecidableEq, Repr

/-- What a transfer depends on and changes. -/
structure World (δ : Type) where
  /-- The number of system calls so far. -/
  calls : Nat
  /-- `errno == EINTR`. -/
  eintr : Bool
  data : δ

variable {δ : Type}

/-! ## The code -/

/-- `U32_MAX`. -/
def u32Max : Nat := 2 ^ 32 - 1

/-- The number of bytes that a call asks for when `rest` are missing. -/
def Platform.request (platform : Platform) (rest : Nat) : Nat :=
  match platform with
  | .posix => rest
  | .msvc => min rest u32Max

/-- `read` or `write` of `request` bytes at `ptr`, which does `move` with the bytes. -/
def sysCall (outcomes : Nat → Outcome) (move : Nat → Nat → δ → δ) (ptr request : Nat)
    (w : World δ) : Int × World δ :=
  match outcomes w.calls with
  | .count n =>
    ((min n request : Nat), ⟨w.calls + 1, w.eintr, move ptr (min n request) w.data⟩)
  | .eintr => (-1, ⟨w.calls + 1, true, w.data⟩)
  | .error => (-1, ⟨w.calls + 1, false, w.data⟩)

/-- The inner loop, `do len = call(); while (len < 0 && errno == EINTR)`. -/
def retry (call : World δ → Int × World δ) (w : World δ) : Round (World δ) (Int × World δ) :=
  if (call w).1 < 0 ∧ (call w).2.eintr then .next (call w).2 else .done (call w)

/-- The outer loop, `while (done < buflen)`. -/
def transfer (platform : Platform) (call : Nat → Nat → World δ → Int × World δ)
    (ptr buflen : Nat) : Nat → Nat → World δ → Option (Nat × World δ)
  | 0, _, _ => none
  | fuel + 1, done, w =>
    if done < buflen then do
      let (len, w) ←
        run (retry (call (ptr + done) (platform.request (buflen - done)))) fuel w
      if len ≤ 0 then some (done, w)
      else transfer platform call ptr buflen fuel (done + len.toNat) w
    else some (done, w)

/-- The memory and the number of bytes taken from the stream. -/
structure Input where
  mem : Memory
  pos : Nat
  /-- `static char data` of `msvc_read_console`. -/
  key : UInt8

/-- The next bytes of the stream go to `ptr`. -/
def receive (stream : Nat → UInt8) (ptr len : Nat) (d : Input) : Input where
  mem := Memory.overlay d.mem ptr (Memory.window stream d.pos len)
  pos := d.pos + len
  key := d.key

/-- `STDIN_FDNO`. -/
def stdinFdno : Int := 0

/-- What a console answers: what `getchar` returns, as a `char`, and the character of the event
that `ReadConsoleInput` returns, if there is one and it is that of a key which goes down. -/
structure Console where
  getchar : UInt8
  event : Option UInt8

/-- `msvc_read_console(buf, len)`. -/
def msvcReadConsole (console : Console) (buf : Nat) (d : Input) : Nat × Input :=
  -- behind a ctrl-a
  if d.key = 1 then
    (1, { d with mem := Memory.overlay d.mem buf [console.getchar], key := console.getchar })
  else
    match console.event with
    | none => (0, d)
    | some ch => (1, { d with mem := Memory.overlay d.mem buf [ch], key := ch })

/-- The console that `fd_read` takes its character from, if `fd` is one. -/
def readsConsole (platform : Platform) (fd : Int) (console : Option Console) : Option Console :=
  if platform = .msvc ∧ fd = stdinFdno then console else none

/-- `fd_read(fd, buffer, buflen)`.  A null pointer is `0`, and there is a console if
`_isatty(STDIN_FDNO)`. -/
def fdRead (platform : Platform) (console : Option Console) (outcomes : Nat → Outcome)
    (stream : Nat → UInt8) (fd : Int) (buffer buflen fuel : Nat) (w : World Input) :
    Option (Nat × World Input) :=
  if fd < 0 ∨ buffer = 0 ∨ buflen = 0 then some (0, w)
  else
    match readsConsole platform fd console with
    | some console =>
      let (n, data) := msvcReadConsole console buffer w.data
      some (n, { w with data })
    | none => transfer platform (sysCall outcomes (receive stream)) buffer buflen fuel 0 w

/-- The memory and the bytes that have been handed over. -/
structure Output where
  mem : Memory
  sent : Bytes

/-- The bytes at `ptr` are handed over. -/
def send (ptr len : Nat) (d : Output) : Output :=
  ⟨d.mem, d.sent ++ Memory.window d.mem ptr len⟩

/-- `fd_write(fd, buffer, buflen)`. -/
def fdWrite (platform : Platform) (outcomes : Nat → Outcome) (fd : Int)
    (buffer buflen fuel : Nat) (w : World Output) : Option (Nat × World Output) :=
  if fd < 0 ∨ buffer = 0 ∨ buflen = 0 then some (0, w)
  else transfer platform (sysCall outcomes send) buffer buflen fuel 0 w

/-! ## One round for each call -/

/-- Both loops in one.  A call that is interrupted is made again in the next round. -/
def callOnce (platform : Platform) (call : Nat → Nat → World δ → Int × World δ)
    (ptr buflen : Nat) (s : Nat × World δ) : Round (Nat × World δ) (Nat × World δ) :=
  if s.1 < buflen then
    let res := call (ptr + s.1) (platform.request (buflen - s.1)) s.2
    if res.1 < 0 ∧ res.2.eintr then .next (s.1, res.2)
    else if res.1 ≤ 0 then .done (s.1, res.2)
    else .next (s.1 + res.1.toNat, res.2)
  else .done s

section Loops

variable {platform : Platform} {call : Nat → Nat → World δ → Int × World δ}
variable {ptr buflen done : Nat} {len : Int} {w w' : World δ} {r : Nat × World δ}

theorem callOnce_of_full (h : ¬ done < buflen) :
    callOnce platform call ptr buflen (done, w) = .done (done, w) := if_neg h

theorem callOnce_of_interrupted (hlt : done < buflen)
    (hcall : call (ptr + done) (platform.request (buflen - done)) w = (len, w'))
    (hint : len < 0 ∧ w'.eintr) :
    callOnce platform call ptr buflen (done, w) = .next (done, w') := by
  simp only [callOnce, if_pos hlt, hcall, if_pos hint]

theorem callOnce_of_stopped (hlt : done < buflen)
    (hcall : call (ptr + done) (platform.request (buflen - done)) w = (len, w'))
    (hint : ¬ (len < 0 ∧ w'.eintr)) (hle : len ≤ 0) :
    callOnce platform call ptr buflen (done, w) = .done (done, w') := by
  simp only [callOnce, if_pos hlt, hcall, if_neg hint, if_pos hle]

theorem callOnce_of_count (hlt : done < buflen)
    (hcall : call (ptr + done) (platform.request (buflen - done)) w = (len, w'))
    (hle : ¬ len ≤ 0) :
    callOnce platform call ptr buflen (done, w) = .next (done + len.toNat, w') := by
  simp only [callOnce, if_pos hlt, hcall, if_neg hle,
    if_neg (show ¬ (len < 0 ∧ w'.eintr) from fun h => hle (Int.le_of_lt h.1))]

/-- More fuel does not change a result. -/
theorem transfer_succ {fuel : Nat} (h : transfer platform call ptr buflen fuel done w = some r) :
    transfer platform call ptr buflen (fuel + 1) done w = some r := by
  induction fuel generalizing done w with
  | zero => cases h
  | succ fuel ih =>
    rw [transfer] at h ⊢
    split at h
    next hlt =>
      rw [if_pos hlt]
      obtain ⟨⟨len, w'⟩, hretry, h⟩ := Option.bind_eq_some_iff.1 h
      rw [run_succ hretry]
      dsimp only [Option.bind_eq_bind, Option.bind_some] at h ⊢
      split at h
      next hle => rw [if_pos hle, h]
      next hle => rw [if_neg hle, ih h]
    next hge => rw [if_neg hge, h]

/-- The inner loop, as rounds of the single loop. -/
theorem returns_of_retry {fuel : Nat} (hlt : done < buflen)
    (h : run (retry (call (ptr + done) (platform.request (buflen - done)))) fuel w =
      some (len, w'))
    (hend : len ≤ 0 → r = (done, w'))
    (hmore : ¬ len ≤ 0 → Returns (callOnce platform call ptr buflen) (done + len.toNat, w') r) :
    Returns (callOnce platform call ptr buflen) (done, w) r := by
  induction fuel generalizing w with
  | zero => cases h
  | succ fuel ih =>
    rcases hcall : call (ptr + done) (platform.request (buflen - done)) w with ⟨len₁, w₁⟩
    by_cases hint : len₁ < 0 ∧ w₁.eintr
    · have hretry : retry (call (ptr + done) (platform.request (buflen - done))) w = .next w₁ := by
        simp only [retry, hcall, if_pos hint]
      rw [run_succ_of_next hretry] at h
      exact returns_of_next (callOnce_of_interrupted hlt hcall hint) (ih h)
    · have hretry : retry (call (ptr + done) (platform.request (buflen - done))) w =
          .done (len₁, w₁) := by
        simp only [retry, hcall, if_neg hint]
      rw [run_succ_of_done hretry] at h
      obtain ⟨rfl, rfl⟩ := Prod.mk.inj (Option.some.inj h)
      by_cases hle : len₁ ≤ 0
      · rw [hend hle]
        exact returns_of_done (callOnce_of_stopped hlt hcall hint hle)
      · exact returns_of_next (callOnce_of_count hlt hcall hle) (hmore hle)

theorem returns_of_transfer {fuel : Nat}
    (h : transfer platform call ptr buflen fuel done w = some r) :
    Returns (callOnce platform call ptr buflen) (done, w) r := by
  induction fuel generalizing done w with
  | zero => cases h
  | succ fuel ih =>
    rw [transfer] at h
    split at h
    next hlt =>
      obtain ⟨⟨len, w'⟩, hretry, h⟩ := Option.bind_eq_some_iff.1 h
      dsimp only at h
      refine returns_of_retry hlt hretry (fun hle => ?_) (fun hle => ?_)
      · rw [if_pos hle] at h
        exact (Option.some.inj h).symm
      · rw [if_neg hle] at h
        exact ih h
    next hge =>
      rw [← Option.some.inj h]
      exact returns_of_done (callOnce_of_full hge)

/-- The round that makes a call again belongs to the inner loop. -/
theorem transfer_of_interrupted {fuel : Nat} (hlt : done < buflen)
    (hcall : call (ptr + done) (platform.request (buflen - done)) w = (len, w'))
    (hint : len < 0 ∧ w'.eintr)
    (h : transfer platform call ptr buflen fuel done w' = some r) :
    transfer platform call ptr buflen (fuel + 1) done w = some r := by
  have hretry : retry (call (ptr + done) (platform.request (buflen - done))) w = .next w' := by
    simp only [retry, hcall, if_pos hint]
  cases fuel with
  | zero => cases h
  | succ fuel =>
    have hmore := transfer_succ h
    rw [transfer, if_pos hlt] at h hmore ⊢
    obtain ⟨res, hres, h⟩ := Option.bind_eq_some_iff.1 h
    rw [run_succ_of_next hretry, hres]
    rwa [run_succ hres] at hmore

theorem transfer_of_returns
    (h : Returns (callOnce platform call ptr buflen) (done, w) r) :
    ∃ fuel, transfer platform call ptr buflen fuel done w = some r := by
  obtain ⟨fuel, h⟩ := h
  induction fuel generalizing done w with
  | zero => cases h
  | succ fuel ih =>
    by_cases hlt : done < buflen
    · rcases hcall : call (ptr + done) (platform.request (buflen - done)) w with ⟨len, w'⟩
      by_cases hint : len < 0 ∧ w'.eintr
      · rw [run_succ_of_next (callOnce_of_interrupted hlt hcall hint)] at h
        obtain ⟨more, hmore⟩ := ih h
        exact ⟨more + 1, transfer_of_interrupted hlt hcall hint hmore⟩
      · have hretry : retry (call (ptr + done) (platform.request (buflen - done))) w =
            .done (len, w') := by
          simp only [retry, hcall, if_neg hint]
        by_cases hle : len ≤ 0
        · rw [run_succ_of_done (callOnce_of_stopped hlt hcall hint hle)] at h
          refine ⟨2, ?_⟩
          rw [transfer, if_pos hlt, run_succ_of_done hretry, Option.bind_eq_bind, Option.bind_some]
          dsimp only
          rw [if_pos hle, h]
        · rw [run_succ_of_next (callOnce_of_count hlt hcall hle)] at h
          obtain ⟨more, hmore⟩ := ih h
          refine ⟨more + 2, ?_⟩
          rw [transfer, if_pos hlt, run_succ_of_done hretry, Option.bind_eq_bind, Option.bind_some]
          dsimp only
          rw [if_neg hle, transfer_succ hmore]
    · rw [run_succ_of_done (callOnce_of_full hlt)] at h
      exact ⟨1, by rw [transfer, if_neg hlt, h]⟩

/-- The two loops do what the single loop does. -/
theorem transfer_iff :
    (∃ fuel, transfer platform call ptr buflen fuel done w = some r) ↔
      Returns (callOnce platform call ptr buflen) (done, w) r :=
  ⟨fun ⟨_, h⟩ => returns_of_transfer h, transfer_of_returns⟩

/-- A transfer that is left out if there is nothing to transfer. -/
theorem guarded_iff {empty : Prop} [Decidable empty] (hempty : empty ↔ buflen = 0) :
    (∃ fuel, (if empty then some (0, w) else transfer platform call ptr buflen fuel 0 w) =
        some r) ↔ Returns (callOnce platform call ptr buflen) (0, w) r := by
  by_cases hlen : buflen = 0
  · subst hlen
    have hfull : Returns (callOnce platform call ptr 0) (0, w) (0, w) :=
      returns_of_done (callOnce_of_full (Nat.lt_irrefl 0))
    simp only [if_pos (hempty.2 rfl), Option.some.injEq, exists_const]
    exact ⟨fun h => h ▸ hfull, fun h => hfull.unique h⟩
  · simp only [if_neg (mt hempty.1 hlen)]
    exact transfer_iff

end Loops

/-! ## Transfers -/

/-- The call ends the transfer: the end of the file, or an error that is not `EINTR`. -/
def Outcome.stops : Outcome → Bool
  | .count n => n == 0
  | .eintr => false
  | .error => true

/-- What is done with some bytes and then with the next ones is what is done with all of
them. -/
structure Additive (move : Nat → Nat → δ → δ) : Prop where
  zero : ∀ ptr d, move ptr 0 d = d
  add : ∀ ptr m n d, move (ptr + m) n (move ptr m d) = move ptr (m + n) d

/-- The last call of a run ended the transfer. -/
def LastStopped (outcomes : Nat → Outcome) (w w' : World δ) : Prop :=
  ∃ k, w.calls ≤ k ∧ w'.calls = k + 1 ∧ (outcomes k).stops

/-- What a transfer does. -/
structure Moved (outcomes : Nat → Outcome) (move : Nat → Nat → δ → δ) (ptr buflen : Nat)
    (w w' : World δ) (n : Nat) : Prop where
  le : n ≤ buflen
  data : w'.data = move ptr n w.data
  short : n < buflen → LastStopped outcomes w w'

/-- What a transfer has done so far. -/
structure Progress (move : Nat → Nat → δ → δ) (ptr buflen : Nat) (w₀ : World δ)
    (s : Nat × World δ) : Prop where
  le : s.1 ≤ buflen
  data : s.2.data = move ptr s.1 w₀.data
  calls : w₀.calls ≤ s.2.calls

theorem Platform.request_le (platform : Platform) (rest : Nat) :
    platform.request rest ≤ rest := by
  cases platform with
  | posix => exact Nat.le_refl rest
  | msvc => exact Nat.min_le_left rest u32Max

theorem Platform.request_pos (platform : Platform) {rest : Nat} (h : 0 < rest) :
    0 < platform.request rest := by
  cases platform with
  | posix => exact h
  | msvc => exact Nat.lt_min.2 ⟨h, by decide⟩

section Transfers

variable {platform : Platform} {outcomes : Nat → Outcome} {move : Nat → Nat → δ → δ}
variable {ptr buflen done n : Nat} {w w' : World δ} {r : Nat × World δ}

/-- What the system may do in a round. -/
theorem callOnce_cases (platform : Platform) (outcomes : Nat → Outcome) (ptr : Nat)
    (w : World δ) (hmove : Additive move) (hlt : done < buflen) :
    (∃ n, outcomes w.calls = .count n ∧ 0 < n ∧
      callOnce platform (sysCall outcomes move) ptr buflen (done, w) =
        .next (done + min n (platform.request (buflen - done)), ⟨w.calls + 1, w.eintr,
          move (ptr + done) (min n (platform.request (buflen - done))) w.data⟩)) ∨
    (outcomes w.calls = .eintr ∧
      callOnce platform (sysCall outcomes move) ptr buflen (done, w) =
        .next (done, ⟨w.calls + 1, true, w.data⟩)) ∨
    ((outcomes w.calls).stops ∧ ∃ eintr,
      callOnce platform (sysCall outcomes move) ptr buflen (done, w) =
        .done (done, ⟨w.calls + 1, eintr, w.data⟩)) := by
  have hrequest := platform.request_pos (Nat.sub_pos_of_lt hlt)
  cases ho : outcomes w.calls with
  | count n =>
    rcases Nat.eq_zero_or_pos n with rfl | hn
    · right; right
      have hcall : sysCall outcomes move (ptr + done) (platform.request (buflen - done)) w =
          (0, ⟨w.calls + 1, w.eintr, w.data⟩) := by
        rw [sysCall, ho]
        dsimp only
        rw [Nat.zero_min, hmove.zero]
        rfl
      refine ⟨rfl, w.eintr, callOnce_of_stopped hlt hcall ?_ (Int.le_refl 0)⟩
      exact fun h => absurd h.1 (by decide)
    · left
      have hpos : 0 < min n (platform.request (buflen - done)) := Nat.lt_min.2 ⟨hn, hrequest⟩
      refine ⟨n, rfl, hn, ?_⟩
      rw [callOnce_of_count hlt (by rw [sysCall, ho])]
      · rw [Int.toNat_natCast]
      · omega
  | eintr =>
    right; left
    have hcall : sysCall outcomes move (ptr + done) (platform.request (buflen - done)) w =
        (-1, ⟨w.calls + 1, true, w.data⟩) := by rw [sysCall, ho]
    exact ⟨rfl, callOnce_of_interrupted hlt hcall ⟨by decide, rfl⟩⟩
  | error =>
    right; right
    have hcall : sysCall outcomes move (ptr + done) (platform.request (buflen - done)) w =
        (-1, ⟨w.calls + 1, false, w.data⟩) := by rw [sysCall, ho]
    refine ⟨rfl, false, callOnce_of_stopped hlt hcall ?_ (by decide)⟩
    exact fun h => Bool.false_ne_true h.2

theorem progress_next (hmove : Additive move) {w₀ : World δ} {s s' : Nat × World δ}
    (h : Progress move ptr buflen w₀ s)
    (hround : callOnce platform (sysCall outcomes move) ptr buflen s = .next s') :
    Progress move ptr buflen w₀ s' := by
  obtain ⟨done, w⟩ := s
  obtain ⟨hle, hdata, hcalls⟩ := h
  by_cases hlt : done < buflen
  · rcases callOnce_cases platform outcomes ptr w hmove hlt with
      ⟨n, -, -, hnext⟩ | ⟨-, hnext⟩ | ⟨-, e, hdone⟩
    · rw [hround] at hnext
      obtain rfl := Round.next.inj hnext
      have hrequest := platform.request_le (buflen - done)
      refine ⟨by dsimp only; omega, ?_, Nat.le_succ_of_le hcalls⟩
      dsimp only at hdata ⊢
      rw [hdata, hmove.add]
    · rw [hround] at hnext
      obtain rfl := Round.next.inj hnext
      exact ⟨hle, hdata, Nat.le_succ_of_le hcalls⟩
    · rw [hround] at hdone
      cases hdone
  · rw [callOnce_of_full hlt] at hround
    cases hround

theorem moved_of_done (hmove : Additive move) {w₀ : World δ} {s : Nat × World δ}
    (h : Progress move ptr buflen w₀ s)
    (hround : callOnce platform (sysCall outcomes move) ptr buflen s = .done r) :
    Moved outcomes move ptr buflen w₀ r.2 r.1 := by
  obtain ⟨done, w⟩ := s
  obtain ⟨hle, hdata, hcalls⟩ := h
  by_cases hlt : done < buflen
  · rcases callOnce_cases platform outcomes ptr w hmove hlt with
      ⟨n, -, -, hnext⟩ | ⟨-, hnext⟩ | ⟨hstops, e, hdone⟩
    · rw [hround] at hnext
      cases hnext
    · rw [hround] at hnext
      cases hnext
    · rw [hround] at hdone
      obtain rfl := Round.done.inj hdone
      exact ⟨hle, hdata, fun _ => ⟨w.calls, hcalls, rfl, hstops⟩⟩
  · rw [callOnce_of_full hlt] at hround
    obtain rfl := Round.done.inj hround
    exact ⟨hle, hdata, fun h => absurd h hlt⟩

theorem moved_of_returns (hmove : Additive move)
    (h : Returns (callOnce platform (sysCall outcomes move) ptr buflen) (0, w) r) :
    Moved outcomes move ptr buflen w r.2 r.1 :=
  h.of_invariant (Q := fun r => Moved outcomes move ptr buflen w r.2 r.1)
    (fun _ _ hs hround => progress_next hmove hs hround)
    (fun _ _ hs hround => moved_of_done hmove hs hround)
    ⟨Nat.zero_le _, (hmove.zero ptr w.data).symm, Nat.le_refl _⟩

/-- The rest of a transfer, by the number of bytes that are missing.  Between two of its
calls that are not interrupted there are finitely many that are. -/
theorem returns_of_frequently (hmove : Additive move)
    (hoften : ∀ k, ∃ j, k ≤ j ∧ outcomes j ≠ .eintr) (done : Nat) (w : World δ) :
    ∃ r, Returns (callOnce platform (sysCall outcomes move) ptr buflen) (done, w) r := by
  induction hrest : buflen - done using Nat.strongRecOn generalizing done w with
  | ind rest ih =>
    by_cases hlt : done < buflen
    · have hrequest := platform.request_pos (Nat.sub_pos_of_lt hlt)
      have hcount : ∀ n, 0 < n → ∀ w,
          ∃ r, Returns (callOnce platform (sysCall outcomes move) ptr buflen)
            (done + min n (platform.request (buflen - done)), w) r := fun n hn w =>
        ih (buflen - (done + min n (platform.request (buflen - done)))) (by omega) _ w rfl
      obtain ⟨j, hj, hne⟩ := hoften w.calls
      obtain ⟨k, rfl⟩ := Nat.exists_eq_add_of_le hj
      clear hj
      induction k generalizing w with
      | zero =>
        rcases callOnce_cases platform outcomes ptr w hmove hlt with
          ⟨n, -, hn, hnext⟩ | ⟨ho, -⟩ | ⟨-, e, hdone⟩
        · obtain ⟨r, hr⟩ := hcount n hn _
          exact ⟨r, returns_of_next hnext hr⟩
        · exact absurd ho hne
        · exact ⟨_, returns_of_done hdone⟩
      | succ k ihk =>
        rcases callOnce_cases platform outcomes ptr w hmove hlt with
          ⟨n, -, hn, hnext⟩ | ⟨-, hnext⟩ | ⟨-, e, hdone⟩
        · obtain ⟨r, hr⟩ := hcount n hn _
          exact ⟨r, returns_of_next hnext hr⟩
        · obtain ⟨r, hr⟩ := ihk ⟨w.calls + 1, true, w.data⟩
            (by rwa [Nat.add_assoc, Nat.add_comm 1 k])
          exact ⟨r, returns_of_next hnext hr⟩
        · exact ⟨_, returns_of_done hdone⟩
    · exact ⟨_, returns_of_done (callOnce_of_full hlt)⟩

end Transfers

/-! ## The functions -/

theorem additive_receive (stream : Nat → UInt8) : Additive (receive stream) where
  zero ptr d := by
    rw [receive, Memory.window_zero, Memory.overlay_nil]
    rfl
  add ptr m n d := by
    rw [receive, receive, receive, Memory.window_add, Memory.overlay_append_right,
      Memory.length_window, Nat.add_assoc]

theorem additive_send : Additive send where
  zero ptr d := by
    rw [send, Memory.window_zero, List.append_nil]
  add ptr m n d := by
    rw [send, send, send, Memory.window_add, List.append_assoc]

/-- What a call of `fd_read` that returns `n` has done. -/
structure Received (outcomes : Nat → Outcome) (stream : Nat → UInt8) (buffer buflen : Nat)
    (w w' : World Input) (n : Nat) : Prop where
  le : n ≤ buflen
  /-- The buffer starts with the next bytes of the stream, and they have left the stream. -/
  bytes : Memory.window w'.data.mem buffer n = Memory.window stream w.data.pos n
  pos : w'.data.pos = w.data.pos + n
  rest : ∀ a, a < buffer ∨ buffer + n ≤ a → w'.data.mem a = w.data.mem a
  short : n < buflen → LastStopped outcomes w w'

/-- The next character of a console, if there is one. -/
def Console.next (console : Console) (key : UInt8) : Option UInt8 :=
  if key = 1 then some console.getchar else console.event

/-- What a call of `fd_read` that takes the next character of a console has done. -/
structure KeyRead (console : Console) (buffer : Nat) (w w' : World Input) (n : Nat) : Prop where
  count : n = (console.next w.data.key).toList.length
  bytes : Memory.window w'.data.mem buffer n = (console.next w.data.key).toList
  rest : ∀ a, a < buffer ∨ buffer + n ≤ a → w'.data.mem a = w.data.mem a
  /-- There is no system call. -/
  calls : w'.calls = w.calls

/-- What a call of `fd_write` that returns `n` has done. -/
structure Sent (outcomes : Nat → Outcome) (buffer buflen : Nat) (w w' : World Output)
    (n : Nat) : Prop where
  le : n ≤ buflen
  sent : w'.data.sent = w.data.sent ++ Memory.window w.data.mem buffer n
  mem : w'.data.mem = w.data.mem
  short : n < buflen → LastStopped outcomes w w'

/-- All calls from some point on are interrupted. -/
def InterruptedForever (outcomes : Nat → Outcome) : Prop :=
  ∃ k, ∀ j, k ≤ j → outcomes j = .eintr

section Functions

variable {platform : Platform} {console : Option Console} {outcomes : Nat → Outcome}
variable {stream : Nat → UInt8} {fd : Int} {buffer buflen fuel n : Nat}

theorem received_of_moved {w w' : World Input}
    (h : Moved outcomes (receive stream) buffer buflen w w' n) :
    Received outcomes stream buffer buflen w w' n := by
  have hlength : (Memory.window stream w.data.pos n).length = n := Memory.length_window _ _ _
  refine ⟨h.le, ?_, ?_, fun a ha => ?_, h.short⟩ <;> rw [h.data]
  · have hwindow := Memory.window_overlay w.data.mem buffer (Memory.window stream w.data.pos n)
    rwa [hlength] at hwindow
  · rfl
  · exact Memory.overlay_of_outside _ (by rwa [hlength])

theorem sent_of_moved {w w' : World Output} (h : Moved outcomes send buffer buflen w w' n) :
    Sent outcomes buffer buflen w w' n := by
  refine ⟨h.le, ?_, ?_, h.short⟩ <;> rw [h.data] <;> rfl

theorem keyRead_msvcReadConsole (console : Console) (buffer : Nat) (w : World Input) :
    KeyRead console buffer w { w with data := (msvcReadConsole console buffer w.data).2 }
      (msvcReadConsole console buffer w.data).1 := by
  have hnext : (msvcReadConsole console buffer w.data).2.mem =
        Memory.overlay w.data.mem buffer (console.next w.data.key).toList ∧
      (msvcReadConsole console buffer w.data).1 = (console.next w.data.key).toList.length := by
    unfold msvcReadConsole Console.next
    split
    next => exact ⟨rfl, rfl⟩
    next =>
      cases console.event with
      | none => exact ⟨(Memory.overlay_nil _ _).symm, rfl⟩
      | some ch => exact ⟨rfl, rfl⟩
  obtain ⟨hmem, hcount⟩ := hnext
  refine ⟨hcount, ?_, fun a ha => ?_, rfl⟩
  · rw [hcount]
    exact (congrArg (Memory.window · buffer _) hmem).trans (Memory.window_overlay _ _ _)
  · rw [hcount] at ha
    exact (congrFun hmem a).trans (Memory.overlay_of_outside _ ha)

theorem readsConsole_posix (fd : Int) (console : Option Console) :
    readsConsole .posix fd console = none := if_neg fun h => nomatch h.1

/-- A call that does not read a console is a transfer, also of nothing. -/
theorem fdRead_iff (hconsole : readsConsole platform fd console = none) (hfd : 0 ≤ fd)
    (hbuffer : buffer ≠ 0) {w : World Input} {r : Nat × World Input} :
    (∃ fuel, fdRead platform console outcomes stream fd buffer buflen fuel w = some r) ↔
      Returns (callOnce platform (sysCall outcomes (receive stream)) buffer buflen) (0, w) r := by
  simp only [fdRead, hconsole]
  exact guarded_iff (by omega)

theorem fdRead_of_console {c : Console} (hconsole : readsConsole platform fd console = some c)
    (hfd : 0 ≤ fd) (hbuffer : buffer ≠ 0) (hbuflen : 0 < buflen) (w : World Input) :
    fdRead platform console outcomes stream fd buffer buflen fuel w =
      some ((msvcReadConsole c buffer w.data).1,
        { w with data := (msvcReadConsole c buffer w.data).2 }) := by
  rw [fdRead, if_neg (by omega), hconsole]

theorem fdWrite_iff (hfd : 0 ≤ fd) (hbuffer : buffer ≠ 0) {w : World Output}
    {r : Nat × World Output} :
    (∃ fuel, fdWrite platform outcomes fd buffer buflen fuel w = some r) ↔
      Returns (callOnce platform (sysCall outcomes send) buffer buflen) (0, w) r :=
  guarded_iff (by omega)

theorem frequently_of_not_interrupted (h : ¬ InterruptedForever outcomes) (k : Nat) :
    ∃ j, k ≤ j ∧ outcomes j ≠ .eintr := by
  by_contra hnone
  exact h ⟨k, fun j hj => not_not.1 fun hne => hnone ⟨j, hj, hne⟩⟩

end Functions

/-- A call of `fd_read` or `fd_write` moves the bytes that it reports, and reports less than
all only after the end of the file or an error.  It ends, unless it is interrupted forever.  Only
a call of `fd_read` for a console does something else: it takes the next character, if there is
one. -/
theorem fdRead_fdWrite_complete (platform : Platform) (console : Option Console)
    (outcomes : Nat → Outcome) (stream : Nat → UInt8) (fd : Int) (hfd : 0 ≤ fd) (buffer : Nat)
    (hbuffer : buffer ≠ 0) (buflen : Nat) :
    (readsConsole platform fd console = none → ∀ w,
      (∀ fuel n w',
        fdRead platform console outcomes stream fd buffer buflen fuel w = some (n, w') →
          Received outcomes stream buffer buflen w w' n) ∧
      (InterruptedForever outcomes ∨
        ∃ fuel r, fdRead platform console outcomes stream fd buffer buflen fuel w = some r)) ∧
    (∀ c, readsConsole platform fd console = some c → 0 < buflen → ∀ fuel w, ∃ n w',
      fdRead platform console outcomes stream fd buffer buflen fuel w = some (n, w') ∧
        KeyRead c buffer w w' n) ∧
    (∀ w, (∀ fuel n w', fdWrite platform outcomes fd buffer buflen fuel w = some (n, w') →
        Sent outcomes buffer buflen w w' n) ∧
      (InterruptedForever outcomes ∨
        ∃ fuel r, fdWrite platform outcomes fd buffer buflen fuel w = some r)) := by
  refine ⟨fun hconsole w => ⟨fun fuel n w' h => ?_, ?_⟩, fun c hconsole hbuflen fuel w => ?_,
    fun w => ⟨fun fuel n w' h => ?_, ?_⟩⟩
  · have hreturns := (fdRead_iff hconsole hfd hbuffer).1 ⟨fuel, h⟩
    exact received_of_moved (moved_of_returns (additive_receive stream) hreturns)
  · refine or_iff_not_imp_left.2 fun hint => ?_
    obtain ⟨r, hr⟩ := returns_of_frequently (additive_receive stream)
      (frequently_of_not_interrupted hint) 0 w
    obtain ⟨fuel, h⟩ := (fdRead_iff hconsole hfd hbuffer).2 hr
    exact ⟨fuel, r, h⟩
  · exact ⟨_, _, fdRead_of_console hconsole hfd hbuffer hbuflen w,
      keyRead_msvcReadConsole c buffer w⟩
  · have hreturns := (fdWrite_iff hfd hbuffer).1 ⟨fuel, h⟩
    exact sent_of_moved (moved_of_returns additive_send hreturns)
  · refine or_iff_not_imp_left.2 fun hint => ?_
    obtain ⟨r, hr⟩ := returns_of_frequently additive_send
      (frequently_of_not_interrupted hint) 0 w
    obtain ⟨fuel, h⟩ := (fdWrite_iff hfd hbuffer).2 hr
    exact ⟨fuel, r, h⟩

/-- Calls that are interrupted every other time and read a byte otherwise. -/
def everyOther (k : Nat) : Outcome := if k % 2 = 0 then .eintr else .count 1

/-- A console where the key `a` is pressed. -/
def keyboard : Console := ⟨'b'.toUInt8, some 'a'.toUInt8⟩

/-- Three bytes, with interruptions in between, and a key. -/
theorem fdRead_fdWrite_complete_everyOther :
    ((∀ w, (∀ fuel n w',
        fdRead .posix none everyOther UInt8.ofNat 3 16 3 fuel w = some (n, w') →
          Received everyOther UInt8.ofNat 16 3 w w' n) ∧
      (InterruptedForever everyOther ∨
        ∃ fuel r, fdRead .posix none everyOther UInt8.ofNat 3 16 3 fuel w = some r)) ∧
    (∀ w, (∀ fuel n w', fdWrite .posix everyOther 3 16 3 fuel w = some (n, w') →
        Sent everyOther 16 3 w w' n) ∧
      (InterruptedForever everyOther ∨
        ∃ fuel r, fdWrite .posix everyOther 3 16 3 fuel w = some r))) ∧
    ∀ fuel w, ∃ n w', fdRead .msvc (some keyboard) everyOther UInt8.ofNat 0 16 3 fuel w =
      some (n, w') ∧ KeyRead keyboard 16 w w' n := by
  have hposix :=
    fdRead_fdWrite_complete .posix none everyOther UInt8.ofNat 3 (by decide) 16 (by decide) 3
  have hmsvc := fdRead_fdWrite_complete .msvc (some keyboard) everyOther UInt8.ofNat 0 (by decide)
    16 (by decide) 3
  exact ⟨⟨hposix.1 rfl, hposix.2.2⟩, hmsvc.2.1 keyboard rfl (by decide)⟩

/-- Two bytes are asked for, and one comes from the console, although no call has reported the end
of the file or an error. -/
theorem fdRead_console_short : ∃ w w' : World Input,
    fdRead .msvc (some keyboard) everyOther UInt8.ofNat 0 16 2 1 w = some (1, w') ∧
      ¬ Received everyOther UInt8.ofNat 16 2 w w' 1 := by
  refine ⟨⟨0, false, fun _ => 0, 0, 0⟩, _, rfl, fun h => ?_⟩
  obtain ⟨k, -, hcalls, -⟩ := h.short (by decide)
  cases hcalls

end Mwr.FdIo
