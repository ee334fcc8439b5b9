import Mathlib.Algebra.Ring.Nat
import Mathlib.Data.List.Basic
import Mathlib.Tactic.Common
import Mwr.CodeLib.Bytes

/-!
# What a parent reads of a child

`read` and `peek` of `src/mwr/utils/subprocess_posix.cpp` and of
`src/mwr/utils/subprocess_win32.cpp`, on one of the pipes of a child.  The operating system hands
out the output of the child in pieces of any size, and the version for Windows drops the carriage
returns from each piece.  `peek` takes its bytes out of the pipe like `read`.

* `readLoop` is the loop of both versions, and `Platform` has what they differ in.
* `overwrite` is a store into a buffer, and `Stored` is the state of the buffer in the loop.
* `Took` says what a call makes of the piece of the output that it has taken.
* `calls_take_pieces` is the result for any sequence of calls.
-/

namespace Mwr.Subprocess.Reading

open Mwr.CodeLib

/-! ## The code -/

/-- The bytes `xs` are stored at `buf + pos`. -/
def overwrite (buf : Bytes) (pos : Nat) (xs : Bytes) : Bytes :=
  buf.take pos ++ xs ++ buf.drop (pos + xs.length)

/-- A system call asks for `n` bytes and gets at most `count`. -/
def obtained (output : Bytes) (n count : Nat) : Bytes := output.take (min n count)

/-- The two versions of the class. -/
structure Platform where
  /-- The bytes that the loop keeps. -/
  keep : UInt8 → Bool
  /-- The number of bytes that the loop waits for. -/
  total : Nat → Nat
  /-- What `peek` asks for. -/
  peeks : Nat
  /-- What `peek` makes of its buffer. -/
  text : Bytes → Bytes

def posix : Platform where
  keep _ := true
  total buflen := buflen
  peeks := 1023
  text piece := piece.takeWhile (· ≠ 0)

/-- The counters are of the type `DWORD`, and `peek` asks for what is available. -/
def win32 : Platform where
  keep ch := ch ≠ '\r'.toUInt8
  total buflen := buflen % 2 ^ 32
  peeks := 2 ^ 32 - 1
  text piece := piece.filter fun ch => ch ≠ 0 && ch ≠ '\r'.toUInt8

/-- The loop of `read`, with the counts that the operating system answers, or `none` for an error.
It gives back whether it has succeeded, the buffer and the output that is left; without an answer
it waits. -/
def readLoop (p : Platform) (total : Nat) :
    List (Option Nat) → Nat → Bytes → Bytes → Option (Bool × Bytes × Bytes)
  | answers, nread, buf, output =>
    if nread < total then
      match answers with
      | [] => none
      | none :: _ => some (false, buf, output)
      | some count :: answers =>
        let piece := obtained output (total - nread) count
        if piece.length = 0 then some (false, buf, output)
        else
          let buf := overwrite buf nread piece
          let kept := piece.filter p.keep
          readLoop p total answers (nread + kept.length) (overwrite buf nread kept)
            (output.drop piece.length)
    else some (true, buf, output)

/-- `read(buf, buflen)`, on a pipe that is open. -/
def read (p : Platform) (answers : List (Option Nat)) (buf output : Bytes) :
    Option (Bool × Bytes × Bytes) :=
  readLoop p (p.total buf.length) answers 0 buf output

/-- `peek()`, on a pipe that is open. -/
def peek (p : Platform) (answer : Option Nat) (output : Bytes) : Bytes × Bytes :=
  match answer with
  | none => ([], output)
  | some count =>
    let piece := obtained output p.peeks count
    (p.text piece, output.drop piece.length)

/-- A call, with what the operating system answers. -/
inductive Call where
  | read (answers : List (Option Nat)) (buf : Bytes)
  | peek (answer : Option Nat)

/-- What a call gives back. -/
inductive Result where
  | read (ok : Bool) (buf : Bytes)
  | peek (text : Bytes)

def Call.run (p : Platform) (output : Bytes) : Call → Option (Result × Bytes)
  | read answers buf =>
    (Reading.read p answers buf output).map fun (ok, buf, output) => (.read ok buf, output)
  | peek answer =>
    let (text, output) := Reading.peek p answer output
    some (.peek text, output)

/-- Calls one after the other. -/
def runCalls (p : Platform) : List Call → Bytes → Option (List Result × Bytes)
  | [], output => some ([], output)
  | call :: calls, output => do
    let (result, output) ← call.run p output
    let (results, output) ← runCalls p calls output
    return (result :: results, output)

/-! ## The loop -/

variable {p : Platform}

theorem obtained_append_drop (output : Bytes) (n count : Nat) :
    obtained output n count ++ output.drop (obtained output n count).length = output := by
  unfold obtained
  by_cases hle : min n count ≤ output.length
  · rw [List.length_take_of_le hle, List.take_append_drop]
  · rw [List.take_of_length_le (Nat.le_of_not_le hle), List.drop_length, List.append_nil]

theorem overwrite_take_append {done rest xs : Bytes} :
    overwrite (done ++ rest) done.length xs = done ++ xs ++ rest.drop xs.length := by
  unfold overwrite
  rw [List.take_left, List.drop_append]
  simp

/-- What is at the start of the buffer in the loop: the bytes of `used` that are kept, behind which
the end of the buffer is as it was. -/
structure Stored (p : Platform) (total : Nat) (old used buf : Bytes) : Prop where
  fits : (used.filter p.keep).length ≤ total
  start : (used.filter p.keep) <+: buf
  tail : buf.drop total = old.drop total
  length : buf.length = old.length

/-- A piece goes into the buffer. -/
theorem Stored.piece {total : Nat} {old used buf piece : Bytes} (h : Stored p total old used buf)
    (hold : total ≤ old.length)
    (hpiece : piece.length ≤ total - (used.filter p.keep).length) :
    Stored p total old (used ++ piece)
      (overwrite (overwrite buf (used.filter p.keep).length piece) (used.filter p.keep).length
        (piece.filter p.keep)) := by
  obtain ⟨rest, rfl⟩ := h.start
  have hkept := List.length_filter_le p.keep piece
  have hfits := h.fits
  have hlength := h.length
  rw [List.length_append] at hlength
  have hdrop : total - (used.filter p.keep).length ≤ rest.length := by omega
  rw [overwrite_take_append, List.append_assoc, overwrite_take_append]
  have hrest : ((piece ++ rest.drop piece.length).drop (piece.filter p.keep).length).length =
      rest.length - (piece.filter p.keep).length := by
    rw [List.length_drop, List.length_append, List.length_drop]
    omega
  refine ⟨?_, ?_, ?_, ?_⟩
  · rw [List.filter_append, List.length_append]
    omega
  · rw [List.filter_append]
    exact List.prefix_append _ _
  · have htail := h.tail
    rw [List.drop_append, List.drop_of_length_le hfits, List.nil_append] at htail
    rw [← htail, List.append_assoc, List.drop_append, List.drop_of_length_le hfits,
      List.nil_append, List.drop_append, List.drop_of_length_le (by omega), List.nil_append,
      List.drop_drop, List.drop_append, List.drop_of_length_le (by omega), List.nil_append,
      List.drop_drop]
    congr 1
    omega
  · rw [List.length_append, List.length_append, hrest]
    omega

/-- A piece that fills the buffer has nothing that is dropped. -/
theorem all_keep_of_length {total : Nat} {used piece : Bytes}
    (hpiece : piece.length ≤ total - (used.filter p.keep).length)
    (hfull : ((used ++ piece).filter p.keep).length = total) : ∀ ch ∈ piece, p.keep ch = true := by
  have hkept := List.length_filter_le p.keep piece
  rw [List.filter_append, List.length_append] at hfull
  exact List.length_filter_eq_length_iff.1 (by omega)

/-- The operating system reports an error or the end of the output, or there is no more output. -/
def Ends (answers : List (Option Nat)) (output : Bytes) : Prop :=
  none ∈ answers ∨ some 0 ∈ answers ∨ output = []

/-- What the loop has done when it stops: it has taken a piece of the output, and has not gone on
behind the byte that fills the buffer. -/
structure Stops (p : Platform) (total : Nat) (old used : Bytes) (answers : List (Option Nat))
    (ok : Bool) (buf' output' piece : Bytes) : Prop where
  stored : Stored p total old (used ++ piece) buf'
  ok_iff : ok = true ↔ ((used ++ piece).filter p.keep).length = total
  last : ok = true → ∀ ch ∈ (used ++ piece).getLast?, p.keep ch = true
  ends : ok = false → Ends answers output'

section Loop

variable {total : Nat} {old used buf output output' buf' : Bytes} {ok : Bool}

theorem stops_here (h : Stored p total old used buf)
    (hlast : (used.filter p.keep).length = total → ∀ ch ∈ used.getLast?, p.keep ch = true)
    (hok : ok = true ↔ (used.filter p.keep).length = total) {answers : List (Option Nat)}
    (hends : ok = false → Ends answers output) :
    ∃ piece, output = piece ++ output ∧ Stops p total old used answers ok buf output piece := by
  refine ⟨[], rfl, ?_, ?_, ?_, hends⟩
  all_goals rw [List.append_nil]
  · exact h
  · exact hok
  · exact fun hend => hlast (hok.1 hend)

theorem Stops.cons {piece more : Bytes} {answers : List (Option Nat)}
    (h : Stops p total old (used ++ piece) answers ok buf' output' more) (answer : Option Nat) :
    Stops p total old used (answer :: answers) ok buf' output' (piece ++ more) where
  stored := by
    rw [← List.append_assoc]
    exact h.stored
  ok_iff := by
    rw [← List.append_assoc]
    exact h.ok_iff
  last := by
    rw [← List.append_assoc]
    exact h.last
  ends hfail := (h.ends hfail).imp (List.mem_cons_of_mem _) (Or.imp_left (List.mem_cons_of_mem _))

theorem stops_of_readLoop (hold : total ≤ old.length) {answers : List (Option Nat)}
    (h : Stored p total old used buf)
    (hlast : (used.filter p.keep).length = total → ∀ ch ∈ used.getLast?, p.keep ch = true)
    (hrun : readLoop p total answers (used.filter p.keep).length buf output =
      some (ok, buf', output')) :
    ∃ piece, output = piece ++ output' ∧ Stops p total old used answers ok buf' output' piece := by
  have hfits := h.fits
  induction answers generalizing used buf output with
  | nil =>
    unfold readLoop at hrun
    split at hrun
    next => cases hrun
    next hge =>
      cases hrun
      exact stops_here h hlast ⟨fun _ => by omega, fun _ => rfl⟩ nofun
  | cons answer answers ih =>
    unfold readLoop at hrun
    split at hrun
    next hlt =>
      have hfail : false = true ↔ (used.filter p.keep).length = total :=
        ⟨nofun, fun heq => absurd hlt (by omega)⟩
      cases answer with
      | none =>
        cases hrun
        exact stops_here h hlast hfail fun _ => .inl List.mem_cons_self
      | some count =>
        dsimp only at hrun
        split at hrun
        next hzero =>
          cases hrun
          refine stops_here h hlast hfail fun _ => .inr ?_
          -- no byte was asked for in vain
          unfold obtained at hzero
          rw [List.length_take] at hzero
          cases count with
          | zero => exact .inl List.mem_cons_self
          | succ count =>
            refine .inr (List.eq_nil_of_length_eq_zero ?_)
            omega
        next hsome =>
          have hle : (obtained output (total - (used.filter p.keep).length) count).length ≤
              total - (used.filter p.keep).length := by
            unfold obtained
            rw [List.length_take]
            exact Nat.le_trans (Nat.min_le_left _ _) (Nat.min_le_left _ _)
          have houtput := obtained_append_drop output (total - (used.filter p.keep).length) count
          generalize obtained output (total - (used.filter p.keep).length) count = piece at *
          have hnext := h.piece hold hle
          have hlast' : ((used ++ piece).filter p.keep).length = total →
              ∀ ch ∈ (used ++ piece).getLast?, p.keep ch = true := by
            intro hfull ch hch
            have hne : piece ≠ [] := fun heq => hsome (by rw [heq]; rfl)
            rw [List.getLast?_append_of_ne_nil _ hne] at hch
            exact all_keep_of_length hle hfull ch (List.mem_of_getLast? hch)
          rw [← List.length_append, ← List.filter_append] at hrun
          obtain ⟨more, hmore, hstops⟩ := ih hnext hlast' hrun hnext.fits
          refine ⟨piece ++ more, ?_, hstops.cons _⟩
          rw [List.append_assoc, ← hmore, houtput]
    next hge =>
      cases hrun
      exact stops_here h hlast ⟨fun _ => by omega, fun _ => rfl⟩ nofun

end Loop

/-! ## The calls -/

/-- What a call makes of the piece of the output that it has taken, with the output behind it. -/
inductive Took (p : Platform) : Call → Result → Bytes → Bytes → Prop
  /-- The buffer is filled with the bytes that are kept, and nothing behind the last of them is
  taken. -/
  | filled (answers : List (Option Nat)) (buf piece rest : Bytes)
      (hlength : (piece.filter p.keep).length = p.total buf.length)
      (hlast : ∀ ch ∈ piece.getLast?, p.keep ch = true) :
      Took p (.read answers buf)
        (.read true (piece.filter p.keep ++ buf.drop (p.total buf.length))) piece rest
  /-- The output has ended, or there was an error, and what has been taken is too little. -/
  | failed (answers : List (Option Nat)) (buf buf' piece rest : Bytes)
      (hbuf : buf'.length = buf.length) (hstart : piece.filter p.keep <+: buf')
      (hlength : (piece.filter p.keep).length < p.total buf.length) (hends : Ends answers rest) :
      Took p (.read answers buf) (.read false buf') piece rest
  | peeked (answer : Option Nat) (piece rest : Bytes) :
      Took p (.peek answer) (.peek (p.text piece)) piece rest

/-- The loop waits for no more bytes than the buffer has. -/
structure Platform.Sound (p : Platform) : Prop where
  total_le : ∀ n, p.total n ≤ n
  text_nil : p.text [] = []

theorem sound_posix : posix.Sound := ⟨fun n => Nat.le_refl n, rfl⟩

theorem sound_win32 : win32.Sound := ⟨fun n => Nat.mod_le n (2 ^ 32), rfl⟩

theorem took_of_run (hp : p.Sound) {call : Call} {result : Result} {output output' : Bytes}
    (h : call.run p output = some (result, output')) :
    ∃ piece, output = piece ++ output' ∧ Took p call result piece output' := by
  cases call with
  | read answers buf =>
    rw [Call.run, Option.map_eq_some_iff] at h
    obtain ⟨⟨ok, buf', output''⟩, hread, heq⟩ := h
    cases heq
    have hstored : Stored p (p.total buf.length) buf [] buf :=
      ⟨Nat.zero_le _, List.nil_prefix, rfl, rfl⟩
    obtain ⟨piece, houtput, hfinal, hok, hlast, hends⟩ :=
      stops_of_readLoop (hp.total_le _) hstored (fun _ => nofun) hread
    rw [List.nil_append] at hfinal hok hlast
    refine ⟨piece, houtput, ?_⟩
    cases ok with
    | false =>
      refine .failed answers buf buf' piece _ hfinal.length hfinal.start ?_ (hends rfl)
      exact Nat.lt_of_le_of_ne hfinal.fits fun heq => Bool.false_ne_true (hok.2 heq)
    | true =>
      have hfull := hok.1 rfl
      have hbuf : buf' = piece.filter p.keep ++ buf.drop (p.total buf.length) := by
        obtain ⟨rest, rfl⟩ := hfinal.start
        rw [← hfinal.tail, ← hfull, List.drop_left]
      rw [hbuf]
      exact .filled answers buf piece _ hfull (hlast rfl)
  | peek answer =>
    rw [Call.run] at h
    cases h
    cases answer with
    | none =>
      refine ⟨[], rfl, ?_⟩
      have hpeeked := Took.peeked (p := p) none [] output
      rw [hp.text_nil] at hpeeked
      exact hpeeked
    | some count =>
      exact ⟨obtained output p.peeks count, (obtained_append_drop output p.peeks count).symm,
        .peeked _ _ _⟩

/-- The calls of a parent on one pipe, whatever pieces the operating system hands out: there are
pieces of the output of the child, one for each call and one behind the other, and each call makes
of its piece what `Took` says.  So no byte is given to two calls, and none that a call has taken is
left out of its piece. -/
theorem calls_take_pieces (hp : p.Sound) {calls : List Call} {results : List Result}
    {output output' : Bytes} (h : runCalls p calls output = some (results, output')) :
    ∃ pieces : List Bytes, output = pieces.flatten ++ output' ∧
      pieces.length = calls.length ∧ results.length = calls.length ∧
      ∀ (i : Nat) (call : Call) (result : Result) (piece : Bytes), calls[i]? = some call →
        results[i]? = some result → pieces[i]? = some piece →
          Took p call result piece ((pieces.drop (i + 1)).flatten ++ output') := by
  induction calls generalizing output results with
  | nil =>
    cases h
    refine ⟨[], rfl, rfl, rfl, ?_⟩
    intro i call result piece hcall
    cases hcall
  | cons call calls ih =>
    simp only [runCalls, Option.bind_eq_bind, Option.bind_eq_some_iff, Option.pure_def] at h
    obtain ⟨⟨result, middle⟩, hcall, ⟨results', last⟩, hcalls, heq⟩ := h
    cases heq
    obtain ⟨piece, rfl, htook⟩ := took_of_run hp hcall
    obtain ⟨pieces, rfl, hpieces, hresults, hall⟩ := ih hcalls
    refine ⟨piece :: pieces, ?_, congrArg (· + 1) hpieces, congrArg (· + 1) hresults, ?_⟩
    · rw [List.flatten_cons, List.append_assoc]
    · intro i c r q hc hr hq
      cases i with
      | zero =>
        cases hc
        cases hr
        cases hq
        exact htook
      | succ i => exact hall i c r q hc hr hq

/-- Two reads and a peek between them, which takes its bytes from the second one. -/
theorem calls_take_pieces_lines :
    ∃ pieces : List Bytes, Bytes.str "a\r\nbcdef" = pieces.flatten ++ Bytes.str "f" ∧
      pieces.length = 3 := by
  have hsome : (runCalls win32 [.read [some 3, some 5] (List.replicate 3 0), .peek (some 2),
      .read [some 9] (List.replicate 1 0)] (Bytes.str "a\r\nbcdef")).map Prod.snd =
        some (Bytes.str "f") := by
    decide +kernel
  obtain ⟨⟨results, output'⟩, hrun, rfl⟩ := Option.map_eq_some_iff.1 hsome
  obtain ⟨pieces, houtput, hlength, -, -⟩ := calls_take_pieces sound_win32 hrun
  exact ⟨pieces, houtput, hlength⟩

end Mwr.Subprocess.Reading
