import Mathlib.Logic.Function.Basic
import Mwr.CodeLib.Exec
import Mwr.CodeLib.SavedValues
import Mwr.CodeLib.Transition
import Mwr.Core.Report

/-!
# Terminals and their saved attributes

`src/mwr/utils/terminal.cpp` for POSIX: an object for each descriptor with a stack of attributes
that `tty_push` saves and `tty_pop` puts back, as a `tty_guard` does at the two ends of its scope.
The destructors that run when the process exits put back what was pushed to be restored.

* `step` has the calls of a program, and what others do to a terminal or its descriptor.  A call
  that throws ends the run.
* `guard_restores` is about what lies between a push and its pop, on any descriptors.
* `exit_restores` is about an exit in the middle of a run.
-/

namespace Mwr.Tty

open Mwr.CodeLib.Exec
open Mwr.CodeLib.SavedValues
open Mwr.CodeLib.Transition (System)

/-! ## The operating system -/

/-- `struct termios`. -/
structure Termios where
  iflag : BitVec 32
  oflag : BitVec 32
  cflag : BitVec 32
  lflag : BitVec 32
  cc : Vector UInt8 32
  deriving DecidableEq, Repr

def ISIG : BitVec 32 := 0x01
def ICANON : BitVec 32 := 0x02
def ECHO : BitVec 32 := 0x08
def ECHONL : BitVec 32 := 0x40

abbrev Device := Nat

structure State where
  /-- The terminal of a descriptor, or the reason for which there is none. -/
  device : Int → Except String Device
  attrs : Device → Termios
  /-- The map in `tty::lookup`, with the stacks of the objects. -/
  ttys : Int → Option (List (Saved Termios))

namespace State

variable (s : State) (fd : Int)

def tcgetattr : Except String Termios := (s.device fd).map s.attrs

def tcsetattr (attr : Termios) : Except String State :=
  (s.device fd).map fun d => { s with attrs := Function.update s.attrs d attr }

/-! ## The code -/

/-- `is_tty(fd)`. -/
def isTty : Bool := (s.tcgetattr fd).toBool

/-- `tty::load()`. -/
def load : Except Fault Termios :=
  (s.tcgetattr fd).mapError fun reason =>
    .error s!"failed to get termios attributes: {reason}"

/-- `tty::save(attr)`, which has the message of `load`. -/
def save (attr : Termios) : Except Fault State :=
  (s.tcsetattr fd attr).mapError fun reason =>
    .error s!"failed to get termios attributes: {reason}"

/-- `m_stack`, whose top is the head of the list. -/
def stack : List (Saved Termios) := (s.ttys fd).getD []

def setStack (stack : List (Saved Termios)) : State :=
  { s with ttys := Function.update s.ttys fd (some stack) }

/-- `tty::lookup(fd)`. -/
def lookup : Except Fault State :=
  if (s.ttys fd).isSome then .ok s
  else if s.isTty fd then .ok (s.setStack fd [])
  else .error (.error s!"not a tty: {fd}")

/-- `tty_push(fd, restore)`. -/
def push (restore : Bool) : Except Fault State := do
  let s ← s.lookup fd
  let attr ← s.load fd
  return s.setStack fd (⟨attr, restore⟩ :: s.stack fd)

/-- `tty_pop(fd)`. -/
def pop : Except Fault State := do
  let s ← s.lookup fd
  match s.stack fd with
  | [] => .error (.error "no tty state on stack")
  | top :: rest =>
    let s ← s.save fd top.value
    return s.setStack fd rest

/-- The attributes that `setup_vt100()` asks for. -/
def vt100 (attr : Termios) : Termios :=
  { attr with
    lflag := attr.lflag &&& ~~~ICANON &&& ~~~ECHONL &&& ~~~ECHO &&& ~~~ISIG
    -- `VMIN` and `VTIME`
    cc := (attr.cc.set 6 1).set 5 0 }

/-- `tty_setup_vt100(fd)`. -/
def setupVt100 : Except Fault State := do
  let s ← s.lookup fd
  let attr ← s.load fd
  s.save fd (vt100 attr)

/-- `tty_is_vt100(fd)`. -/
def isVt100 : Except Fault (Bool × State) := do
  let s ← s.lookup fd
  let isEcho := (← s.load fd).lflag &&& ECHO ≠ 0
  let isIsig := (← s.load fd).lflag &&& ISIG ≠ 0
  return (¬ isEcho ∧ ¬ isIsig, s)

/-- The loop of `~tty()`, which goes on if the attributes cannot be set. -/
def destroyLoop : List (Saved Termios) → State → State
  | [], s => s
  | top :: rest, s =>
    destroyLoop rest (if top.restore then (s.tcsetattr fd top.value).toOption.getD s else s)

/-- `~tty()`. -/
def destroy : State :=
  { destroyLoop fd (s.stack fd) s with ttys := Function.update s.ttys fd none }

/-- The end of the process, which destroys the map in some order. -/
def exit (order : List Int) : State := order.foldl destroy s

end State

/-! ## Runs -/

inductive Act where
  | push (fd : Int) (restore : Bool)
  | pop (fd : Int)
  | setupVt100 (fd : Int)
  | isVt100 (fd : Int)
  /-- Somebody else sets the attributes of a terminal. -/
  | change (d : Device) (attr : Termios)
  /-- The descriptor is closed, and gives an error from now on. -/
  | close (fd : Int) (reason : String)
  deriving DecidableEq

def step (s : State) : Act → Except Fault State
  | .push fd restore => s.push fd restore
  | .pop fd => s.pop fd
  | .setupVt100 fd => s.setupVt100 fd
  | .isVt100 fd => (s.isVt100 fd).map Prod.snd
  | .change d attr => .ok { s with attrs := Function.update s.attrs d attr }
  | .close fd reason => .ok { s with device := Function.update s.device fd (.error reason) }

/-- Runs whose calls all return.  A call that throws ends its run. -/
def system (s₀ : State) : System State Act where
  init := fun s => s = s₀
  step := fun s act s' => step s act = .ok s'

/-- What an act does to the stack of a descriptor. -/
def moveOf (fd : Int) : Act → Option Move
  | .push fd' _ => if fd' = fd then some .save else none
  | .pop fd' => if fd' = fd then some .takeBack else none
  | _ => none

/-- A terminal is changed only while there is something on the stack of one of its descriptors
that the exit restores. -/
def Covered (s : State) : Act → Prop
  | .setupVt100 fd => Restoring (s.stack fd)
  | .change d _ => ∃ fd, s.device fd = .ok d ∧ Restoring (s.stack fd)
  | _ => True

/-- No two descriptors belong to one terminal. -/
def State.Apart (s : State) : Prop :=
  ∀ ⦃fd fd' : Int⦄ ⦃d : Device⦄, s.device fd = .ok d → s.device fd' = .ok d → fd = fd'

/-! ## What a step does -/

section Steps

variable {s s' : State} {fd : Int} {d : Device} {restore : Bool}

theorem State.stack_setStack (s : State) (fd : Int) (stack : List (Saved Termios)) :
    (s.setStack fd stack).stack = Function.update s.stack fd stack := by
  funext fd'
  show (Function.update s.ttys fd (some stack) fd').getD [] = _
  by_cases hfd : fd' = fd
  · subst hfd
    rw [Function.update_self, Function.update_self]
    rfl
  · rw [Function.update_of_ne hfd, Function.update_of_ne hfd]
    rfl

/-- The states with the same terminals and stacks. -/
def Same (s s' : State) : Prop := s'.device = s.device ∧ s'.attrs = s.attrs ∧ s'.stack = s.stack

theorem lookup_same (h : s.lookup fd = .ok s') : Same s s' := by
  unfold State.lookup at h
  split at h
  next =>
    cases h
    exact ⟨rfl, rfl, rfl⟩
  next hnone =>
    split at h
    next =>
      cases h
      refine ⟨rfl, rfl, ?_⟩
      rw [State.stack_setStack]
      have hnil : s.stack fd = [] := by
        rw [State.stack, Option.not_isSome_iff_eq_none.1 hnone]
        rfl
      rw [← hnil, Function.update_eq_self]
    next => cases h

theorem load_eq_ok {attr : Termios} :
    s.load fd = .ok attr ↔ ∃ d, s.device fd = .ok d ∧ attr = s.attrs d := by
  unfold State.load State.tcgetattr
  cases s.device fd with
  | error reason =>
    refine iff_of_false (fun h => ?_) fun ⟨d, hd, _⟩ => ?_
    · cases h
    · cases hd
  | ok d =>
    refine ⟨fun h => ?_, fun ⟨d', hd, hattr⟩ => ?_⟩
    · cases h
      exact ⟨d, rfl, rfl⟩
    · cases hd
      rw [hattr]
      rfl

theorem save_eq_ok {attr : Termios} :
    s.save fd attr = .ok s' ↔
      ∃ d, s.device fd = .ok d ∧ s' = { s with attrs := Function.update s.attrs d attr } := by
  unfold State.save State.tcsetattr
  cases s.device fd with
  | error reason =>
    refine iff_of_false (fun h => ?_) fun ⟨d, hd, _⟩ => ?_
    · cases h
    · cases hd
  | ok d =>
    refine ⟨fun h => ?_, fun ⟨d', hd, heq⟩ => ?_⟩
    · cases h
      exact ⟨d, rfl, rfl⟩
    · cases hd
      rw [heq]
      rfl

/-- A call of `tty_push` that returns. -/
theorem push_eq_ok (h : s.push fd restore = .ok s') :
    ∃ d, s.device fd = .ok d ∧ s'.device = s.device ∧ s'.attrs = s.attrs ∧
      s'.stack = Function.update s.stack fd (⟨s.attrs d, restore⟩ :: s.stack fd) := by
  unfold State.push at h
  obtain ⟨s₁, hlookup, h⟩ := bind_eq_ok.1 h
  obtain ⟨attr, hload, h⟩ := bind_eq_ok.1 h
  cases h
  obtain ⟨hdevice, hattrs, hstack⟩ := lookup_same hlookup
  obtain ⟨d, hd, rfl⟩ := load_eq_ok.1 hload
  rw [hdevice] at hd
  refine ⟨d, hd, hdevice, hattrs, ?_⟩
  rw [State.stack_setStack, hstack, hattrs]

/-- A call of `tty_pop` that returns. -/
theorem pop_eq_ok (h : s.pop fd = .ok s') :
    ∃ d top rest, s.device fd = .ok d ∧ s.stack fd = top :: rest ∧ s'.device = s.device ∧
      s'.attrs = Function.update s.attrs d top.value ∧
      s'.stack = Function.update s.stack fd rest := by
  unfold State.pop at h
  obtain ⟨s₁, hlookup, h⟩ := bind_eq_ok.1 h
  obtain ⟨hdevice, hattrs, hstack⟩ := lookup_same hlookup
  split at h
  next => cases h
  next top rest htop =>
    obtain ⟨s₂, hsave, h⟩ := bind_eq_ok.1 h
    cases h
    obtain ⟨d, hd, rfl⟩ := save_eq_ok.1 hsave
    rw [hdevice] at hd
    rw [hstack] at htop
    refine ⟨d, top, rest, hd, htop, hdevice, ?_, ?_⟩
    · show Function.update s₁.attrs d top.value = _
      rw [hattrs]
    · rw [State.stack_setStack]
      show Function.update s₁.stack fd rest = _
      rw [hstack]

/-- `tty_pop` returns for a terminal with something on its stack. -/
theorem pop_of_stack {top : Saved Termios} {rest : List (Saved Termios)}
    (hd : s.device fd = .ok d) (hstack : s.stack fd = top :: rest) : ∃ s', s.pop fd = .ok s' := by
  have hlookup : s.lookup fd = .ok s := by
    refine if_pos ?_
    rw [← Option.ne_none_iff_isSome]
    intro hnone
    rw [State.stack, hnone] at hstack
    cases hstack
  obtain ⟨s₁, hsave⟩ : ∃ s₁, s.save fd top.value = .ok s₁ := ⟨_, save_eq_ok.2 ⟨d, hd, rfl⟩⟩
  refine ⟨s₁.setStack fd rest, ?_⟩
  unfold State.pop
  rw [hlookup, ok_bind, hstack]
  show s.save fd top.value >>= _ = _
  rw [hsave]
  rfl

/-- A call of `tty_setup_vt100` that returns. -/
theorem setupVt100_eq_ok (h : s.setupVt100 fd = .ok s') :
    ∃ d, s.device fd = .ok d ∧ s'.device = s.device ∧
      s'.attrs = Function.update s.attrs d (State.vt100 (s.attrs d)) ∧ s'.stack = s.stack := by
  unfold State.setupVt100 at h
  obtain ⟨s₁, hlookup, h⟩ := bind_eq_ok.1 h
  obtain ⟨attr, hload, h⟩ := bind_eq_ok.1 h
  obtain ⟨hdevice, hattrs, hstack⟩ := lookup_same hlookup
  obtain ⟨d, hd, rfl⟩ := load_eq_ok.1 hload
  obtain ⟨d', hd', rfl⟩ := save_eq_ok.1 h
  cases hd.symm.trans hd'
  rw [hdevice] at hd
  refine ⟨d, hd, hdevice, ?_, hstack⟩
  show Function.update s₁.attrs d (State.vt100 (s₁.attrs d)) = _
  rw [hattrs]

theorem isVt100_same {b : Bool} (h : s.isVt100 fd = .ok (b, s')) : Same s s' := by
  unfold State.isVt100 at h
  obtain ⟨s₁, hlookup, h⟩ := bind_eq_ok.1 h
  obtain ⟨attr, hload, h⟩ := bind_eq_ok.1 h
  obtain ⟨attr', hload', h⟩ := bind_eq_ok.1 h
  cases h
  exact lookup_same hlookup

/-- A terminal that was set up answers that it is. -/
theorem isVt100_setupVt100 (h : s.setupVt100 fd = .ok s') :
    ∃ s'', s'.isVt100 fd = .ok (true, s'') := by
  obtain ⟨d, hd, hdevice, hattrs, -⟩ := setupVt100_eq_ok h
  rw [← hdevice] at hd
  have hload : ∀ s'', Same s' s'' → s''.load fd = .ok (State.vt100 (s.attrs d)) := by
    rintro s'' ⟨hdevice'', hattrs'', -⟩
    refine load_eq_ok.2 ⟨d, by rw [hdevice'', hd], ?_⟩
    rw [hattrs'', hattrs, Function.update_self]
  obtain ⟨s'', hlookup⟩ : ∃ s'', s'.lookup fd = .ok s'' := by
    unfold State.lookup
    split
    next => exact ⟨s', rfl⟩
    next =>
      have htty : s'.isTty fd = true := by
        rw [State.isTty, State.tcgetattr, hd]
        rfl
      rw [if_pos htty]
      exact ⟨_, rfl⟩
  have hecho : (State.vt100 (s.attrs d)).lflag &&& ECHO = 0 := by
    unfold State.vt100 ECHO ECHONL ICANON ISIG
    generalize (s.attrs d).lflag = lflag
    ext i hi
    simp only [BitVec.getElem_and, BitVec.getElem_not]
    grind
  have hisig : (State.vt100 (s.attrs d)).lflag &&& ISIG = 0 := by
    unfold State.vt100 ISIG
    rw [BitVec.and_assoc, BitVec.not_and_self]
    exact BitVec.and_zero
  refine ⟨s'', ?_⟩
  unfold State.isVt100
  rw [hlookup, ok_bind, hload s'' (lookup_same hlookup), ok_bind, ok_bind]
  simp only [hecho, hisig, ne_eq, not_true_eq_false, not_false_eq_true, and_self, decide_true]
  rfl

/-- What a step does to the terminals, the descriptors and the stacks. -/
theorem step_cases {act : Act} (h : step s act = .ok s') :
    (∃ fd restore d, act = .push fd restore ∧ s.device fd = .ok d ∧ s'.device = s.device ∧
      s'.attrs = s.attrs ∧
      s'.stack = Function.update s.stack fd (⟨s.attrs d, restore⟩ :: s.stack fd)) ∨
    (∃ fd d top rest, act = .pop fd ∧ s.device fd = .ok d ∧ s.stack fd = top :: rest ∧
      s'.device = s.device ∧ s'.attrs = Function.update s.attrs d top.value ∧
      s'.stack = Function.update s.stack fd rest) ∨
    (∃ d attr, ((∃ fd, act = .setupVt100 fd ∧ s.device fd = .ok d) ∨ act = .change d attr) ∧
      s'.device = s.device ∧ s'.attrs = Function.update s.attrs d attr ∧ s'.stack = s.stack) ∨
    ((∃ fd, act = .isVt100 fd) ∧ Same s s') ∨
    (∃ fd reason, act = .close fd reason ∧
      s'.device = Function.update s.device fd (.error reason) ∧ s'.attrs = s.attrs ∧
      s'.stack = s.stack) := by
  cases act with
  | push fd restore =>
    obtain ⟨d, hd, hs'⟩ := push_eq_ok h
    exact .inl ⟨fd, restore, d, rfl, hd, hs'⟩
  | pop fd =>
    obtain ⟨d, top, rest, hd, hstack, hs'⟩ := pop_eq_ok h
    exact .inr (.inl ⟨fd, d, top, rest, rfl, hd, hstack, hs'⟩)
  | setupVt100 fd =>
    obtain ⟨d, hd, hs'⟩ := setupVt100_eq_ok h
    exact .inr (.inr (.inl ⟨d, _, .inl ⟨fd, rfl, hd⟩, hs'⟩))
  | isVt100 fd =>
    refine .inr (.inr (.inr (.inl ⟨⟨fd, rfl⟩, ?_⟩)))
    cases hcall : s.isVt100 fd with
    | error e =>
      rw [step, hcall] at h
      cases h
    | ok p =>
      rw [step, hcall] at h
      cases h
      exact isVt100_same hcall
  | change d attr =>
    cases h
    exact .inr (.inr (.inl ⟨d, attr, .inr rfl, rfl, rfl, rfl⟩))
  | close fd reason =>
    cases h
    exact .inr (.inr (.inr (.inr ⟨fd, reason, rfl, rfl, rfl, rfl⟩)))

end Steps

/-! ## A push and its pop -/

/-- The stack of a descriptor goes through the moves of a run. -/
theorem steps_of_run {s s' : State} {acts : List Act} (h : acts.foldlM step s = .ok s')
    (fd : Int) : Steps (s.stack fd) (acts.filterMap (moveOf fd)) (s'.stack fd) := by
  induction acts generalizing s with
  | nil =>
    cases h
    exact .nil _
  | cons act acts ih =>
    rw [List.foldlM_cons] at h
    obtain ⟨s₁, hstep, h⟩ := bind_eq_ok.1 h
    have hrest := ih h
    have hquiet : moveOf fd act = none → s₁.stack fd = s.stack fd →
        Steps (s.stack fd) ((act :: acts).filterMap (moveOf fd)) (s'.stack fd) := by
      intro hnone hstack
      rw [List.filterMap_cons_none hnone, ← hstack]
      exact hrest
    rcases step_cases hstep with ⟨fd', restore, d, rfl, -, -, -, hstack⟩ |
      ⟨fd', d, top, rest, rfl, -, htop, -, -, hstack⟩ | ⟨d, attr, hact, -, -, hstack⟩ |
      ⟨⟨fd', rfl⟩, -, -, hstack⟩ | ⟨fd', reason, rfl, -, -, hstack⟩
    · by_cases hfd : fd' = fd
      · subst hfd
        have hmove : moveOf fd' (.push fd' restore) = some .save := if_pos rfl
        rw [List.filterMap_cons_some hmove]
        rw [hstack, Function.update_self] at hrest
        exact .save _ hrest
      · exact hquiet (if_neg hfd) (by rw [hstack, Function.update_of_ne (Ne.symm hfd)])
    · by_cases hfd : fd' = fd
      · subst hfd
        have hmove : moveOf fd' (.pop fd') = some .takeBack := if_pos rfl
        rw [List.filterMap_cons_some hmove, htop]
        rw [hstack, Function.update_self] at hrest
        exact .takeBack hrest
      · exact hquiet (if_neg hfd) (by rw [hstack, Function.update_of_ne (Ne.symm hfd)])
    · refine hquiet ?_ (by rw [hstack])
      rcases hact with ⟨fd', rfl, -⟩ | rfl <;> rfl
    · exact hquiet rfl (by rw [hstack])
    · exact hquiet rfl (by rw [hstack])

/-- A descriptor that is not closed keeps its terminal. -/
theorem device_of_run {s s' : State} {acts : List Act} (h : acts.foldlM step s = .ok s')
    {fd : Int} (hopen : ∀ reason, Act.close fd reason ∉ acts) : s'.device fd = s.device fd := by
  induction acts generalizing s with
  | nil =>
    cases h
    rfl
  | cons act acts ih =>
    rw [List.foldlM_cons] at h
    obtain ⟨s₁, hstep, h⟩ := bind_eq_ok.1 h
    rw [ih h fun reason hmem => hopen reason (List.mem_cons_of_mem act hmem)]
    rcases step_cases hstep with ⟨_, _, _, -, -, hdevice, -⟩ | ⟨_, _, _, _, -, -, -, hdevice, -⟩ |
      ⟨_, _, -, hdevice, -⟩ | ⟨-, hdevice, -⟩ | ⟨fd', reason, rfl, hdevice, -⟩
    · rw [hdevice]
    · rw [hdevice]
    · rw [hdevice]
    · rw [hdevice]
    · have hne : fd ≠ fd' := by
        rintro rfl
        exact hopen reason List.mem_cons_self
      rw [hdevice, Function.update_of_ne hne]

/-- A `tty_guard`, or any push with its pop: whatever a run has done to the terminals in between,
on descriptors of the same terminal too, the pop returns, the terminal has the attributes that it
had at the push, and nothing else changes. -/
theorem guard_restores {s s₁ s₂ : State} {fd : Int} {restore : Bool} {acts : List Act}
    (hpush : s.push fd restore = .ok s₁) (hacts : acts.foldlM step s₁ = .ok s₂)
    (hbalanced : Balanced (acts.filterMap (moveOf fd)))
    (hopen : ∀ reason, Act.close fd reason ∉ acts) :
    ∃ d s₃, s.device fd = .ok d ∧ s₂.pop fd = .ok s₃ ∧ s₃.device = s₂.device ∧
      s₃.attrs = Function.update s₂.attrs d (s.attrs d) ∧
      s₃.stack = Function.update s₂.stack fd (s.stack fd) := by
  obtain ⟨d, hd, hdevice, -, hstack⟩ := push_eq_ok hpush
  have htop : s₂.stack fd = ⟨s.attrs d, restore⟩ :: s.stack fd := by
    rw [(steps_of_run hacts fd).stack_eq hbalanced, hstack, Function.update_self]
  have hd₂ : s₂.device fd = .ok d := by
    rw [device_of_run hacts hopen, hdevice, hd]
  obtain ⟨s₃, hpop⟩ := pop_of_stack hd₂ htop
  obtain ⟨d', top, rest, hd', htop', hdevice', hattrs', hstack'⟩ := pop_eq_ok hpop
  cases hd₂.symm.trans hd'
  cases htop.symm.trans htop'
  exact ⟨d, s₃, hd, hpop, hdevice', hattrs', hstack'⟩

/-- A terminal at descriptor `0`. -/
def console : State where
  device fd := if fd = 0 then .ok 5 else .error "Bad file descriptor"
  attrs _ := ⟨0, 0, 0, ISIG ||| ICANON ||| ECHO, Vector.replicate 32 0⟩
  ttys _ := none

/-- The terminal is set up, saved again and changed by somebody else. -/
def consoleActs : List Act :=
  [.setupVt100 0, .push 0 false, .change 5 ⟨1, 2, 3, 4, Vector.replicate 32 1⟩, .pop 0,
    .isVt100 0]

theorem guard_restores_console :
    ∃ s₁ s₂, console.push 0 true = .ok s₁ ∧ consoleActs.foldlM step s₁ = .ok s₂ ∧
      ∃ d s₃, console.device 0 = .ok d ∧ s₂.pop 0 = .ok s₃ ∧ s₃.device = s₂.device ∧
        s₃.attrs = Function.update s₂.attrs d (console.attrs d) ∧
        s₃.stack = Function.update s₂.stack 0 (console.stack 0) := by
  refine ⟨_, _, rfl, rfl, @guard_restores _ _ _ _ true consoleActs rfl rfl ?_ ?_⟩
  · decide
  · simp [consoleActs]

/-! ## The exit -/

/-- The invariant of a run that changes terminals only while they are covered. -/
structure Sound (s₀ s : State) : Prop where
  device : ∀ fd d, s.device fd = .ok d → s₀.device fd = .ok d
  recoverable : ∀ fd d, s.device fd = .ok d →
    Recoverable (s₀.attrs d) (s.stack fd) (s.attrs d)

section Exit

variable {s₀ s s' : State}

theorem Sound.eq_of_device (h : Sound s₀ s) (hapart : s₀.Apart) {fd fd' : Int} {d : Device}
    (hfd : s.device fd = .ok d) (hfd' : s.device fd' = .ok d) : fd = fd' :=
  hapart (h.device fd d hfd) (h.device fd' d hfd')

/-- A change of one terminal and of the stack of its descriptor. -/
theorem Sound.update (h : Sound s₀ s) (hapart : s₀.Apart) {fd : Int} {d : Device}
    (hd : s.device fd = .ok d) {attr : Termios} {stack : List (Saved Termios)}
    (hr : Recoverable (s₀.attrs d) stack attr) (hdevice : s'.device = s.device)
    (hattrs : s'.attrs = Function.update s.attrs d attr)
    (hstack : s'.stack = Function.update s.stack fd stack) : Sound s₀ s' := by
  refine ⟨?_, ?_⟩
  · rw [hdevice]
    exact h.device
  · intro fd' d' hd'
    rw [hdevice] at hd'
    rw [hattrs, hstack]
    by_cases hfd : fd' = fd
    · subst hfd
      cases hd.symm.trans hd'
      rw [Function.update_self, Function.update_self]
      exact hr
    · have hne : d' ≠ d := by
        rintro rfl
        exact hfd (h.eq_of_device hapart hd' hd)
      rw [Function.update_of_ne hfd, Function.update_of_ne hne]
      exact h.recoverable fd' d' hd'

theorem sound_step (hapart : s₀.Apart) {act : Act} (h : Sound s₀ s) (hcovered : Covered s act)
    (hstep : step s act = .ok s') : Sound s₀ s' := by
  rcases step_cases hstep with ⟨fd, restore, d, rfl, hd, hdevice, hattrs, hstack⟩ |
    ⟨fd, d, top, rest, rfl, hd, htop, hdevice, hattrs, hstack⟩ |
    ⟨d, attr, hact, hdevice, hattrs, hstack⟩ | ⟨-, hdevice, hattrs, hstack⟩ |
    ⟨fd, reason, rfl, hdevice, hattrs, hstack⟩
  · refine h.update hapart hd ((h.recoverable fd d hd).save restore) hdevice ?_ hstack
    rw [hattrs, Function.update_eq_self]
  · have hr := h.recoverable fd d hd
    rw [htop] at hr
    exact h.update hapart hd hr.takeBack hdevice hattrs hstack
  · have hfd : ∃ fd, s.device fd = .ok d ∧ Restoring (s.stack fd) := by
      rcases hact with ⟨fd, rfl, hd⟩ | rfl
      · exact ⟨fd, hd, hcovered⟩
      · exact hcovered
    obtain ⟨fd, hd, hr⟩ := hfd
    refine h.update hapart hd ((h.recoverable fd d hd).change hr attr) hdevice hattrs ?_
    rw [hstack, Function.update_eq_self]
  · refine ⟨?_, ?_⟩
    · rw [hdevice]
      exact h.device
    · rw [hdevice, hattrs, hstack]
      exact h.recoverable
  · have hkeep : ∀ fd' d, s'.device fd' = .ok d → s.device fd' = .ok d := by
      intro fd' d hd
      rw [hdevice] at hd
      by_cases hfd : fd' = fd
      · subst hfd
        rw [Function.update_self] at hd
        cases hd
      · rwa [Function.update_of_ne hfd] at hd
    refine ⟨fun fd' d hd => h.device fd' d (hkeep fd' d hd), fun fd' d hd => ?_⟩
    rw [hattrs, hstack]
    exact h.recoverable fd' d (hkeep fd' d hd)

theorem destroyLoop_of_ok {fd : Int} {d : Device} (stack : List (Saved Termios))
    (hd : s.device fd = .ok d) :
    State.destroyLoop fd stack s =
      { s with attrs := Function.update s.attrs d (unwind stack (s.attrs d)) } := by
  induction stack generalizing s with
  | nil =>
    rw [unwind, Function.update_eq_self]
    rfl
  | cons top rest ih =>
    rw [State.destroyLoop, unwind]
    cases top.restore with
    | true =>
      rw [if_pos rfl, if_pos rfl]
      have hset : s.tcsetattr fd top.value =
          .ok { s with attrs := Function.update s.attrs d top.value } := by
        rw [State.tcsetattr, hd]
        rfl
      rw [hset]
      refine (ih (s := { s with attrs := Function.update s.attrs d top.value }) hd).trans ?_
      simp only [Function.update_self, Function.update_idem]
    | false =>
      rw [if_neg Bool.false_ne_true, if_neg Bool.false_ne_true]
      exact ih hd

theorem destroyLoop_of_error {fd : Int} {reason : String} (stack : List (Saved Termios))
    (hd : s.device fd = .error reason) : State.destroyLoop fd stack s = s := by
  induction stack with
  | nil => rfl
  | cons top rest ih =>
    rw [State.destroyLoop, State.tcsetattr, hd]
    show State.destroyLoop fd rest (if top.restore = true then s else s) = s
    rw [ite_self]
    exact ih

theorem State.stack_destroy (s : State) (fd : Int) :
    (s.destroy fd).stack = Function.update s.stack fd [] := by
  have hloop : (State.destroyLoop fd (s.stack fd) s).ttys = s.ttys := by
    cases hd : s.device fd with
    | error reason => rw [destroyLoop_of_error _ hd]
    | ok d => rw [destroyLoop_of_ok _ hd]
  funext fd'
  show (Function.update s.ttys fd none fd').getD [] = _
  by_cases hfd : fd' = fd
  · subst hfd
    rw [Function.update_self, Function.update_self]
    rfl
  · rw [Function.update_of_ne hfd, Function.update_of_ne hfd]
    rfl

/-- The destructor of one object leads its terminal back. -/
theorem sound_destroy (hapart : s₀.Apart) (h : Sound s₀ s) (fd : Int) :
    Sound s₀ (s.destroy fd) := by
  cases hd : s.device fd with
  | error reason =>
    have hloop := destroyLoop_of_error (s.stack fd) hd
    have hdevice : (s.destroy fd).device = s.device := by
      show (State.destroyLoop fd (s.stack fd) s).device = _
      rw [hloop]
    have hattrs : (s.destroy fd).attrs = s.attrs := by
      show (State.destroyLoop fd (s.stack fd) s).attrs = _
      rw [hloop]
    refine ⟨?_, fun fd' d hd' => ?_⟩
    · rw [hdevice]
      exact h.device
    · rw [hdevice] at hd'
      have hne : fd' ≠ fd := by
        rintro rfl
        cases hd.symm.trans hd'
      rw [hattrs, s.stack_destroy, Function.update_of_ne hne]
      exact h.recoverable fd' d hd'
  | ok d =>
    have hloop := destroyLoop_of_ok (s.stack fd) hd
    have hr : Recoverable (s₀.attrs d) [] (s₀.attrs d) := rfl
    refine h.update hapart hd hr ?_ ?_ (s.stack_destroy fd)
    · show (State.destroyLoop fd (s.stack fd) s).device = _
      rw [hloop]
    · show (State.destroyLoop fd (s.stack fd) s).attrs = _
      rw [hloop, unwind_eq (h.recoverable fd d hd)]

/-- Terminals that are changed only while something on the stack covers them have the attributes
of the beginning again after the exit, at whatever point of a run it comes and in whatever order it
destroys the objects.  A terminal has one descriptor, which is still open. -/
theorem exit_restores (hfresh : ∀ fd, s₀.ttys fd = none) (hapart : s₀.Apart)
    (h : ((system s₀).restrict Covered).Reachable s) {order : List Int}
    (horder : ∀ fd, s.ttys fd ≠ none → fd ∈ order) {fd : Int} {d : Device}
    (hfd : s.device fd = .ok d) : (s.exit order).attrs d = s₀.attrs d := by
  have hsound : Sound s₀ s := by
    refine System.Reachable.invariant (fun s hs => ?_) (fun s act s' _ hs hstep => ?_) h
    · have hs : s = s₀ := hs
      subst hs
      refine ⟨fun fd d hd => hd, fun fd d _ => ?_⟩
      rw [State.stack, hfresh]
      exact rfl
    · exact sound_step hapart hs hstep.1 hstep.2
  have hexit : ∀ (order : List Int) (s : State), Sound s₀ s →
      (∀ fd, s.stack fd ≠ [] → fd ∈ order) → ∀ fd d, s.device fd = .ok d →
        (s.exit order).attrs d = s₀.attrs d := by
    intro order
    induction order with
    | nil =>
      intro s hs hall fd d hd
      have hnil : s.stack fd = [] := by
        by_contra hne
        exact absurd (hall fd hne) List.not_mem_nil
      have hr := hs.recoverable fd d hd
      rw [hnil] at hr
      exact hr
    | cons fd₁ order ih =>
      intro s hs hall fd d hd
      refine ih (s.destroy fd₁) (sound_destroy hapart hs fd₁) (fun fd' hne => ?_) fd d ?_
      · rw [s.stack_destroy] at hne
        by_cases hfd : fd' = fd₁
        · subst hfd
          rw [Function.update_self] at hne
          exact absurd rfl hne
        · rw [Function.update_of_ne hfd] at hne
          exact (List.mem_cons.1 (hall fd' hne)).resolve_left hfd
      · show (State.destroyLoop fd₁ (s.stack fd₁) s).device fd = .ok d
        cases hd₁ : s.device fd₁ with
        | error reason => rwa [destroyLoop_of_error _ hd₁]
        | ok d₁ => rwa [destroyLoop_of_ok _ hd₁]
  refine hexit order s hsound (fun fd' hne => horder fd' fun hnone => hne ?_) fd d hfd
  rw [State.stack, hnone]
  rfl

/-- An exit while the terminal is set up, with two states on the stack. -/
theorem exit_restores_console :
    ∃ s, ((system console).restrict Covered).Reachable s ∧ s.attrs 5 ≠ console.attrs 5 ∧
      (s.exit [0]).attrs 5 = console.attrs 5 := by
  have h₁ := System.Reachable.step (M := (system console).restrict Covered)
    (e := Act.push 0 true) (.init rfl) ⟨trivial, rfl⟩
  have h₂ := h₁.step (e := Act.setupVt100 0) ⟨show Restoring _ by decide, rfl⟩
  have h₃ := h₂.step (e := Act.push 0 false) ⟨trivial, rfl⟩
  refine ⟨_, h₃, by decide, @exit_restores _ _ (fun _ => rfl) ?_ h₃ [0] ?_ 0 5 rfl⟩
  · intro fd fd' d hfd hfd'
    by_cases h : fd = 0
    · by_cases h' : fd' = 0
      · rw [h, h']
      · simp [console, h'] at hfd'
    · simp [console, h] at hfd
  · intro fd hfd
    by_cases h : fd = 0
    · exact List.mem_singleton.2 h
    · exact absurd (by simp [State.setStack, console, Function.update_of_ne h]) hfd

end Exit

end Mwr.Tty
