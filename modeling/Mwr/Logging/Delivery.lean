import Mwr.Logging.Output

/-!
# Where the messages end up

The publishers as a user sees them: a `Board` has the live publishers, with their levels and
filters, and the streams, but no registry.  A message that a logger lets pass is written once
for each publisher that accepts it.

* `Board.Step` is a call on the board.
* `World.board` forgets the registry, and `board_step` says that each call of the code is one on
  the board.
* `output_refines` is the result for all runs.
-/

namespace Mwr.Logging

open Mwr.CodeLib (Bytes)
open Mwr.CodeLib.Bytes (str)
open Mwr.CodeLib.Exec
open Mwr.CodeLib.Transition

/-! ## The board -/

/-- The live publishers, the streams and the flags. -/
structure Board where
  alive : Ptr → Option (Publisher × Kind)
  streams : Nat → Ostream
  flags : Flags

def Board.initial : Board where
  alive := fun _ => none
  streams := fun _ => ⟨true, []⟩
  flags := .initial

namespace Content

/-- The message that is published. -/
def message (flags : Flags) (now : UInt64) (lvl : LogLevel) (sender : Bytes) : Content → Logmsg
  | text msg file line => logmsg now lvl sender msg file line
  | exception what => logmsg now lvl sender (str "exception: " ++ what) none (-1)
  | report message file line backtrace =>
    logmsg now lvl sender ((if flags.printBacktrace then printBacktrace backtrace else []) ++
      cStr message) (some (cStr file)) line.toUInt32.toInt32.toInt

/-- The flags that it is printed with. -/
def flags (flags : Flags) : Content → Flags
  | text _ _ _ | exception _ => flags
  | report _ _ _ _ => { flags with printSource := true }

end Content

namespace Board

/-- The publisher accepts the message. -/
def Accepts (b : Board) (msg : Logmsg) (p : Ptr) : Prop :=
  ∃ self kind, b.alive p = some (self, kind) ∧ self.Covers msg.level ∧
    (self.filters = [] ∨ ∃ filter ∈ self.filters, filter msg)

/-- One publisher writes the message. -/
def write (b : Board) (flags : Flags) (msg : Logmsg) (streams : Nat → Ostream) (p : Ptr) :
    Nat → Ostream :=
  match b.alive p with
  | none => streams
  | some (_, kind) => Function.update streams kind.os ((streams kind.os).put (kind.text flags msg))

/-- The publishers that accept the message write it one after the other. -/
def Writes (b : Board) (flags : Flags) (msg : Logmsg) (streams : Nat → Ostream) : Prop :=
  ∃ order : List Ptr, order.Nodup ∧ (∀ p, p ∈ order ↔ b.Accepts msg p) ∧
    streams = order.foldl (b.write flags msg) b.streams

/-- A publisher that is alive changes. -/
def Modifies (b : Board) (this : Ptr) (f : Publisher → Publisher) (b' : Board) : Prop :=
  ∃ self kind, b.alive this = some (self, kind) ∧
    b' = { b with alive := Function.update b.alive this (some (f self, kind)) }

/-- A call on the board. -/
def Step (b : Board) : Call → Board → Prop
  | .construct this kind opened, b' =>
    b.alive this = none ∧ b' = { b with
      alive := Function.update b.alive this (some (⟨.error, .debug, []⟩, kind))
      streams := kind.initStreams opened b.streams }
  | .setLevel this min max, b' =>
    b.Modifies this (fun self => { self with min := min, max := max }) b'
  | .filter this filter, b' =>
    b.Modifies this (fun self => { self with filters := self.filters ++ [filter] }) b'
  | .filterTime this t0 t1, b' =>
    b.Modifies this (fun self => { self with filters := self.filters ++ [timeFilter t0 t1] }) b'
  | .filterSource this file line, b' =>
    b.Modifies this
      (fun self => { self with filters := self.filters ++ [sourceFilter file line] }) b'
  | .destroy this, b' => b' = { b with alive := Function.update b.alive this none }
  | .setFlags flags, b' => b' = { b with flags }
  | .broken os, b' =>
    b' = { b with streams := Function.update b.streams os { b.streams os with good := false } }
  | .log self lvl now content, b' =>
    if lvl ≤ self.level then
      ∃ streams, b.Writes (content.flags b.flags) (content.message b.flags now lvl self.name)
        streams ∧ b' = { b with streams }
    else b' = b

end Board

def boardSystem : System Board Call where
  init := fun b => b = .initial
  step := Board.Step

/-- The world without the registry. -/
def World.board (w : World) : Board where
  alive := fun p => (w.registry.objects p).map fun self => (self, w.kinds p)
  streams := w.streams
  flags := w.flags

/-! ## The objects after a call -/

theorem objects_construct {s s' : State} {this : Ptr} {min max : LogLevel} (hmax : max ≤ .debug)
    (h : s.construct this min max = .ok s') :
    s'.objects = Function.update s.objects this (some ⟨min, max, []⟩) := by
  simp only [State.construct, State.registerPublisher] at h
  rw [forLevels_eq _ hmax] at h
  cases h
  rfl

theorem objects_setLevel {s s' : State} {this : Ptr} {self : Publisher} {min max : LogLevel}
    (hs : s.Routed) (hself : s.objects this = some self) (hmax : max ≤ .debug)
    (h : s.setLevel this min max = .ok s') :
    s'.objects = Function.update s.objects this (some { self with min := min, max := max }) := by
  have htable := (hs.inTable this self hself).2
  simp only [State.setLevel, hself, State.unregisterPublisher, State.registerPublisher] at h
  rw [forLevels_eq _ htable, ok_bind, forLevels_eq _ hmax] at h
  cases h
  rfl

theorem objects_addFilter {s s' : State} {this : Ptr} {self : Publisher}
    {filter : Logmsg → Bool} (hself : s.objects this = some self)
    (h : s.addFilter this filter = .ok s') :
    s'.objects = Function.update s.objects this
      (some { self with filters := self.filters ++ [filter] }) := by
  simp only [State.addFilter, hself] at h
  cases h
  rfl

theorem objects_destroy {s s' : State} {this : Ptr} (hs : s.Routed)
    (h : s.destroy this = .ok s') : s'.objects = Function.update s.objects this none := by
  cases hself : s.objects this with
  | none =>
    simp only [State.destroy, hself] at h
    cases h
  | some self =>
    have htable := (hs.inTable this self hself).2
    simp only [State.destroy, hself, State.unregisterPublisher] at h
    rw [forLevels_eq _ htable, ok_bind] at h
    cases h
    rfl

/-! ## Deliveries -/

theorem good_put (os : Ostream) (text : Bytes) : (os.put text).good = os.good := by
  unfold Ostream.put
  split <;> rfl

variable {w w' : World}

/-- A publisher that succeeds writes what the board says. -/
theorem publish_kind {kind : Kind} {flags : Flags} {msg : Logmsg} {streams streams' : Nat → Ostream}
    (h : kind.publish flags msg streams = .ok streams') :
    streams' = Function.update streams kind.os ((streams kind.os).put (kind.text flags msg)) := by
  cases kind with
  | stream os | file os =>
    cases h
    rfl
  | terminal os useColors =>
    simp only [Kind.publish] at h
    split at h
    next => cases h; rfl
    next => cases h

/-- The streams of the terminals are in order. -/
def World.TerminalsGood (w : World) : Prop :=
  ∀ p os useColors, w.registry.objects p ≠ none → w.kinds p = .terminal os useColors →
    (w.streams os).good = true

/-- The calls that `publish` makes, on the board. -/
theorem deliver_writes {called : List Ptr} {flags : Flags} {msg : Logmsg}
    (hlive : ∀ p ∈ called, w.registry.objects p ≠ none) {streams streams' : Nat → Ostream}
    (h : (called.map fun p => (p, msg)).foldlM
      (fun streams call => (w.kinds call.1).publish flags call.2 streams) streams = .ok streams') :
    streams' = called.foldl (w.board.write flags msg) streams := by
  induction called generalizing streams with
  | nil =>
    cases h
    rfl
  | cons p called ih =>
    obtain ⟨self, hself⟩ := Option.ne_none_iff_exists'.1 (hlive p List.mem_cons_self)
    have hwrite : w.board.write flags msg streams p = Function.update streams (w.kinds p).os
        ((streams (w.kinds p).os).put ((w.kinds p).text flags msg)) := by
      simp only [Board.write, World.board, hself, Option.map_some]
    rw [List.map_cons, List.foldlM_cons] at h
    cases hhead : (w.kinds p).publish flags msg streams with
    | error e =>
      rw [hhead] at h
      cases h
    | ok streams₁ =>
      rw [hhead, ok_bind] at h
      rw [List.foldl_cons, hwrite, ← publish_kind hhead]
      exact ih (fun q hq => hlive q (List.mem_cons_of_mem p hq)) h

theorem deliver_succeeds (called : List Ptr) (flags : Flags) (msg : Logmsg)
    (streams : Nat → Ostream)
    (hgood : ∀ p ∈ called, ∀ os useColors, w.kinds p = .terminal os useColors →
      (streams os).good = true) :
    ∃ streams', (called.map fun p => (p, msg)).foldlM
      (fun streams call => (w.kinds call.1).publish flags call.2 streams) streams =
        (.ok streams' : Except Fault _) := by
  induction called generalizing streams with
  | nil => exact ⟨streams, rfl⟩
  | cons p called ih =>
    have hhead : ∃ streams₁, (w.kinds p).publish flags msg streams = .ok streams₁ := by
      cases hkind : w.kinds p with
      | stream os | file os => exact ⟨_, rfl⟩
      | terminal os useColors =>
        exact ⟨_, if_pos (hgood p List.mem_cons_self os useColors hkind)⟩
    obtain ⟨streams₁, hhead⟩ := hhead
    rw [List.map_cons, List.foldlM_cons, hhead, ok_bind]
    apply ih
    intro q hq os useColors hkind
    have hold := hgood q (List.mem_cons_of_mem p hq) os useColors hkind
    rw [publish_kind hhead]
    by_cases hos : os = (w.kinds p).os
    · subst hos
      rw [Function.update_self, good_put, hold]
    · rw [Function.update_of_ne hos, hold]

theorem accepts_board {msg : Logmsg} {p : Ptr} :
    w.board.Accepts msg p ↔ w.registry.Accepts msg p := by
  unfold Board.Accepts State.Accepts
  show (∃ self kind, (w.registry.objects p).map (fun self => (self, w.kinds p)) =
    some (self, kind) ∧ _) ↔ _
  cases w.registry.objects p with
  | none => simp
  | some self => simp

/-- `publish` writes the message for each publisher that accepts it. -/
theorem publish_writes (hw : w.registry.Routed) (now : UInt64) {lvl : LogLevel}
    (hlvl : lvl ≤ .debug) (sender text : Bytes) (file : Option Bytes) (line : Int)
    (h : w.publish now lvl sender text file line = .ok w') :
    ∃ streams, w.board.Writes w.flags (logmsg now lvl sender text file line) streams ∧
      w' = { w with streams } := by
  obtain ⟨called, hpublish, hnodup, hmem⟩ := publish_routed hw now hlvl sender text file line
  rw [World.publish, hpublish, ok_bind] at h
  unfold World.deliver at h
  cases hstreams : (called.map fun p => (p, logmsg now lvl sender text file line)).foldlM
      (fun streams call => (w.kinds call.1).publish w.flags call.2 streams) w.streams with
  | error e =>
    rw [hstreams] at h
    cases h
  | ok streams =>
    rw [hstreams, ok_bind] at h
    cases h
    refine ⟨streams, ⟨called, hnodup, fun p => ?_, ?_⟩, rfl⟩
    · rw [hmem, accepts_board]
    · refine deliver_writes (fun p hp => ?_) hstreams
      obtain ⟨self, hself, -⟩ := (hmem p).1 hp
      rw [hself]
      exact Option.some_ne_none self

theorem publish_succeeds (hw : w.registry.Routed) (hgood : w.TerminalsGood) (now : UInt64)
    {lvl : LogLevel} (hlvl : lvl ≤ .debug) (sender text : Bytes) (file : Option Bytes)
    (line : Int) : ∃ w', w.publish now lvl sender text file line = .ok w' := by
  obtain ⟨called, hpublish, -, hmem⟩ := publish_routed hw now hlvl sender text file line
  obtain ⟨streams, hstreams⟩ := deliver_succeeds (w := w) called w.flags
    (logmsg now lvl sender text file line) w.streams
    fun p hp os useColors hkind => by
      obtain ⟨self, hself, -⟩ := (hmem p).1 hp
      exact hgood p os useColors (by rw [hself]; exact Option.some_ne_none self) hkind
  refine ⟨{ w with streams }, ?_⟩
  rw [World.publish, hpublish, ok_bind, World.deliver, hstreams]
  rfl

/-- A message at a level that no publisher listens to is not written. -/
theorem writes_nothing {lvl : LogLevel} {flags : Flags} {msg : Logmsg} (hlevel : msg.level = lvl)
    (hnone : ¬ ∃ p, w.registry.Listens lvl p) : w.board.Writes flags msg w.streams := by
  refine ⟨[], List.nodup_nil, fun p => ?_, rfl⟩
  rw [accepts_board]
  refine iff_of_false List.not_mem_nil fun ⟨self, hself, hcovers, _⟩ => hnone ⟨p, self, hself, ?_⟩
  rw [← hlevel]
  exact hcovers

theorem level_message (flags : Flags) (now : UInt64) (lvl : LogLevel) (sender : Bytes)
    (content : Content) : (content.message flags now lvl sender).level = lvl := by
  cases content <;> rfl

/-- A call of a logger, on the board. -/
theorem log_writes (hw : w.registry.Routed) {self : Logger} {lvl : LogLevel}
    (hlvl : lvl ≤ .debug) {now : UInt64} {content : Content}
    (h : w.log self lvl now content = .ok w') :
    if lvl ≤ self.level then
      ∃ streams, w.board.Writes (content.flags w.flags)
        (content.message w.flags now lvl self.name) streams ∧ w' = { w with streams }
    else w' = w := by
  obtain ⟨b, hb, hlistens⟩ := canPublish_routed hw hlvl
  split
  next hle =>
    have hcan : w.canLog self lvl = .ok b := by rw [World.canLog, if_pos hle, hb]
    unfold World.log at h
    rw [hcan, ok_bind] at h
    split at h
    next =>
      cases content with
      | text msg file line => exact publish_writes hw now hlvl self.name msg file line h
      | exception what => exact publish_writes hw now hlvl self.name _ none (-1) h
      | report message file line backtrace =>
        let w₁ : World := { w with flags := { w.flags with printSource := true } }
        cases hpublish : w₁.publish now lvl self.name
            ((if w.flags.printBacktrace then printBacktrace backtrace else []) ++ cStr message)
            (some (cStr file)) line.toUInt32.toInt32.toInt with
        | error e =>
          simp only [World.publishReport] at h
          rw [hpublish] at h
          cases h
        | ok w₂ =>
          simp only [World.publishReport] at h
          rw [hpublish, ok_bind] at h
          cases h
          obtain ⟨streams, hwrites, rfl⟩ :=
            publish_writes (w := w₁) hw now hlvl self.name _ _ _ hpublish
          exact ⟨streams, hwrites, rfl⟩
    next hfalse =>
      cases h
      exact ⟨w.streams, writes_nothing (level_message _ _ _ _ _)
        fun hsome => hfalse (hlistens.2 hsome), rfl⟩
  next hle =>
    unfold World.log at h
    rw [World.canLog, if_neg hle, ok_bind] at h
    cases h
    rfl

theorem log_succeeds (hw : w.registry.Routed) (hgood : w.TerminalsGood) (self : Logger)
    {lvl : LogLevel} (hlvl : lvl ≤ .debug) (now : UInt64) (content : Content) :
    ∃ w', w.log self lvl now content = .ok w' := by
  have hcan : ∃ b, w.canLog self lvl = .ok b := by
    unfold World.canLog
    split
    next =>
      obtain ⟨b, hb, -⟩ := canPublish_routed hw hlvl
      exact ⟨b, hb⟩
    next => exact ⟨false, rfl⟩
  obtain ⟨b, hcan⟩ := hcan
  unfold World.log
  rw [hcan, ok_bind]
  split
  next =>
    cases content with
    | text msg file line => exact publish_succeeds hw hgood now hlvl self.name msg file line
    | exception what => exact publish_succeeds hw hgood now hlvl self.name _ none (-1)
    | report message file line backtrace =>
      obtain ⟨w₁, hw₁⟩ := publish_succeeds
        (w := { w with flags := { w.flags with printSource := true } }) hw hgood now hlvl
        self.name ((if w.flags.printBacktrace then printBacktrace backtrace else []) ++
          cStr message) (some (cStr file)) line.toUInt32.toInt32.toInt
      refine ⟨{ w₁ with flags := { w₁.flags with printSource := w.flags.printSource } }, ?_⟩
      simp only [World.publishReport]
      rw [hw₁]
      rfl
  next => exact ⟨w, rfl⟩

/-! ## Every call -/

/-- A call that changes one publisher. -/
theorem board_modifies {registry : State} {this : Ptr} {self : Publisher}
    {f : Publisher → Publisher} (hself : w.registry.objects this = some self)
    (hobjects : registry.objects = Function.update w.registry.objects this (some (f self))) :
    w.board.Modifies this f ({ w with registry } : World).board := by
  refine ⟨self, w.kinds this, ?_, ?_⟩
  · show (w.registry.objects this).map _ = _
    rw [hself, Option.map_some]
  · simp only [World.board, hobjects, Board.mk.injEq, and_true]
    funext p
    by_cases hp : p = this
    · subst hp
      rw [Function.update_self, Function.update_self, Option.map_some]
    · rw [Function.update_of_ne hp, Function.update_of_ne hp]

/-- A filter that is added. -/
theorem board_addFilter (hw : w.registry.Routed) {this : Ptr} (filter : Logmsg → Bool)
    (hlive : w.registry.objects this ≠ none) :
    ∃ registry, w.registry.addFilter this filter = .ok registry ∧ registry.Routed ∧
      w.board.Modifies this (fun self => { self with filters := self.filters ++ [filter] })
        ({ w with registry } : World).board := by
  obtain ⟨registry, hadd, hrouted⟩ :
      ∃ registry, w.registry.addFilter this filter = .ok registry ∧ registry.Routed :=
    addFilter_routed hw hlive
  obtain ⟨self, hself⟩ := Option.ne_none_iff_exists'.1 hlive
  exact ⟨registry, hadd, hrouted, board_modifies hself (objects_addFilter hself hadd)⟩

/-- Each call of the code is one on the board, and the registry keeps its invariant. -/
theorem board_step (hw : w.registry.Routed) {c : Call} (he : w.Enabled c)
    (h : w.step c = .ok w') : w.board.Step c w'.board ∧ w'.registry.Routed := by
  cases c with
  | construct this kind opened =>
    have hfree : w.registry.objects this = none := he
    obtain ⟨registry, hconstruct, hrouted⟩ :
        ∃ registry, w.registry.construct this .error .debug = .ok registry ∧ registry.Routed :=
      construct_routed hw hfree (by decide) (by decide)
    simp only [World.step, World.construct] at h
    rw [hconstruct, ok_bind] at h
    cases h
    refine ⟨⟨?_, ?_⟩, hrouted⟩
    · show (w.registry.objects this).map _ = none
      rw [hfree, Option.map_none]
    · simp only [World.board, objects_construct (by decide) hconstruct, Board.mk.injEq, and_true]
      funext p
      by_cases hp : p = this
      · subst hp
        rw [Function.update_self, Function.update_self, Function.update_self, Option.map_some]
      · rw [Function.update_of_ne hp, Function.update_of_ne hp, Function.update_of_ne hp]
  | setLevel this min max =>
    obtain ⟨hlive, hmin, hmax⟩ := he
    obtain ⟨self, hself⟩ := Option.ne_none_iff_exists'.1 hlive
    obtain ⟨registry, hset, hrouted⟩ := setLevel_routed hw hlive hmin hmax
    simp only [World.step] at h
    rw [hset, ok_bind] at h
    cases h
    exact ⟨board_modifies (f := fun self => { self with min := min, max := max }) hself
      (objects_setLevel hw hself hmax hset), hrouted⟩
  | filter this filter =>
    obtain ⟨registry, hadd, hrouted, hboard⟩ := board_addFilter hw filter he
    simp only [World.step] at h
    rw [hadd, ok_bind] at h
    cases h
    exact ⟨hboard, hrouted⟩
  | filterTime this t0 t1 =>
    obtain ⟨registry, hadd, hrouted, hboard⟩ := board_addFilter hw (timeFilter t0 t1) he
    simp only [World.step] at h
    rw [hadd, ok_bind] at h
    cases h
    exact ⟨hboard, hrouted⟩
  | filterSource this file line =>
    obtain ⟨registry, hadd, hrouted, hboard⟩ :=
      board_addFilter hw (sourceFilter file line) he
    simp only [World.step] at h
    rw [hadd, ok_bind] at h
    cases h
    exact ⟨hboard, hrouted⟩
  | destroy this =>
    obtain ⟨registry, hdestroy, hrouted⟩ := destroy_routed hw he
    simp only [World.step] at h
    rw [hdestroy, ok_bind] at h
    cases h
    refine ⟨?_, hrouted⟩
    simp only [Board.Step, World.board, objects_destroy hw hdestroy, Board.mk.injEq, and_true]
    funext p
    by_cases hp : p = this
    · subst hp
      rw [Function.update_self, Function.update_self, Option.map_none]
    · rw [Function.update_of_ne hp, Function.update_of_ne hp]
  | setFlags flags =>
    cases h
    exact ⟨rfl, hw⟩
  | broken os =>
    cases h
    exact ⟨rfl, hw⟩
  | log self lvl now content =>
    have hlog := log_writes hw he h
    show (if lvl ≤ self.level then _ else _) ∧ _
    split at hlog
    next hle =>
      obtain ⟨streams, hwrites, rfl⟩ := hlog
      rw [if_pos hle]
      exact ⟨⟨streams, hwrites, rfl⟩, hw⟩
    next hle =>
      subst hlog
      rw [if_neg hle]
      exact ⟨rfl, hw⟩

/-- A call that may be made succeeds if all terminals are in order. -/
theorem step_succeeds (hw : w.registry.Routed) (hgood : w.TerminalsGood) {c : Call}
    (he : w.Enabled c) : ∃ w', w.step c = .ok w' := by
  cases c with
  | construct this kind opened =>
    obtain ⟨registry, hconstruct, -⟩ :
        ∃ registry, w.registry.construct this .error .debug = .ok registry ∧ registry.Routed :=
      construct_routed hw he (by decide) (by decide)
    exact ⟨_, by simp only [World.step, World.construct]; rw [hconstruct, ok_bind]⟩
  | setLevel this min max =>
    obtain ⟨registry, hset, -⟩ := setLevel_routed hw he.1 he.2.1 he.2.2
    exact ⟨_, by simp only [World.step]; rw [hset, ok_bind]⟩
  | filter this filter =>
    obtain ⟨registry, hadd, -⟩ := board_addFilter hw filter he
    exact ⟨_, by simp only [World.step]; rw [hadd, ok_bind]⟩
  | filterTime this t0 t1 =>
    obtain ⟨registry, hadd, -⟩ := board_addFilter hw (timeFilter t0 t1) he
    exact ⟨_, by simp only [World.step]; rw [hadd, ok_bind]⟩
  | filterSource this file line =>
    obtain ⟨registry, hadd, -⟩ := board_addFilter hw (sourceFilter file line) he
    exact ⟨_, by simp only [World.step]; rw [hadd, ok_bind]⟩
  | destroy this =>
    obtain ⟨registry, hdestroy, -⟩ := destroy_routed hw he
    exact ⟨_, by simp only [World.step]; rw [hdestroy, ok_bind]⟩
  | setFlags flags => exact ⟨_, rfl⟩
  | broken os => exact ⟨_, rfl⟩
  | log self lvl now content => exact log_succeeds hw hgood self he now content

/-! ## Runs -/

theorem reachable_registry (h : outputSystem.Reachable w) : w.registry.Routed := by
  refine h.invariant (I := fun w => w.registry.Routed) ?_ ?_
  · rintro w rfl
    exact routed_empty
  · rintro w c w' _ hw ⟨he, hstep⟩
    exact (board_step hw he hstep).2

/-- A history of calls. -/
def record (c : Call) (calls : List Call) : List Call := calls ++ [c]

/-- Every run of the code is a run on the board, call by call: a message that a logger lets pass
is written to the streams once for each publisher that accepts it, and nothing else is written.
No call fails as long as the streams of the terminals do not. -/
theorem output_refines {calls : List Call}
    (h : (outputSystem.withHistory [] record).Reachable (w, calls)) :
    (boardSystem.withHistory [] record).Reachable (w.board, calls) ∧
      (w.TerminalsGood → ∀ c, w.Enabled c → ∃ w', w.step c = .ok w') := by
  have hboard : ∀ p, (outputSystem.withHistory [] record).Reachable p →
      (boardSystem.withHistory [] record).Reachable (p.1.board, p.2) := by
    intro p hp
    induction hp with
    | init hp =>
      obtain ⟨hinit, hnil⟩ := hp
      refine .init ⟨?_, hnil⟩
      show World.board _ = _
      rw [hinit]
      rfl
    | step hp hstep ih =>
      obtain ⟨⟨he, hstep⟩, hrecord⟩ := hstep
      exact .step ih ⟨(board_step (reachable_registry hp.fst) he hstep).1, hrecord⟩
  exact ⟨hboard _ h, fun hgood c he => step_succeeds (reachable_registry h.fst) hgood he⟩

/-- A message of two lines. -/
def greeting : Call :=
  .log ⟨str "cpu", .info⟩ .info 1500000000 (.text (str "it's\nrunning") none (-1))

theorem output_refines_greeting :
    ∃ w, World.initial.step (.construct 1 (.stream 7) true) >>= (·.step greeting) = .ok w ∧
      (w.streams 7).content =
        str "[I 1.500000000] cpu: it's\n[I 1.500000000] cpu: running\n" ∧
      (boardSystem.withHistory [] record).Reachable
        (w.board, [.construct 1 (.stream 7) true, greeting]) := by
  have hcontent : (World.initial.step (.construct 1 (.stream 7) true) >>= (·.step greeting)).map
      (fun w => (w.streams 7).content) =
      .ok (str "[I 1.500000000] cpu: it's\n[I 1.500000000] cpu: running\n") := by
    decide +kernel
  cases h₁ : World.initial.step (.construct 1 (.stream 7) true) with
  | error e =>
    rw [h₁] at hcontent
    cases hcontent
  | ok w₁ =>
    rw [h₁, ok_bind] at hcontent
    cases h₂ : w₁.step greeting with
    | error e =>
      rw [h₂] at hcontent
      cases hcontent
    | ok w =>
      rw [h₂] at hcontent
      have hfirst : (outputSystem.withHistory [] record).Reachable
          (w₁, [.construct 1 (.stream 7) true]) :=
        .step (s := (World.initial, [])) (e := .construct 1 (.stream 7) true)
          (.init ⟨rfl, rfl⟩) ⟨⟨rfl, h₁⟩, rfl⟩
      have hlvl : LogLevel.info ≤ .debug := by decide
      exact ⟨w, h₂, Except.ok.inj hcontent,
        (output_refines (.step (e := greeting) hfirst ⟨⟨hlvl, h₂⟩, rfl⟩)).1⟩

end Mwr.Logging
