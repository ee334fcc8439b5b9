import Mwr.CodeLib.Framing
import Mwr.ServerSocket.Session

/-!
# What a session delivers

The messages of a connection arrive whole and in the order in which they were sent, whatever the
threads of both sides do.

* `Sound` is the invariant, and `sound_step` its step lemma.
* `session_in_order` is the result: a message that is received is the message that was sent.
-/

namespace Mwr.Session

open Mwr.CodeLib
open Mwr.CodeLib.Framing (Framed)
open Mwr.CodeLib.Transition (System)

/-! ## The invariant -/

/-- What the calls of a side in one direction have moved. -/
def State.passed (s : State) (side : Side) : Direction → Bytes
  | .send => (s.streams side).accepted
  | .recv => (s.streams side.other).accepted.take (s.streams side.other).delivered

/-- The part of a call that is done. -/
def Call.part (c : Call) : Bytes := c.buffer.take c.n

/-- One side in one direction. -/
structure Endpoint.Sound (e : Endpoint) (dir : Direction) (passed : Bytes) : Prop where
  framed : Framed (e.returned dir) ((e.calls dir).map Call.part) e.conn passed
  /-- A call stays in its buffer. -/
  inside : ∀ c ∈ e.calls dir, c.n ≤ c.buffer.length

/-- The data of the calls of `send` that have returned, and of the call in progress. -/
def Endpoint.messages (e : Endpoint) : List Bytes :=
  e.returned .send ++ (e.calls .send).toList.map Call.buffer

/-- The data that a side has been given. -/
structure Endpoint.Gives (e : Endpoint) (accepted : Bytes) : Prop where
  /-- No call has failed as long as the side is connected. -/
  given : e.conn = true → e.given = e.messages
  accepted : accepted <+: e.given.flatten

structure State.Sound (s : State) : Prop where
  ends : ∀ side dir, (s.ends side).Sound dir (s.passed side dir)
  gives : ∀ side, (s.ends side).Gives (s.streams side).accepted
  delivered : ∀ side, (s.streams side).delivered ≤ (s.streams side).accepted.length

/-! ## The parts of the loops -/

namespace Endpoint

variable {e e' : Endpoint} {dir d : Direction} {c : Call} {passed xs : Bytes}

/-- What a call in one direction leaves alone. -/
structure Frames (dir : Direction) (e e' : Endpoint) : Prop where
  conn : e'.conn = true → e.conn = true
  calls : ∀ d, d ≠ dir → e'.calls d = e.calls d
  returned : ∀ d, d ≠ dir → e'.returned d = e.returned d

theorem Sound.frame (h : e.Sound d passed) (hf : Frames dir e e') (hd : d ≠ dir) :
    e'.Sound d passed := by
  have hcalls := hf.calls d hd
  refine ⟨?_, ?_⟩
  · rw [hcalls, hf.returned d hd]
    exact h.framed.close hf.conn
  · rw [hcalls]
    exact h.inside

@[simp] theorem calls_setCall_self (call : Option Call) :
    (e.setCall dir call).calls dir = call := by
  unfold setCall
  exact Function.update_self dir call e.calls

theorem calls_setCall_ne (call : Option Call) (hd : d ≠ dir) :
    (e.setCall dir call).calls d = e.calls d := by
  unfold setCall
  exact Function.update_of_ne hd call e.calls

theorem frames_setCall (call : Option Call) : Frames dir e (e.setCall dir call) :=
  ⟨id, fun _ hd => calls_setCall_ne call hd, fun _ _ => rfl⟩

theorem frames_advance : Frames dir e (e.advance dir c) := by
  unfold advance
  split
  next => exact frames_setCall _
  next => exact ⟨id, fun d hd => calls_setCall_ne none hd, fun d hd => Function.update_of_ne hd _ _⟩

theorem sound_setCall (hframed : Framed (e.returned dir) (some c.part) e.conn passed)
    (hn : c.n ≤ c.buffer.length) : (e.setCall dir (some c)).Sound dir passed := by
  refine ⟨?_, ?_⟩
  · rw [calls_setCall_self]
    exact hframed
  · intro c' hc'
    rw [calls_setCall_self] at hc'
    cases hc'
    exact hn

theorem sound_advance (hframed : Framed (e.returned dir) (some c.part) e.conn passed)
    (hn : c.n ≤ c.buffer.length) : (e.advance dir c).Sound dir passed := by
  unfold advance
  split
  next => exact sound_setCall (c := { c with pc := .loop }) hframed hn
  next hge =>
    -- the whole buffer has been moved
    have hpart : c.part = c.buffer := List.take_of_length_le (Nat.le_of_not_lt hge)
    rw [hpart] at hframed
    refine ⟨?_, ?_⟩
    · show Framed (Function.update e.returned dir _ dir)
        (((e.setCall dir none).calls dir).map _) _ _
      rw [Function.update_self, calls_setCall_self]
      exact hframed.finish
    · intro c' hc'
      change c' ∈ (e.setCall dir none).calls dir at hc'
      rw [calls_setCall_self] at hc'
      cases hc'

/-- A call ends with a report, on a side that is not connected any more. -/
theorem sound_throw (h : e.Sound dir passed) (hconn : e.conn = false) (message : String) :
    (e.throw dir message).Sound dir passed := by
  refine ⟨?_, ?_⟩
  · show Framed (e.returned dir) (((e.setCall dir none).calls dir).map _) e.conn passed
    rw [calls_setCall_self, hconn]
    have hframed := h.framed
    rw [hconn] at hframed
    cases hcall : e.calls dir with
    | none =>
      rw [hcall] at hframed
      exact hframed
    | some c =>
      rw [hcall] at hframed
      exact hframed.fail
  · intro c' hc'
    change c' ∈ (e.setCall dir none).calls dir at hc'
    rw [calls_setCall_self] at hc'
    cases hc'

/-! ### The data of `send` -/

theorem messages_setCall (h : e.calls dir = some c) {c' : Call} (hbuffer : c'.buffer = c.buffer) :
    (e.setCall dir (some c')).messages = e.messages := by
  unfold messages
  cases dir with
  | send =>
    rw [calls_setCall_self, h]
    show e.returned .send ++ [c'.buffer] = e.returned .send ++ [c.buffer]
    rw [hbuffer]
  | recv => rw [calls_setCall_ne _ (by decide)]; rfl

theorem messages_advance_send : (e.advance .send c).messages = e.returned .send ++ [c.buffer] := by
  unfold advance messages
  split
  next => rw [calls_setCall_self]; rfl
  next =>
    show Function.update e.returned .send _ .send ++
      ((e.setCall .send none).calls .send).toList.map Call.buffer = _
    rw [Function.update_self, calls_setCall_self]
    exact List.append_nil _

theorem messages_advance_recv : (e.advance .recv c).messages = e.messages := by
  have hframes : Frames .recv e (e.advance .recv c) := frames_advance
  unfold messages
  rw [hframes.calls .send (by decide), hframes.returned .send (by decide)]

theorem messages_advance (h : e.calls dir = some c) {c' : Call} (hbuffer : dir = .send →
    c'.buffer = c.buffer) : (e.advance dir c').messages = e.messages := by
  cases dir with
  | send =>
    rw [messages_advance_send, messages, h, hbuffer rfl]
    rfl
  | recv => exact messages_advance_recv

@[simp] theorem given_advance : (e.advance dir c).given = e.given := by
  unfold advance
  split <;> rfl

@[simp] theorem conn_advance : (e.advance dir c).conn = e.conn := by
  unfold advance
  split <;> rfl

/-! ### One step of a call -/

/-- A step that moves nothing. -/
structure Keeps (dir : Direction) (e e' : Endpoint) : Prop where
  frames : Frames dir e e'
  sound : ∀ passed, e.Sound dir passed → e'.Sound dir passed
  gives : ∀ accepted, e.Gives accepted → e'.Gives accepted

theorem keeps_begin (side : Side) (buffer : Bytes) (h : e.calls dir = none) :
    Keeps dir e (e.begin dir side buffer) := by
  have hstart : ∀ passed, e.Sound dir passed →
      Framed (e.returned dir) (some (⟨buffer, 0, .loop⟩ : Call).part) e.conn passed := by
    intro passed hs
    have hframed := hs.framed
    rw [h] at hframed
    exact hframed.start
  have hgiven : ∀ accepted : Bytes, ∀ e' : Endpoint, e.Gives accepted → e'.conn = e.conn →
      e'.given = (if dir = Direction.send then e.given ++ [buffer] else e.given) →
      (dir = .send → e'.messages = e.returned .send ++ [buffer]) →
      (dir = .recv → e'.messages = e.messages) → e'.Gives accepted := by
    intro accepted e' hg hconn hgiven hsend hrecv
    refine ⟨fun hopen => ?_, ?_⟩
    · rw [hconn] at hopen
      cases dir with
      | send =>
        rw [hgiven, hsend rfl, if_pos rfl, hg.given hopen, messages, h]
        exact congrArg (· ++ [buffer]) (List.append_nil _)
      | recv =>
        rw [hgiven, hrecv rfl, if_neg (by decide)]
        exact hg.given hopen
    · rw [hgiven]
      split
      next =>
        rw [List.flatten_append]
        exact hg.accepted.trans (List.prefix_append _ _)
      next => exact hg.accepted
  cases side with
  | client =>
    refine ⟨⟨id, fun d hd => calls_setCall_ne _ hd, fun _ _ => rfl⟩, fun passed hs => ?_,
      fun accepted hg => hgiven accepted _ hg rfl rfl ?_ ?_⟩
    · exact sound_setCall (hstart passed hs) (Nat.zero_le _)
    · rintro rfl
      show _ ++ ((setCall _ .send _).calls .send).toList.map Call.buffer = _
      rw [calls_setCall_self]
      rfl
    · rintro rfl
      show _ ++ ((setCall _ .recv _).calls .send).toList.map Call.buffer = _
      rw [calls_setCall_ne _ (by decide)]
      rfl
  | server =>
    refine ⟨⟨?_, ?_, ?_⟩, fun passed hs => ?_, fun accepted hg => hgiven accepted _ hg ?_ ?_ ?_ ?_⟩
    · intro hopen
      have hconn : (e.begin dir .server buffer).conn = e.conn := conn_advance
      rw [hconn] at hopen
      exact hopen
    · exact frames_advance.calls
    · exact frames_advance.returned
    · exact sound_advance (hstart passed hs) (Nat.zero_le _)
    · exact conn_advance
    · exact given_advance
    · rintro rfl
      exact messages_advance_send
    · rintro rfl
      exact messages_advance_recv

theorem keeps_throw (h : e.conn = false) (message : String) :
    Keeps dir e (e.throw dir message) := by
  refine ⟨⟨id, fun d hd => calls_setCall_ne none hd, fun _ _ => rfl⟩,
    fun passed hs => sound_throw hs h message, fun accepted hg => ⟨fun hopen => ?_, hg.accepted⟩⟩
  change e.conn = true at hopen
  rw [h] at hopen
  cases hopen

theorem keeps_setPc (h : e.calls dir = some c) (pc : Pc) :
    Keeps dir e (e.setCall dir (some { c with pc := pc })) := by
  refine ⟨frames_setCall _, fun passed hs => ?_, fun accepted hg => ⟨fun hopen => ?_, hg.accepted⟩⟩
  · have hframed := hs.framed
    rw [h] at hframed
    exact sound_setCall (c := { c with pc := pc }) hframed (hs.inside c h)
  · have hmessages :=
      messages_setCall h (show ({ c with pc := pc } : Call).buffer = c.buffer from rfl)
    rw [hmessages]
    exact hg.given hopen

theorem keeps_check (h : e.calls dir = some c) : Keeps dir e (e.check dir c) := by
  unfold check
  split
  next hconn =>
    refine ⟨frames_advance, fun passed hs => ?_, fun accepted hg => ⟨fun hopen => ?_, ?_⟩⟩
    · have hframed := hs.framed
      rw [h] at hframed
      exact sound_advance hframed (hs.inside c h)
    · rw [given_advance, messages_advance h fun _ => rfl]
      exact hg.given (frames_advance.conn hopen)
    · rw [given_advance]
      exact hg.accepted
  next hconn => exact keeps_throw (Bool.eq_false_iff.2 hconn) _

theorem keeps_readConn (side : Side) (client : Int) (h : e.calls dir = some c) :
    Keeps dir e (e.readConn dir side client c) := by
  cases side with
  | client => exact keeps_setPc h _
  | server =>
    unfold readConn
    dsimp only
    split
    next => exact keeps_setPc h _
    next hconn => exact keeps_throw (Bool.eq_false_iff.2 hconn) _

theorem keeps_disconnect : Keeps dir e { e with conn := false } :=
  ⟨⟨nofun, fun _ _ => rfl, fun _ _ => rfl⟩, fun _ hs => ⟨hs.framed.close nofun, hs.inside⟩,
    fun _ hg => ⟨nofun, hg.accepted⟩⟩

theorem Keeps.trans {e'' : Endpoint} (h : Keeps dir e e') (h' : Keeps dir e' e'') :
    Keeps dir e e'' where
  frames := ⟨fun ho => h.frames.conn (h'.frames.conn ho),
    fun d hd => (h'.frames.calls d hd).trans (h.frames.calls d hd),
    fun d hd => (h'.frames.returned d hd).trans (h.frames.returned d hd)⟩
  sound passed hs := h'.sound passed (h.sound passed hs)
  gives accepted hg := h'.gives accepted (h.gives accepted hg)

theorem keeps_fail (reason : String) : Keeps dir e (e.fail dir reason) := by
  have hdisconnect : Keeps dir e { e with conn := false } := keeps_disconnect
  cases dir with
  | send => exact hdisconnect.trans (keeps_throw rfl _)
  | recv => exact hdisconnect.trans (keeps_throw rfl _)

/-! ### A piece -/

theorem frames_moved : Frames dir e (e.moved dir c xs) := frames_advance

theorem sound_moved (h : e.calls dir = some c) (hconn : e.conn = true) (hs : e.Sound dir passed) :
    (e.moved dir c xs).Sound dir (passed ++ xs) := by
  have hinside := hs.inside c h
  have hlength : (c.buffer.take c.n).length = c.n := List.length_take_of_le hinside
  have hframed := hs.framed
  rw [h, hconn] at hframed
  have hmove := hframed.move xs
  rw [← hconn] at hmove
  refine sound_advance ?_ ?_
  · have hpart : (c.buffer.take c.n ++ xs ++ c.buffer.drop (c.n + xs.length)).take
        (c.n + xs.length) = c.buffer.take c.n ++ xs := by
      refine List.take_left' ?_
      rw [List.length_append, hlength]
    show Framed _ (some (List.take (c.n + xs.length) _)) _ _
    rw [hpart]
    exact hmove
  · show c.n + xs.length ≤ (c.buffer.take c.n ++ xs ++ c.buffer.drop (c.n + xs.length)).length
    rw [List.length_append, List.length_append, hlength]
    exact Nat.le_add_right _ _

/-- `send` reads its buffer only. -/
theorem buffer_send (c : Call) (r : Nat) (hr : ((c.buffer.drop c.n).take r).length = r) :
    c.buffer.take c.n ++ (c.buffer.drop c.n).take r ++
      c.buffer.drop (c.n + ((c.buffer.drop c.n).take r).length) = c.buffer := by
  rw [hr, ← List.drop_drop, List.append_assoc, List.take_append_drop, List.take_append_drop]

theorem gives_moved_send {accepted : Bytes} {r : Nat} (h : e.calls .send = some c)
    (hconn : e.conn = true) (hs : e.Sound .send accepted) (hg : e.Gives accepted)
    (hr : ((c.buffer.drop c.n).take r).length = r) :
    (e.moved .send c ((c.buffer.drop c.n).take r)).Gives
      (accepted ++ (c.buffer.drop c.n).take r) := by
  have hbuffer := buffer_send c r hr
  have hgiven := hg.given hconn
  refine ⟨fun hopen => ?_, ?_⟩
  · unfold moved
    rw [given_advance, messages_advance h fun _ => hbuffer]
    exact hgiven
  · unfold moved
    rw [given_advance, hgiven, messages, h]
    obtain ⟨rest, hpassed, hpart, -⟩ := hs.framed
    have hrest : rest = c.buffer.take c.n := hpart _ (by rw [h]; rfl) (.inr hconn)
    rw [hpassed, hrest, List.flatten_append, List.append_assoc]
    refine List.prefix_append_right_inj _ |>.2 ?_
    show _ <+: [c.buffer].flatten
    rw [List.flatten_singleton]
    conv => rhs; rw [← hbuffer]
    exact List.prefix_append _ _

theorem gives_moved_recv {accepted : Bytes} (hg : e.Gives accepted) :
    (e.moved .recv c xs).Gives accepted := by
  unfold moved
  refine ⟨fun hopen => ?_, ?_⟩
  · rw [given_advance, messages_advance_recv]
    rw [conn_advance] at hopen
    exact hg.given hopen
  · rw [given_advance]
    exact hg.accepted

end Endpoint

/-! ## The steps -/

section Steps

variable {s s' : State} {side : Side} {client : Int}

@[simp] theorem Side.other_other (side : Side) : side.other.other = side := by
  cases side <;> rfl

/-- What a step on a side does. -/
inductive Moves (s : State) (side : Side) : State → Prop
  | keep (dir : Direction) (e : Endpoint) (h : Endpoint.Keeps dir (s.ends side) e) :
      Moves s side (s.setEnd side e)
  | piece (dir : Direction) (c : Call) (r : Nat) (hcall : (s.ends side).calls dir = some c)
      (hconn : (s.ends side).conn = true) (hr : r ≤ c.buffer.length - c.n)
      (hlength : (s.piece side c r dir).length = r) :
      Moves s side
        { ends := Function.update s.ends side ((s.ends side).moved dir c (s.piece side c r dir))
          streams := s.pass side (s.piece side c r dir) dir }

theorem moves_of_step {act : Act} (h : step client s (side, act) = some s') : Moves s side s' := by
  cases act with
  | call dir buffer =>
    simp only [step, Option.ite_none_right_eq_some, Option.isNone_iff_eq_none] at h
    obtain ⟨hnone, heq⟩ := h
    cases heq
    exact .keep dir _ (Endpoint.keeps_begin side buffer hnone)
  | check dir =>
    simp only [step] at h
    split at h
    next c heq =>
      cases h
      exact .keep dir _ (Endpoint.keeps_check heq)
    next => cases h
  | read dir =>
    simp only [step] at h
    split at h
    next c heq =>
      cases h
      exact .keep dir _ (Endpoint.keeps_readConn side client heq)
    next => cases h
  | chunk dir r =>
    simp only [step] at h
    split at h
    next c conn heq =>
      split at h
      next reason =>
        cases h
        exact .keep dir _ (Endpoint.keeps_fail reason)
      next =>
        cases h
        exact .keep dir _ (Endpoint.keeps_fail _)
      next r _ =>
        rw [Option.ite_none_right_eq_some] at h
        obtain ⟨⟨-, hconn, hr, hlength⟩, heq'⟩ := h
        cases heq'
        exact .piece dir _ r heq hconn hr hlength
    next => cases h
  | disconnect =>
    simp only [step] at h
    cases h
    exact .keep .send _ Endpoint.keeps_disconnect

theorem sound_initial : initial.Sound where
  ends _ dir := by
    refine ⟨?_, nofun⟩
    cases dir <;> exact Framing.framed_nil
  gives _ := ⟨fun _ => rfl, List.prefix_refl _⟩
  delivered _ := Nat.zero_le _

/-- A side whose end and whose streams are as they were. -/
theorem sound_ends_keep (h : s.Sound) {dir : Direction} {e : Endpoint}
    (hkeep : Endpoint.Keeps dir (s.ends side) e) : (s.setEnd side e).Sound := by
  refine ⟨fun side' d => ?_, fun side' => ?_, h.delivered⟩
  · show (Function.update s.ends side e side').Sound d (s.passed side' d)
    by_cases hside : side' = side
    · subst hside
      rw [Function.update_self]
      by_cases hd : d = dir
      · subst hd
        exact hkeep.sound _ (h.ends side' d)
      · exact (h.ends side' d).frame hkeep.frames hd
    · rw [Function.update_of_ne hside]
      exact h.ends side' d
  · show (Function.update s.ends side e side').Gives (s.streams side').accepted
    by_cases hside : side' = side
    · subst hside
      rw [Function.update_self]
      exact hkeep.gives _ (h.gives side')
    · rw [Function.update_of_ne hside]
      exact h.gives side'

section Piece

variable {c : Call} {r : Nat} {dir : Direction}

/-- What a piece leaves alone: the streams do not mix, and what was accepted does not change. -/
theorem passed_pass_of_ne (h : s.Sound) (xs : Bytes) (ends : Side → Endpoint) {side' : Side}
    {d : Direction} (hne : ¬ (side' = side ∧ d = dir)) :
    State.passed { ends := ends, streams := s.pass side xs dir } side' d = s.passed side' d := by
  cases dir with
  | send =>
    cases d with
    | send =>
      have hside : side' ≠ side := fun heq => hne ⟨heq, rfl⟩
      show (Function.update s.streams side _ side').accepted = _
      rw [Function.update_of_ne hside]
      rfl
    | recv =>
      show (Function.update s.streams side _ side'.other).accepted.take
        (Function.update s.streams side _ side'.other).delivered = _
      by_cases hside : side'.other = side
      · -- what was handed out is a part of what had been accepted before
        rw [hside, Function.update_self]
        show List.take _ (_ ++ xs) = List.take (s.streams side'.other).delivered _
        rw [hside, List.take_append_of_le_length (h.delivered side)]
      · rw [Function.update_of_ne hside]
        rfl
  | recv =>
    cases d with
    | send =>
      show (Function.update s.streams side.other _ side').accepted = _
      by_cases hside : side' = side.other
      · rw [hside, Function.update_self]
        rfl
      · rw [Function.update_of_ne hside]
        rfl
    | recv =>
      have hside : side'.other ≠ side.other := by
        intro heq
        refine hne ⟨?_, rfl⟩
        rw [← side'.other_other, heq, side.other_other]
      show (Function.update s.streams side.other _ side'.other).accepted.take
        (Function.update s.streams side.other _ side'.other).delivered = _
      rw [Function.update_of_ne hside]
      rfl

theorem passed_pass (ends : Side → Endpoint) (hlength : (s.piece side c r dir).length = r) :
    State.passed { ends := ends, streams := s.pass side (s.piece side c r dir) dir } side dir =
      s.passed side dir ++ s.piece side c r dir := by
  cases dir with
  | send =>
    show (Function.update s.streams side _ side).accepted = _
    rw [Function.update_self]
    rfl
  | recv =>
    show (Function.update s.streams side.other _ side.other).accepted.take
      (Function.update s.streams side.other _ side.other).delivered = _
    rw [Function.update_self]
    show List.take (_ + _) _ = _
    rw [hlength, List.take_add]
    rfl

theorem delivered_pass (h : s.Sound) (hlength : (s.piece side c r dir).length = r) (side' : Side) :
    (s.pass side (s.piece side c r dir) dir side').delivered ≤
      (s.pass side (s.piece side c r dir) dir side').accepted.length := by
  have hold := h.delivered side'
  cases dir with
  | send =>
    show (Function.update s.streams side _ side').delivered ≤
      (Function.update s.streams side _ side').accepted.length
    by_cases hside : side' = side
    · subst hside
      rw [Function.update_self]
      refine Nat.le_trans hold ?_
      rw [List.length_append]
      exact Nat.le_add_right _ _
    · rw [Function.update_of_ne hside]
      exact hold
  | recv =>
    show (Function.update s.streams side.other _ side').delivered ≤
      (Function.update s.streams side.other _ side').accepted.length
    by_cases hside : side' = side.other
    · subst hside
      rw [Function.update_self]
      show _ + (s.piece side c r .recv).length ≤ (s.streams side.other).accepted.length
      have hle : (s.piece side c r .recv).length ≤
          (s.streams side.other).accepted.length - (s.streams side.other).delivered := by
        show ((List.drop _ _).take r).length ≤ _
        rw [List.length_take, List.length_drop]
        exact Nat.min_le_right _ _
      omega
    · rw [Function.update_of_ne hside]
      exact hold

/-- A system call moves a piece. -/
theorem sound_piece (h : s.Sound) (hcall : (s.ends side).calls dir = some c)
    (hconn : (s.ends side).conn = true) (hlength : (s.piece side c r dir).length = r) :
    State.Sound
      { ends := Function.update s.ends side ((s.ends side).moved dir c (s.piece side c r dir))
        streams := s.pass side (s.piece side c r dir) dir } := by
  have hsound := h.ends side dir
  refine ⟨fun side' d => ?_, fun side' => ?_, delivered_pass h hlength⟩
  · by_cases hhere : side' = side ∧ d = dir
    · obtain ⟨rfl, rfl⟩ := hhere
      rw [passed_pass _ hlength]
      show (Function.update s.ends side' _ side').Sound d _
      rw [Function.update_self]
      exact Endpoint.sound_moved hcall hconn hsound
    · rw [passed_pass_of_ne h _ _ hhere]
      show (Function.update s.ends side _ side').Sound d _
      by_cases hside : side' = side
      · subst hside
        rw [Function.update_self]
        exact (h.ends side' d).frame Endpoint.frames_moved fun hd => hhere ⟨rfl, hd⟩
      · rw [Function.update_of_ne hside]
        exact h.ends side' d
  · -- what a side has sent is what its calls of `send` have moved
    show (Function.update s.ends side _ side').Gives
      (State.passed ⟨fun _ => s.ends side, s.pass side (s.piece side c r dir) dir⟩ side' .send)
    by_cases hside : side' = side
    · subst hside
      rw [Function.update_self]
      cases dir with
      | send =>
        rw [passed_pass _ hlength]
        exact Endpoint.gives_moved_send hcall hconn hsound (h.gives side') hlength
      | recv =>
        rw [passed_pass_of_ne h _ _ (by simp)]
        exact Endpoint.gives_moved_recv (h.gives side')
    · rw [Function.update_of_ne hside, passed_pass_of_ne h _ _ fun hand => hside hand.1]
      exact h.gives side'

end Piece

/-- Every step keeps the invariant. -/
theorem sound_step {act : Act} (h : s.Sound) (hstep : step client s (side, act) = some s') :
    s'.Sound := by
  cases moves_of_step hstep with
  | keep dir e hkeep => exact sound_ends_keep h hkeep
  | piece dir c r hcall hconn _ hlength => exact sound_piece h hcall hconn hlength

theorem sound_of_reachable (h : (system client).Reachable s) : s.Sound := by
  refine System.Reachable.invariant ?_ ?_ h
  · rintro _ rfl
    exact sound_initial
  · rintro s ⟨side, act⟩ s' - hs hstep
    exact sound_step hs hstep

end Steps

/-! ## The result -/

/-- In every state of a session, for each of its two directions: what the returned calls of `recv`
on one side have read is, one behind the other, the beginning of what the calls of `send` on the
other side were given, whatever part of it each system call moved and whoever disconnected; and as
long as the sizes of the first `k` messages on the two sides agree, the messages themselves do. -/
theorem session_in_order (client : Int) {s : State} (h : (system client).Reachable s)
    (side : Side) :
    ((s.ends side.other).returned .recv).flatten <+: (s.ends side).given.flatten ∧
      ∀ k, (((s.ends side.other).returned .recv).take k).map List.length =
          (((s.ends side).returned .send).take k).map List.length →
        ((s.ends side.other).returned .recv).take k = ((s.ends side).returned .send).take k := by
  have hsound := sound_of_reachable h
  have hin := (hsound.ends side .send).framed
  have hout := (hsound.ends side.other .recv).framed
  have hstream : s.passed side.other .recv <+: s.passed side .send := by
    show List.take (s.streams side.other.other).delivered
      (s.streams side.other.other).accepted <+: _
    rw [side.other_other]
    exact List.take_prefix _ _
  refine ⟨?_, fun k hsize => Framing.take_eq_of_framed hin hout hstream hsize⟩
  exact (hout.flatten_begins.trans hstream).trans (hsound.gives side).accepted

/-- A message in two pieces, which the other side reads in two other pieces. -/
def hello : List (Side × Act) :=
  [(.client, .call .send (Bytes.str "hello")), (.client, .check .send), (.client, .read .send),
    (.client, .chunk .send (.ok 2)), (.server, .call .recv (List.replicate 5 0)),
    (.server, .read .recv), (.server, .chunk .recv (.ok 1)), (.client, .read .send),
    (.client, .chunk .send (.ok 3)), (.server, .read .recv), (.server, .chunk .recv (.ok 4))]

theorem session_in_order_hello :
    ∃ s, (system 0).Reachable s ∧ (s.ends .server).returned .recv = [Bytes.str "hello"] ∧
      ((s.ends .server).returned .recv).take 1 = ((s.ends .client).returned .send).take 1 := by
  obtain ⟨s, hs, hreceived, hsizes⟩ : ∃ s, (system 0).Reachable s ∧
      (s.ends .server).returned .recv = [Bytes.str "hello"] ∧
      (((s.ends .server).returned .recv).take 1).map List.length =
        (((s.ends .client).returned .send).take 1).map List.length :=
    System.exists_reachable_of_run hello (by decide +kernel)
  exact ⟨s, hs, hreceived, (session_in_order 0 hs .client).2 1 hsizes⟩

end Mwr.Session
