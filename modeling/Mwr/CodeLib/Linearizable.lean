import Mathlib.Data.List.Nodup
import Mathlib.Logic.Function.Basic
import Mwr.CodeLib.Transition

/-!
# Linearizable objects

Threads that call the operations of one shared object, each of them any number of times.
What they do is seen from outside as a history of invocations and returns.

* `Linearization` is an order of the calls that explains a history.  The results are those of
  the operations one after the other, and a call that has returned before another one was
  invoked comes first.
* `Impl` is the code of the operations, in steps that are atomic.  `Impl.Commits` says that
  each step leaves the object alone, or does the whole operation and ends the call.
* `exists_linearization` is the result for every interleaving of such code.
-/

namespace Mwr.CodeLib.Linearizable

open Mwr.CodeLib.Transition

variable {ι α ω κ ρ : Type}

/-! ## Histories -/

/-- A call begins or ends. -/
inductive Event (ι ω ρ : Type) where
  | invoke (i : ι) (op : ω)
  | ret (i : ι) (result : ρ)

/-- A call, by its thread, its operation and the place of its invocation in the history. -/
structure Call (ι ω : Type) where
  thread : ι
  op : ω
  invoked : Nat

/-- The call begins in the history. -/
def Call.Invoked (c : Call ι ω) (h : List (Event ι ω ρ)) : Prop :=
  h[c.invoked]? = some (.invoke c.thread c.op)

/-- The call ends at the place `n`, which is the first return of its thread after the
invocation. -/
structure Call.Returned (c : Call ι ω) (h : List (Event ι ω ρ)) (r : ρ) (n : Nat) : Prop where
  invoked : c.Invoked h
  lt : c.invoked < n
  event : h[n]? = some (.ret c.thread r)
  first : ∀ m r', c.invoked < m → m < n → h[m]? ≠ some (.ret c.thread r')

/-- The call has begun and has not ended. -/
structure Call.Open (c : Call ι ω) (h : List (Event ι ω ρ)) : Prop where
  invoked : c.Invoked h
  running : ∀ m r, c.invoked < m → h[m]? ≠ some (.ret c.thread r)

variable {c c' : Call ι ω} {h : List (Event ι ω ρ)} {e : Event ι ω ρ} {r : ρ} {i : ι} {n : Nat}

theorem Call.Invoked.lt (hc : c.Invoked h) : c.invoked < h.length :=
  (List.getElem?_eq_some_iff.1 hc).1

theorem Call.Returned.lt_length (hc : c.Returned h r n) : n < h.length :=
  (List.getElem?_eq_some_iff.1 hc.event).1

/-- What the next event adds to a history. -/
theorem getElem?_concat (h : List (Event ι ω ρ)) (e : Event ι ω ρ) (m : Nat) :
    (h ++ [e])[m]? = if m = h.length then some e else h[m]? := by
  by_cases hm : m = h.length
  · subst hm
    rw [if_pos rfl, List.getElem?_append_right (Nat.le_refl _), Nat.sub_self]
    rfl
  · rw [if_neg hm]
    by_cases hlt : m < h.length
    · exact List.getElem?_append_left hlt
    · rw [List.getElem?_eq_none (Nat.le_of_not_lt hlt), List.getElem?_eq_none]
      rw [List.length_append, List.length_singleton]
      omega

theorem Call.Invoked.concat (hc : c.Invoked h) : c.Invoked (h ++ [e]) := by
  have hlt := hc.lt
  unfold Call.Invoked
  rw [getElem?_concat, if_neg (by omega)]
  exact hc

/-- A call of the longer history is an old one, or the event is its invocation. -/
theorem Call.Invoked.of_concat (hc : c.Invoked (h ++ [e])) :
    c.Invoked h ∨ c.invoked = h.length ∧ e = .invoke c.thread c.op := by
  unfold Call.Invoked at hc
  rw [getElem?_concat] at hc
  split at hc
  next heq => exact .inr ⟨heq, Option.some.inj hc⟩
  next => exact .inl hc

/-- A call that has returned in the longer history had done so before, or the event is the
return of an open call. -/
theorem Call.Returned.of_concat (hc : c.Returned (h ++ [e]) r n) :
    c.Returned h r n ∨ c.Open h ∧ e = .ret c.thread r ∧ n = h.length := by
  have hn : n < h.length + 1 := by
    have hlt := hc.lt_length
    rwa [List.length_append] at hlt
  have hinv : c.Invoked h := by
    rcases hc.invoked.of_concat with hinv | ⟨heq, -⟩
    · exact hinv
    · have hlt := hc.lt
      omega
  have hold : ∀ m, m < h.length → (h ++ [e])[m]? = h[m]? := fun m hm => by
    rw [getElem?_concat, if_neg (by omega)]
  by_cases heq : n = h.length
  · refine .inr ⟨⟨hinv, fun m r' hm hret => ?_⟩, ?_, heq⟩
    · have hlt : m < h.length := (List.getElem?_eq_some_iff.1 hret).1
      exact hc.first m r' hm (by omega) (by rw [hold m hlt, hret])
    · have hevent := hc.event
      rw [getElem?_concat, if_pos heq] at hevent
      exact Option.some.inj hevent
  · refine .inl ⟨hinv, hc.lt, ?_, fun m r' hm hmn hret => ?_⟩
    · rw [← hold n (by omega)]
      exact hc.event
    · exact hc.first m r' hm hmn (by rw [hold m (by omega), hret])

/-- An invocation opens a call, and the others stay as they are. -/
theorem Call.Open.of_concat_invoke {op : ω}
    (hc : c.Open (h ++ [(.invoke i op : Event ι ω ρ)])) :
    c.Open h ∨ c = ⟨i, op, h.length⟩ := by
  rcases hc.invoked.of_concat with hinv | ⟨heq, he⟩
  · refine .inl ⟨hinv, fun m r hm hret => hc.running m r hm ?_⟩
    have hlt : m < h.length := (List.getElem?_eq_some_iff.1 hret).1
    rw [getElem?_concat, if_neg (by omega), hret]
  · cases he
    cases c
    cases heq
    exact .inr rfl

/-- A return closes the calls of its thread. -/
theorem Call.Open.of_concat_ret (hc : c.Open (h ++ [(.ret i r : Event ι ω ρ)])) :
    c.Open h ∧ c.thread ≠ i := by
  rcases hc.invoked.of_concat with hinv | ⟨-, he⟩
  · refine ⟨⟨hinv, fun m r' hm hret => hc.running m r' hm ?_⟩, ?_⟩
    · have hlt : m < h.length := (List.getElem?_eq_some_iff.1 hret).1
      rw [getElem?_concat, if_neg (by omega), hret]
    · rintro rfl
      exact hc.running h.length r hinv.lt (by rw [getElem?_concat, if_pos rfl])
  · cases he

/-- An open call stays open until its thread returns. -/
theorem Call.Open.concat (hc : c.Open h) (he : ∀ r, e ≠ .ret c.thread r) :
    c.Open (h ++ [e]) := by
  refine ⟨hc.invoked.concat, fun m r hm hret => ?_⟩
  rw [getElem?_concat] at hret
  split at hret
  next => exact he r (Option.some.inj hret)
  next => exact hc.running m r hm hret

theorem Call.open_concat_invoke (op : ω) :
    (⟨i, op, h.length⟩ : Call ι ω).Open (h ++ [(.invoke i op : Event ι ω ρ)]) := by
  refine ⟨?_, fun m r hm hret => ?_⟩
  · unfold Call.Invoked
    rw [getElem?_concat, if_pos rfl]
  · have hlt := (List.getElem?_eq_some_iff.1 hret).1
    rw [List.length_append, List.length_singleton] at hlt
    exact absurd hlt (Nat.not_lt.2 hm)

/-! ## The object -/

/-- The object after some operations, one after the other. -/
def after (apply : ω → α → α × ρ) (init : α) (ops : List ω) : α :=
  ops.foldl (fun a op => (apply op a).1) init

/-- The results of some operations, one after the other. -/
def results (apply : ω → α → α × ρ) : α → List ω → List ρ
  | _, [] => []
  | a, op :: ops => (apply op a).2 :: results apply (apply op a).1 ops

theorem after_concat (apply : ω → α → α × ρ) (init : α) (ops : List ω) (op : ω) :
    after apply init (ops ++ [op]) = (apply op (after apply init ops)).1 := by
  rw [after, List.foldl_append]
  rfl

theorem results_concat (apply : ω → α → α × ρ) (init : α) (ops : List ω) (op : ω) :
    results apply init (ops ++ [op]) =
      results apply init ops ++ [(apply op (after apply init ops)).2] := by
  induction ops generalizing init with
  | nil => rfl
  | cons op' ops ih =>
    rw [List.cons_append, results, ih, results]
    rfl

/-- An order of calls, with their results, that explains a history: each of them has been
invoked, all that have returned are in it, the results are those of one operation after the
other, and a call that has returned before another one was invoked comes before it. -/
structure Linearization (apply : ω → α → α × ρ) (init : α) (h : List (Event ι ω ρ))
    (order : List (Call ι ω × ρ)) : Prop where
  nodup : (order.map Prod.fst).Nodup
  invoked : ∀ p ∈ order, p.1.Invoked h
  complete : ∀ c r n, Call.Returned c h r n → (c, r) ∈ order
  results : order.map Prod.snd = results apply init (order.map fun p => p.1.op)
  realtime : ∀ before p behind, order = before ++ p :: behind →
    ∀ c r n, Call.Returned c h r n → n < p.1.invoked → (c, r) ∈ before

/-! ## Code -/

/-- The code of the operations: what a call begins with, and a step, which reads and writes
the object and either goes on or ends with a result. -/
structure Impl (α ω κ ρ : Type) where
  start : ω → κ
  step : ω → κ → α → α × (κ ⊕ ρ)

/-- Each step leaves the object alone, or does the whole operation. -/
def Impl.Commits (impl : Impl α ω κ ρ) (apply : ω → α → α × ρ) : Prop :=
  ∀ op k a, (∃ k', impl.step op k a = (a, .inl k')) ∨
    impl.step op k a = ((apply op a).1, .inr (apply op a).2)

/-- Where a thread is. -/
inductive Pc (ω κ ρ : Type) where
  | idle
  | running (op : ω) (k : κ)
  | done (op : ω) (result : ρ)

/-- The object and the threads. -/
structure State (ι α ω κ ρ : Type) where
  object : α
  pc : ι → Pc ω κ ρ

def State.new (init : α) : State ι α ω κ ρ := ⟨init, fun _ => .idle⟩

/-- What a thread does next. -/
inductive Label (ι ω : Type) where
  | invoke (i : ι) (op : ω)
  | step (i : ι)
  | ret (i : ι)

section System

variable [DecidableEq ι]

def State.goTo (s : State ι α ω κ ρ) (i : ι) (pc : Pc ω κ ρ) : State ι α ω κ ρ :=
  { s with pc := Function.update s.pc i pc }

@[simp] theorem object_goTo (s : State ι α ω κ ρ) (i : ι) (pc : Pc ω κ ρ) :
    (s.goTo i pc).object = s.object := rfl

theorem pc_goTo_self (s : State ι α ω κ ρ) (i : ι) (pc : Pc ω κ ρ) :
    (s.goTo i pc).pc i = pc :=
  Function.update_self _ _ _

theorem pc_goTo_of_ne (s : State ι α ω κ ρ) {i j : ι} (h : j ≠ i) (pc : Pc ω κ ρ) :
    (s.goTo i pc).pc j = s.pc j :=
  Function.update_of_ne h _ _

/-- One step of one thread, with what is seen of it. -/
def step (impl : Impl α ω κ ρ) (p : State ι α ω κ ρ × List (Event ι ω ρ)) :
    Label ι ω → Option (State ι α ω κ ρ × List (Event ι ω ρ))
  | .invoke i op =>
    match p.1.pc i with
    | .idle => some (p.1.goTo i (.running op (impl.start op)), p.2 ++ [.invoke i op])
    | _ => none
  | .step i =>
    match p.1.pc i with
    | .running op k =>
      match impl.step op k p.1.object with
      | (object, .inl k') => some ({ p.1 with object }.goTo i (.running op k'), p.2)
      | (object, .inr r) => some ({ p.1 with object }.goTo i (.done op r), p.2)
    | _ => none
  | .ret i =>
    match p.1.pc i with
    | .done _ r => some (p.1.goTo i .idle, p.2 ++ [.ret i r])
    | _ => none

/-- All runs of the threads, with their histories. -/
def system (impl : Impl α ω κ ρ) (init : α) :
    System (State ι α ω κ ρ × List (Event ι ω ρ)) (Label ι ω) :=
  System.ofStep (State.new init, []) (step impl)

/-! ## Every interleaving -/

/-- What is kept by every step: the calls that have had their effect are in the order, and
each thread has at most one call that has not returned. -/
structure Explains (apply : ω → α → α × ρ) (init : α)
    (p : State ι α ω κ ρ × List (Event ι ω ρ)) (order : List (Call ι ω × ρ)) : Prop
    extends Linearization apply init p.2 order where
  object : p.1.object = after apply init (order.map fun q => q.1.op)
  idle : ∀ c, Call.Open c p.2 → p.1.pc c.thread ≠ .idle
  running : ∀ c op k, Call.Open c p.2 → p.1.pc c.thread = .running op k →
    c.op = op ∧ c ∉ order.map Prod.fst
  done : ∀ c op r, Call.Open c p.2 → p.1.pc c.thread = .done op r → (c, r) ∈ order
  unique : ∀ c c', Call.Open c p.2 → Call.Open c' p.2 → c.thread = c'.thread → c = c'
  exists_open : ∀ i op k, p.1.pc i = .running op k → ∃ c, Call.Open c p.2 ∧ c.thread = i

variable {apply : ω → α → α × ρ} {init : α} {s : State ι α ω κ ρ}
variable {order : List (Call ι ω × ρ)} {op : ω} {k : κ}

omit [DecidableEq ι] in
theorem explains_new (apply : ω → α → α × ρ) (init : α) :
    Explains apply init ((State.new init, []) : State ι α ω κ ρ × List (Event ι ω ρ)) [] where
  nodup := List.nodup_nil
  invoked := nofun
  complete := fun c r n hc => absurd hc.lt_length (Nat.not_lt_zero n)
  results := rfl
  realtime := by
    intro before p behind horder
    cases before <;> cases horder
  object := rfl
  idle := fun c hc => absurd hc.invoked.lt (Nat.not_lt_zero _)
  running := fun c _ _ hc => absurd hc.invoked.lt (Nat.not_lt_zero _)
  done := fun c _ _ hc => absurd hc.invoked.lt (Nat.not_lt_zero _)
  unique := fun c _ hc => absurd hc.invoked.lt (Nat.not_lt_zero _)
  exists_open := nofun

theorem Explains.invoke (h' : Explains apply init (s, h) order) (hpc : s.pc i = .idle) (k : κ)
    (op : ω) :
    Explains apply init (s.goTo i (.running op k), h ++ [.invoke i op]) order := by
  have hother : ∀ c : Call ι ω, c.Open h → c.thread ≠ i := by
    rintro c hc rfl
    exact h'.idle c hc hpc
  have hret : ∀ c r n, Call.Returned c (h ++ [.invoke i op]) r n → c.Returned h r n := by
    intro c r n hc
    rcases hc.of_concat with hc | ⟨-, he, -⟩
    · exact hc
    · cases he
  refine ⟨⟨h'.nodup, fun p hp => (h'.invoked p hp).concat,
    fun c r n hc => h'.complete c r n (hret c r n hc), h'.results,
    fun before p behind horder c r n hc => h'.realtime before p behind horder c r n
      (hret c r n hc)⟩, h'.object, ?_, ?_, ?_, ?_, ?_⟩
  · intro c hc hidle
    rcases hc.of_concat_invoke with hc | rfl
    · rw [pc_goTo_of_ne s (hother c hc)] at hidle
      exact h'.idle c hc hidle
    · rw [pc_goTo_self] at hidle
      cases hidle
  · intro c op' k' hc hrun
    rcases hc.of_concat_invoke with hc | rfl
    · rw [pc_goTo_of_ne s (hother c hc)] at hrun
      exact h'.running c op' k' hc hrun
    · rw [pc_goTo_self] at hrun
      cases hrun
      refine ⟨rfl, fun hmem => ?_⟩
      obtain ⟨p, hp, hfst⟩ := List.mem_map.1 hmem
      have hlt := (h'.invoked p hp).lt
      rw [hfst] at hlt
      exact Nat.lt_irrefl _ hlt
  · intro c op' r hc hdone
    rcases hc.of_concat_invoke with hc | rfl
    · rw [pc_goTo_of_ne s (hother c hc)] at hdone
      exact h'.done c op' r hc hdone
    · rw [pc_goTo_self] at hdone
      cases hdone
  · intro c c' hc hc' hthread
    rcases hc.of_concat_invoke with hc | rfl <;> rcases hc'.of_concat_invoke with hc' | rfl
    · exact h'.unique c c' hc hc' hthread
    · exact absurd hthread (hother c hc)
    · exact absurd hthread.symm (hother c' hc')
    · rfl
  · intro j op' k' hrun
    by_cases hj : j = i
    · subst hj
      exact ⟨_, Call.open_concat_invoke op, rfl⟩
    · rw [pc_goTo_of_ne s hj] at hrun
      obtain ⟨c, hc, hthread⟩ := h'.exists_open j op' k' hrun
      exact ⟨c, hc.concat nofun, hthread⟩

/-- A step that leaves the object alone. -/
theorem Explains.silent (h' : Explains apply init (s, h) order) (hpc : s.pc i = .running op k)
    (k' : κ) : Explains apply init (s.goTo i (.running op k'), h) order := by
  have hrunning : ∀ j op' k'', (s.goTo i (.running op k')).pc j = .running op' k'' →
      ∃ k₀, s.pc j = .running op' k₀ := by
    intro j op' k'' hrun
    by_cases hj : j = i
    · subst hj
      rw [pc_goTo_self] at hrun
      cases hrun
      exact ⟨k, hpc⟩
    · rw [pc_goTo_of_ne s hj] at hrun
      exact ⟨k'', hrun⟩
  refine ⟨h'.toLinearization, h'.object, ?_, ?_, ?_, h'.unique, ?_⟩
  · intro c hc hidle
    by_cases hj : c.thread = i
    · rw [hj, pc_goTo_self] at hidle
      cases hidle
    · rw [pc_goTo_of_ne s hj] at hidle
      exact h'.idle c hc hidle
  · intro c op' k'' hc hrun
    obtain ⟨k₀, hrun⟩ := hrunning c.thread op' k'' hrun
    exact h'.running c op' k₀ hc hrun
  · intro c op' r hc hdone
    by_cases hj : c.thread = i
    · rw [hj, pc_goTo_self] at hdone
      cases hdone
    · rw [pc_goTo_of_ne s hj] at hdone
      exact h'.done c op' r hc hdone
  · intro j op' k'' hrun
    obtain ⟨k₀, hrun⟩ := hrunning j op' k'' hrun
    exact h'.exists_open j op' k₀ hrun

/-- The step in which a call has its effect.  It becomes the last one of the order. -/
theorem Explains.commit (h' : Explains apply init (s, h) order) (hpc : s.pc i = .running op k) :
    ∃ c : Call ι ω, Explains apply init
      ({ s with object := (apply op s.object).1 }.goTo i (.done op (apply op s.object).2), h)
      (order ++ [(c, (apply op s.object).2)]) := by
  obtain ⟨c, hc, rfl⟩ := h'.exists_open i op k hpc
  obtain ⟨hop, hnew⟩ := h'.running c op k hc hpc
  have hobject : s.object = after apply init (order.map fun q => q.1.op) := h'.object
  have hother : ∀ c' : Call ι ω, c'.Open h → c' ≠ c → c'.thread ≠ c.thread :=
    fun c' hc' hne hthread => hne (h'.unique c' c hc' hc hthread)
  refine ⟨c, ⟨?_, ?_, ?_, ?_, ?_⟩, ?_, ?_, ?_, ?_, h'.unique, ?_⟩
  · have hnodup := h'.nodup.concat hnew
    rw [List.concat_eq_append] at hnodup
    rw [List.map_append]
    exact hnodup
  · intro p hp
    rcases List.mem_append.1 hp with hp | hp
    · exact h'.invoked p hp
    · cases List.mem_singleton.1 hp
      exact hc.invoked
  · exact fun c' r n hr => List.mem_append_left _ (h'.complete c' r n hr)
  · rw [List.map_append, List.map_append]
    show _ = results apply init (_ ++ [c.op])
    rw [results_concat, ← hobject, hop, h'.results]
    rfl
  · intro before p behind horder c' r n hr hlt
    rcases List.eq_nil_or_concat behind with rfl | ⟨behind, q, rfl⟩
    · obtain ⟨rfl, -⟩ := List.append_inj' horder rfl
      exact h'.complete c' r n hr
    · rw [List.concat_eq_append, ← List.cons_append, ← List.append_assoc] at horder
      obtain ⟨horder, -⟩ := List.append_inj' horder rfl
      exact h'.realtime before p behind horder c' r n hr hlt
  · rw [List.map_append]
    show _ = after apply init (_ ++ [c.op])
    rw [after_concat, ← hobject, hop]
    rfl
  · intro c' hc' hidle
    by_cases hj : c'.thread = c.thread
    · rw [hj, pc_goTo_self] at hidle
      cases hidle
    · rw [pc_goTo_of_ne _ hj] at hidle
      exact h'.idle c' hc' hidle
  · intro c' op' k' hc' hrun
    have hj : c'.thread ≠ c.thread := by
      intro hj
      rw [hj, pc_goTo_self] at hrun
      cases hrun
    rw [pc_goTo_of_ne _ hj] at hrun
    obtain ⟨hop', hmem⟩ := h'.running c' op' k' hc' hrun
    refine ⟨hop', ?_⟩
    rw [List.map_append, List.mem_append, List.map_singleton, List.mem_singleton]
    rintro (hold | rfl)
    · exact hmem hold
    · exact hj rfl
  · intro c' op' r hc' hdone
    rw [List.mem_append, List.mem_singleton]
    by_cases hj : c'.thread = c.thread
    · cases h'.unique c' c hc' hc hj
      rw [pc_goTo_self] at hdone
      cases hdone
      exact .inr rfl
    · rw [pc_goTo_of_ne _ hj] at hdone
      exact .inl (h'.done c' op' r hc' hdone)
  · intro j op' k' hrun
    have hj : j ≠ c.thread := by
      rintro rfl
      rw [pc_goTo_self] at hrun
      cases hrun
    rw [pc_goTo_of_ne _ hj] at hrun
    exact h'.exists_open j op' k' hrun

theorem Explains.ret (h' : Explains apply init (s, h) order) (hpc : s.pc i = .done op r) :
    Explains apply init (s.goTo i .idle, h ++ [.ret i r]) order := by
  have hret : ∀ c r' n, Call.Returned c (h ++ [.ret i r]) r' n →
      c.Returned h r' n ∨ (c, r') ∈ order ∧ n = h.length := by
    intro c r' n hc
    rcases hc.of_concat with hc | ⟨hopen, he, hn⟩
    · exact .inl hc
    · cases he
      exact .inr ⟨h'.done c op r hopen hpc, hn⟩
  have hother : ∀ c : Call ι ω, c.Open (h ++ [.ret i r]) →
      c.Open h ∧ (s.goTo i .idle).pc c.thread = s.pc c.thread := by
    intro c hc
    obtain ⟨hopen, hthread⟩ := hc.of_concat_ret
    exact ⟨hopen, pc_goTo_of_ne s hthread _⟩
  refine ⟨⟨h'.nodup, fun p hp => (h'.invoked p hp).concat, ?_, h'.results, ?_⟩, h'.object,
    ?_, ?_, ?_, ?_, ?_⟩
  · intro c r' n hc
    rcases hret c r' n hc with hold | ⟨hmem, -⟩
    · exact h'.complete c r' n hold
    · exact hmem
  · intro before p behind horder c r' n hc hlt
    rcases hret c r' n hc with hold | ⟨-, rfl⟩
    · exact h'.realtime before p behind horder c r' n hold hlt
    · have hp : p ∈ order := by
        rw [horder]
        exact List.mem_append_right _ List.mem_cons_self
      -- a call of the order was invoked before this return
      have hinv := (h'.invoked p hp).lt
      exact absurd hlt (Nat.lt_asymm hinv)
  · intro c hc
    obtain ⟨hopen, heq⟩ := hother c hc
    show (s.goTo i .idle).pc c.thread ≠ .idle
    rw [heq]
    exact h'.idle c hopen
  · intro c op' k' hc hrun
    obtain ⟨hopen, heq⟩ := hother c hc
    exact h'.running c op' k' hopen (heq ▸ hrun)
  · intro c op' r' hc hdone
    obtain ⟨hopen, heq⟩ := hother c hc
    exact h'.done c op' r' hopen (heq ▸ hdone)
  · exact fun c c' hc hc' => h'.unique c c' (hother c hc).1 (hother c' hc').1
  · intro j op' k' hrun
    have hj : j ≠ i := by
      rintro rfl
      rw [pc_goTo_self] at hrun
      cases hrun
    rw [pc_goTo_of_ne s hj] at hrun
    obtain ⟨c, hc, rfl⟩ := h'.exists_open j op' k' hrun
    refine ⟨c, hc.concat fun r' he => ?_, rfl⟩
    cases he
    exact hj rfl

variable {impl : Impl α ω κ ρ} {p p' : State ι α ω κ ρ × List (Event ι ω ρ)}

theorem Explains.step (himpl : impl.Commits apply) (h' : Explains apply init p order)
    {e : Label ι ω} (hstep : Linearizable.step impl p e = some p') :
    ∃ order', Explains apply init p' order' := by
  obtain ⟨s, h⟩ := p
  cases e with
  | invoke i op =>
    cases hpc : s.pc i with
    | idle =>
      simp only [Linearizable.step, hpc] at hstep
      cases hstep
      exact ⟨order, h'.invoke hpc _ op⟩
    | running op' k => simp [Linearizable.step, hpc] at hstep
    | done op' r => simp [Linearizable.step, hpc] at hstep
  | step i =>
    cases hpc : s.pc i with
    | idle => simp [Linearizable.step, hpc] at hstep
    | running op k =>
      rcases himpl op k s.object with ⟨k', heq⟩ | heq
      · simp only [Linearizable.step, hpc, heq] at hstep
        cases hstep
        exact ⟨order, h'.silent hpc k'⟩
      · simp only [Linearizable.step, hpc, heq] at hstep
        cases hstep
        obtain ⟨c, hc⟩ := h'.commit hpc
        exact ⟨_, hc⟩
    | done op r => simp [Linearizable.step, hpc] at hstep
  | ret i =>
    cases hpc : s.pc i with
    | idle => simp [Linearizable.step, hpc] at hstep
    | running op' k => simp [Linearizable.step, hpc] at hstep
    | done op r =>
      simp only [Linearizable.step, hpc] at hstep
      cases hstep
      exact ⟨order, h'.ret hpc⟩

/-- Whatever the order of the steps, an order of the calls explains what is seen of them, and
the object is what these calls leave. -/
theorem exists_linearization (himpl : impl.Commits apply) (hp : (system impl init).Reachable p) :
    ∃ order, Linearization apply init p.2 order ∧
      p.1.object = after apply init (order.map fun q => q.1.op) := by
  have hinv : ∃ order, Explains apply init p order := by
    refine hp.invariant (I := fun p => ∃ order, Explains apply init p order) ?_ ?_
    · rintro p rfl
      exact ⟨[], explains_new apply init⟩
    · rintro p e p' _ ⟨order, h'⟩ hstep
      exact h'.step himpl hstep
  obtain ⟨order, h'⟩ := hinv
  exact ⟨order, h'.toLinearization, h'.object⟩

end System

end Mwr.CodeLib.Linearizable
