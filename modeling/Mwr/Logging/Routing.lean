import Mwr.CodeLib.Exec
import Mwr.Logging.Model

/-!
# Who gets a message

The table of the registry always lists, for each level, the live publishers
whose range contains it, each once.  `Routed` is this invariant, and every call
keeps it: a call only ever rewrites the entries of one range of levels
(`forLevels_eq`), and the range that it takes a publisher out of is the one the
publisher was put into.
-/

namespace Mwr.Logging

open Mwr.CodeLib (Bytes)
open Mwr.CodeLib.Transition
open Mwr.CodeLib.Exec
open Mwr.Containers

/-! ## Ranges of levels -/

/-- The level `l` lies in the range of a publisher. -/
def Publisher.Covers (self : Publisher) (l : LogLevel) : Prop :=
  self.min ≤ l ∧ l ≤ self.max

instance (self : Publisher) (l : LogLevel) : Decidable (self.Covers l) :=
  inferInstanceAs (Decidable (_ ∧ _))

/-- The levels of a publisher name entries of the table. -/
def Publisher.InTable (self : Publisher) : Prop :=
  self.min ≤ .debug ∧ self.max ≤ .debug

theorem mem_levels {min max : LogLevel} (hmax : max ≤ .debug) (l : LogLevel) :
    l ∈ levels min max ↔ min ≤ l ∧ l ≤ max := by
  revert hmax
  cases min <;> cases max <;> cases l <;> decide

theorem levels_nodup {min max : LogLevel} (hmax : max ≤ .debug) : (levels min max).Nodup := by
  revert hmax
  cases min <;> cases max <;> decide

theorem lookup_eq (s : State) {l : LogLevel} (hl : l ≤ .debug) :
    s.lookup l = .ok (s.publishers l) := by
  cases l with
  | numLogLevels => exact absurd hl (by decide)
  | _ => rfl

/-! ## What a call does to the table -/

/-- The state after `f` has been applied to the entries of a list of levels. -/
def State.mapLevels (s : State) (f : List Ptr → List Ptr) (ls : List LogLevel) : State :=
  { s with publishers := fun l => if l ∈ ls then f (s.publishers l) else s.publishers l }

theorem foldlM_update (f : List Ptr → List Ptr) {ls : List LogLevel} (hnodup : ls.Nodup)
    (hls : ∀ l ∈ ls, l ≤ .debug) (s : State) :
    ls.foldlM (fun s l => do
      let v ← s.lookup l
      .ok { s with publishers := Function.update s.publishers l (f v) }) s =
      (.ok (s.mapLevels f ls) : Except Fault State) := by
  induction ls generalizing s with
  | nil => rfl
  | cons l ls ih =>
    rcases List.nodup_cons.mp hnodup with ⟨hnot, hnodup⟩
    have hrest : ∀ k ∈ ls, k ≤ LogLevel.debug := fun k hk => hls k (List.mem_cons_of_mem l hk)
    rw [List.foldlM_cons, lookup_eq s (hls l List.mem_cons_self), ok_bind, ok_bind,
      ih hnodup hrest]
    simp only [State.mapLevels, Except.ok.injEq, State.mk.injEq, true_and]
    funext k
    by_cases hk : k = l
    · subst hk
      simp [hnot]
    · simp [hk]

/-- One pass over a range of levels rewrites the entries of that range. -/
theorem forLevels_eq (f : List Ptr → List Ptr) {min max : LogLevel} (hmax : max ≤ .debug)
    (s : State) : s.forLevels f min max = .ok (s.mapLevels f (levels min max)) := by
  refine foldlM_update f (levels_nodup hmax) (fun l hl => ?_) s
  have hle : l ≤ max := ((mem_levels hmax l).mp hl).2
  exact Nat.le_trans hle hmax

/-! ## The invariant -/

/-- A table that lists, for each level, the publishers of `alive` whose range
contains it, each once. -/
structure Routed (table : LogLevel → List Ptr) (alive : Ptr → Option Publisher) : Prop where
  nodup : ∀ l, (table l).Nodup
  mem : ∀ l p, p ∈ table l ↔ ∃ self, alive p = some self ∧ self.Covers l
  inTable : ∀ p self, alive p = some self → self.InTable

theorem routed_empty : Routed State.empty.publishers State.empty.objects where
  nodup := fun _ => List.nodup_nil
  mem := fun l p => by simp [State.empty]
  inTable := fun p self h => by cases h

/-- Registering a publisher that is not in the table. -/
theorem register_routed {s : State} {alive : Ptr → Option Publisher} {this : Ptr}
    {self : Publisher} (h : Routed s.publishers alive) (hfree : alive this = none)
    (hself : self.InTable) :
    ∃ s', s.registerPublisher this self = .ok s' ∧ s'.objects = s.objects ∧
      Routed s'.publishers (Function.update alive this (some self)) := by
  refine ⟨_, forLevels_eq _ hself.2 s, rfl, ?_, ?_, ?_⟩
  · intro l
    show (if _ then _ else _ : List Ptr).Nodup
    split
    · exact stlAddUnique_nodup (h.nodup l) this
    · exact h.nodup l
  · intro l p
    have hcovers : l ∈ levels self.min self.max ↔ self.Covers l := mem_levels hself.2 l
    show p ∈ (if _ then _ else _ : List Ptr) ↔ _
    by_cases hp : p = this
    · subst hp
      have hnot : p ∉ s.publishers l := by simp [h.mem, hfree]
      by_cases hl : self.Covers l <;> simp [hcovers, hl, hnot, mem_stlAddUnique]
    · by_cases hl : self.Covers l <;> simp [hcovers, hl, hp, mem_stlAddUnique, h.mem]
  · intro p self' hp
    by_cases heq : p = this
    · subst heq
      rw [Function.update_self, Option.some_inj] at hp
      exact hp ▸ hself
    · rw [Function.update_of_ne heq] at hp
      exact h.inTable p self' hp

/-- Unregistering a publisher with the range it is registered for. -/
theorem unregister_routed {s : State} {alive : Ptr → Option Publisher} {this : Ptr}
    {self : Publisher} (h : Routed s.publishers alive) (hself : alive this = some self) :
    ∃ s', s.unregisterPublisher this self = .ok s' ∧ s'.objects = s.objects ∧
      Routed s'.publishers (Function.update alive this none) := by
  have htable : self.InTable := h.inTable this self hself
  refine ⟨_, forLevels_eq _ htable.2 s, rfl, ?_, ?_, ?_⟩
  · intro l
    show (if _ then _ else _ : List Ptr).Nodup
    split
    · exact stlRemove_nodup (h.nodup l) this
    · exact h.nodup l
  · intro l p
    have hcovers : l ∈ levels self.min self.max ↔ self.Covers l := mem_levels htable.2 l
    show p ∈ (if _ then _ else _ : List Ptr) ↔ _
    by_cases hp : p = this
    · subst hp
      by_cases hl : self.Covers l <;> simp [hcovers, hl, mem_stlRemove, h.mem, hself]
    · by_cases hl : self.Covers l <;> simp [hcovers, hl, hp, mem_stlRemove, h.mem]
  · intro p self' hp
    by_cases heq : p = this
    · subst heq
      rw [Function.update_self] at hp
      cases hp
    · rw [Function.update_of_ne heq] at hp
      exact h.inTable p self' hp

/-! ## The calls keep it -/

/-- The table of a state agrees with its publishers. -/
def State.Routed (s : State) : Prop :=
  Logging.Routed s.publishers s.objects

theorem construct_routed {s : State} {this : Ptr} {min max : LogLevel} (h : s.Routed)
    (hfree : s.objects this = none) (hmin : min ≤ .debug) (hmax : max ≤ .debug) :
    ∃ s', s.construct this min max = .ok s' ∧ s'.Routed := by
  let self : Publisher := { min := min, max := max, filters := [] }
  have hstore : Logging.Routed (s.store this (some self)).publishers s.objects := h
  have htable : self.InTable := ⟨hmin, hmax⟩
  rcases register_routed hstore hfree htable with ⟨s', hs', hobj, hrouted⟩
  refine ⟨s', hs', ?_⟩
  rw [State.Routed, hobj]
  exact hrouted

theorem destroy_routed {s : State} {this : Ptr} (h : s.Routed) (hlive : s.objects this ≠ none) :
    ∃ s', s.destroy this = .ok s' ∧ s'.Routed := by
  rcases Option.ne_none_iff_exists'.mp hlive with ⟨self, hself⟩
  rcases unregister_routed h hself with ⟨s', hs', hobj, hrouted⟩
  refine ⟨s'.store this none, ?_, ?_⟩
  · rw [State.destroy, hself]
    simp only [hs', ok_bind]
  · show Logging.Routed s'.publishers (Function.update s'.objects this none)
    rw [hobj]
    exact hrouted

theorem setLevel_routed {s : State} {this : Ptr} {min max : LogLevel} (h : s.Routed)
    (hlive : s.objects this ≠ none) (hmin : min ≤ .debug) (hmax : max ≤ .debug) :
    ∃ s', s.setLevel this min max = .ok s' ∧ s'.Routed := by
  rcases Option.ne_none_iff_exists'.mp hlive with ⟨self, hself⟩
  rcases unregister_routed h hself with ⟨s₁, hs₁, hobj₁, hrouted₁⟩
  let self' : Publisher := { self with min := min, max := max }
  have hstore : Logging.Routed (s₁.store this (some self')).publishers
      (Function.update s.objects this none) := hrouted₁
  have hfree : Function.update s.objects this none this = none := Function.update_self ..
  have htable : self'.InTable := ⟨hmin, hmax⟩
  rcases register_routed hstore hfree htable with ⟨s', hs', hobj, hrouted⟩
  refine ⟨s', ?_, ?_⟩
  · rw [State.setLevel, hself]
    simp only [hs₁, ok_bind]
    exact hs'
  · rw [Function.update_idem] at hrouted
    rw [State.Routed, hobj]
    show Logging.Routed s'.publishers (Function.update s₁.objects this (some self'))
    rw [hobj₁]
    exact hrouted

/-- A filter changes nothing that the table depends on. -/
theorem addFilter_routed {s : State} {this : Ptr} {filter : Logmsg → Bool} (h : s.Routed)
    (hlive : s.objects this ≠ none) :
    ∃ s', s.addFilter this filter = .ok s' ∧ s'.Routed := by
  rcases Option.ne_none_iff_exists'.mp hlive with ⟨self, hself⟩
  let self' : Publisher := { self with filters := self.filters ++ [filter] }
  have hadd : s.addFilter this filter = .ok (s.store this (some self')) := by
    rw [State.addFilter, hself]
  refine ⟨_, hadd, h.nodup, fun l p => ?_, fun p self' hp => ?_⟩
  · show p ∈ s.publishers l ↔ _
    rw [h.mem]
    by_cases hp : p = this
    · subst hp
      simp [State.store, hself, self', Publisher.Covers]
    · simp [State.store, hp]
  · by_cases heq : p = this
    · subst heq
      simp only [State.store, Function.update_self, Option.some_inj] at hp
      have htable : self.InTable := h.inTable p self hself
      exact hp ▸ htable
    · simp only [State.store, Function.update_of_ne heq] at hp
      exact h.inTable p self' hp

/-- Every call that may be made returns, and keeps the table in agreement. -/
theorem step_routed {s : State} {a : Act} (h : s.Routed) (he : Enabled s a) :
    ∃ s', step s a = .ok s' ∧ s'.Routed := by
  cases a with
  | construct this min max => exact construct_routed h he.1 he.2.1 he.2.2
  | setLevel this min max => exact setLevel_routed h he.1 he.2.1 he.2.2
  | addFilter this filter => exact addFilter_routed h he
  | destroy this => exact destroy_routed h he

theorem reachable_routed {s : State} (h : system.Reachable s) : s.Routed := by
  refine h.invariant (I := State.Routed) ?_ ?_
  · rintro s rfl
    exact routed_empty
  · intro s a s' _ hs ⟨he, hstep⟩
    rcases step_routed hs he with ⟨s'', hs'', hrouted⟩
    rw [hstep, Except.ok.injEq] at hs''
    exact hs'' ▸ hrouted

/-! ## Publishing -/

/-- The filters of a publisher let a message pass. -/
theorem checkFilters_iff (self : Publisher) (msg : Logmsg) :
    self.checkFilters msg ↔ self.filters = [] ∨ ∃ filter ∈ self.filters, filter msg := by
  simp [Publisher.checkFilters]

/-- The loop over live loggers calls those whose filters let the message pass. -/
theorem publishTo_eq (s : State) (msg : Logmsg) {loggers : List Ptr}
    (hlive : ∀ p ∈ loggers, s.objects p ≠ none) :
    s.publishTo msg loggers =
      .ok (loggers.filter fun p => (s.objects p).any fun self => self.checkFilters msg) := by
  induction loggers with
  | nil => rfl
  | cons p loggers ih =>
    rcases Option.ne_none_iff_exists'.mp (hlive p List.mem_cons_self) with ⟨self, hself⟩
    have hrest : ∀ q ∈ loggers, s.objects q ≠ none :=
      fun q hq => hlive q (List.mem_cons_of_mem p hq)
    rw [State.publishTo, hself]
    simp only [ih hrest, ok_bind, List.filter_cons, hself, Option.any_some]

/-- A live publisher whose range contains the level. -/
def State.Listens (s : State) (l : LogLevel) (p : Ptr) : Prop :=
  ∃ self, s.objects p = some self ∧ self.Covers l

/-- A live publisher whose range contains the level of a message and whose filters
let it pass. -/
def State.Accepts (s : State) (msg : Logmsg) (p : Ptr) : Prop :=
  ∃ self, s.objects p = some self ∧ self.Covers msg.level ∧
    (self.filters = [] ∨ ∃ filter ∈ self.filters, filter msg)

theorem lookup_routed {s : State} (h : s.Routed) {l : LogLevel} (hl : l ≤ .debug) :
    ∃ v, s.lookup l = .ok v ∧ v.Nodup ∧ ∀ p, p ∈ v ↔ s.Listens l p :=
  ⟨s.publishers l, lookup_eq s hl, h.nodup l, h.mem l⟩

/-- A message goes once to each publisher that accepts it. -/
theorem publish_routed {s : State} (h : s.Routed) (now : UInt64) {l : LogLevel}
    (hl : l ≤ .debug) (sender str : Bytes) (file : Option (Bytes)) (line : Int) :
    ∃ called : List Ptr, s.publish now l sender str file line =
        .ok (called.map fun p => (p, logmsg now l sender str file line)) ∧
      called.Nodup ∧ ∀ p, p ∈ called ↔ s.Accepts (logmsg now l sender str file line) p := by
  have hlive : ∀ p ∈ s.publishers l, s.objects p ≠ none := by
    intro p hp
    rcases (h.mem l p).mp hp with ⟨self, hself, _⟩
    rw [hself]
    exact Option.some_ne_none self
  refine ⟨(s.publishers l).filter fun p => (s.objects p).any fun self =>
    self.checkFilters (logmsg now l sender str file line), ?_, (h.nodup l).filter _, fun p => ?_⟩
  · have hlookup : s.lookup (logmsg now l sender str file line).level = .ok (s.publishers l) :=
      lookup_eq s hl
    simp only [State.publish, hlookup, ok_bind, publishTo_eq s _ hlive]
  · rw [List.mem_filter, h.mem]
    constructor
    · rintro ⟨⟨self, hself, hcovers⟩, hany⟩
      rw [hself, Option.any_some, checkFilters_iff] at hany
      exact ⟨self, hself, hcovers, hany⟩
    · rintro ⟨self, hself, hcovers, hpass⟩
      refine ⟨⟨self, hself, hcovers⟩, ?_⟩
      rw [hself, Option.any_some, checkFilters_iff]
      exact hpass

theorem canPublish_routed {s : State} (h : s.Routed) {l : LogLevel} (hl : l ≤ .debug) :
    ∃ b, s.canPublish l = .ok b ∧ (b ↔ ∃ p, s.Listens l p) := by
  refine ⟨!(s.publishers l).isEmpty, ?_, ?_⟩
  · have hnot : ¬ LogLevel.numLogLevels ≤ l := fun hle =>
      absurd (Nat.le_trans hle hl) (by decide)
    rw [State.canPublish, if_neg hnot, lookup_eq s hl]
    rfl
  · have hiff : ∀ p, p ∈ s.publishers l ↔ s.Listens l p := h.mem l
    simp only [← hiff, Bool.not_eq_true', List.isEmpty_eq_false_iff_exists_mem]

/-- In every run, no call of a publisher fails, the registry lists for each level
exactly the live publishers whose range contains it, and messages are routed
accordingly. -/
theorem log_routing {s : State} (h : system.Reachable s) :
    (∀ a, Enabled s a → ∃ s', step s a = .ok s') ∧
      ∀ l ≤ LogLevel.debug,
        (∃ v, s.lookup l = .ok v ∧ v.Nodup ∧ ∀ p, p ∈ v ↔ s.Listens l p) ∧
        (∀ now sender str file line, ∃ called : List Ptr,
          s.publish now l sender str file line =
              .ok (called.map fun p => (p, logmsg now l sender str file line)) ∧
            called.Nodup ∧
            ∀ p, p ∈ called ↔ s.Accepts (logmsg now l sender str file line) p) ∧
        ∃ b, s.canPublish l = .ok b ∧ (b ↔ ∃ p, s.Listens l p) := by
  have hs : s.Routed := reachable_routed h
  refine ⟨fun a he => ?_, fun l hl => ⟨lookup_routed hs hl, ?_, canPublish_routed hs hl⟩⟩
  · rcases step_routed hs he with ⟨s', hs', _⟩
    exact ⟨s', hs'⟩
  · intro now sender str file line
    exact publish_routed hs now hl sender str file line

/-- The first publisher can be constructed at any address. -/
theorem reachable_first (this : Ptr) {min max : LogLevel} (hmin : min ≤ .debug)
    (hmax : max ≤ .debug) :
    system.Reachable ((State.empty.store this (some ⟨min, max, []⟩)).mapLevels
      (stlAddUnique · this) (levels min max)) := by
  have hstep : step .empty (.construct this min max) =
      .ok ((State.empty.store this (some ⟨min, max, []⟩)).mapLevels (stlAddUnique · this)
        (levels min max)) := forLevels_eq _ hmax _
  exact .step (e := .construct this min max) (.init rfl) ⟨⟨rfl, hmin, hmax⟩, hstep⟩

/-- The registry after one publisher has been constructed and narrowed. -/
theorem log_routing_narrowed :
    ∃ s : State, (∃ s₁, step .empty (.construct 1 .error .info) = .ok s₁ ∧
        step s₁ (.setLevel 1 .warn .warn) = .ok s) ∧
      ∃ v, s.lookup .warn = .ok v ∧ v.Nodup ∧ ∀ p, p ∈ v ↔ s.Listens .warn p := by
  let s₁ : State := ((State.empty.store 1 (some ⟨.error, .info, []⟩)).mapLevels
    (stlAddUnique · 1) (levels .error .info))
  let s₂ : State := ((s₁.mapLevels (stlRemove · 1) (levels .error .info)).store 1
    (some ⟨.warn, .warn, []⟩)).mapLevels (stlAddUnique · 1) (levels .warn .warn)
  have h₁ : step .empty (.construct 1 .error .info) = .ok s₁ := forLevels_eq _ (by decide) _
  have h₂ : step s₁ (.setLevel 1 .warn .warn) = .ok s₂ := by
    show s₁.setLevel 1 .warn .warn = _
    have hself : s₁.objects 1 = some ⟨.error, .info, []⟩ := rfl
    rw [State.setLevel, hself]
    simp only [State.unregisterPublisher, State.registerPublisher]
    rw [forLevels_eq _ (by decide), ok_bind, forLevels_eq _ (by decide)]
  have hreach₁ : system.Reachable s₁ := reachable_first 1 (by decide) (by decide)
  have hreach₂ : system.Reachable s₂ :=
    .step (e := .setLevel 1 .warn .warn) hreach₁
      ⟨⟨Option.some_ne_none _, by decide, by decide⟩, h₂⟩
  exact ⟨s₂, ⟨s₁, h₁, h₂⟩, ((log_routing hreach₂).2 .warn (by decide)).1⟩

end Mwr.Logging
