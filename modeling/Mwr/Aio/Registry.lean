import Mathlib.Data.List.AList

/-!
# The registrations of the aio thread

What `src/mwr/utils/aio_posix.cpp` and `src/mwr/utils/aio_win32.cpp` share: the
fields `m_mtx`, `m_handlers` and `m_gen` of the class `aio`, and the calls of
`notify` and `cancel` that change them.  A call takes the mutex, changes
`m_handlers`, increments `m_gen`, and drops the mutex when it returns; each of
these is one step.  The thread of the class takes the same mutex in its loop.

`Coherent` says that a list of descriptors is up to date with the registrations; the
steps keep it, except where the thread itself removes a registration or the counter
comes around.
-/

namespace Mwr.Aio

/-- A call of `notify` or `cancel`. -/
inductive Call (H : Type) where
  | notify (fd : Int) (handler : H)
  | cancel (fd : Int)
  deriving DecidableEq, Repr

/-- The argument `fd` of a call. -/
def Call.fd {H : Type} : Call H → Int
  | notify fd _ => fd
  | cancel fd => fd

/-- Who calls: a handler that the thread runs, or another thread. -/
inductive Caller where
  | handler
  | other
  deriving DecidableEq, Repr

/-- What a call that holds the mutex has done. -/
inductive Stage where
  | entered
  | changed
  | counted
  deriving DecidableEq, Repr

/-- Who holds the mutex. -/
inductive Owner (H : Type) where
  | thread
  | call (caller : Caller) (call : Call H) (stage : Stage)
  deriving DecidableEq, Repr

/-- The fields `m_handlers`, `m_gen` and `m_mtx`.  The map is from `K` to `V`, and
the handlers are of type `H`. -/
structure Registry (K V H : Type) [DecidableEq K] where
  handlers : AList fun _ : K => V
  gen : BitVec 64
  owner : Option (Owner H)

namespace Registry

variable {K V H : Type} [DecidableEq K]

/-- No registrations. -/
def empty : Registry K V H where
  handlers := ∅
  gen := 0
  owner := none

/-- Take the mutex. -/
def lock (r : Registry K V H) (owner : Owner H) : Option (Registry K V H) :=
  match r.owner with
  | none => some { r with owner := some owner }
  | some _ => none

/-- A call changes the value of the key `key`; `value` is what it registers. -/
def change (r : Registry K V H) (key : K) (value : Int → H → V) : Option (Registry K V H) :=
  match r.owner with
  | some (.call caller call .entered) =>
    some {
      handlers := match call with
        | .notify fd handler => r.handlers.insert key (value fd handler)
        | .cancel _ => r.handlers.erase key
      gen := r.gen
      owner := some (.call caller call .changed) }
  | _ => none

/-- `m_gen++`. -/
def count (r : Registry K V H) : Option (Registry K V H) :=
  match r.owner with
  | some (.call caller call .changed) =>
    some { r with gen := r.gen + 1, owner := some (.call caller call .counted) }
  | _ => none

/-- A call drops the mutex and returns. -/
def unlock (r : Registry K V H) : Option (Call H × Registry K V H) :=
  match r.owner with
  | some (.call _ call .counted) => some (call, { r with owner := none })
  | _ => none

/-- A call is between its change and `m_gen++`. -/
def changing (r : Registry K V H) : Bool :=
  match r.owner with
  | some (.call _ _ .changed) => true
  | _ => false

/-- The thread drops the mutex, and leaves these handlers. -/
def release (r : Registry K V H) (handlers : AList fun _ : K => V) : Registry K V H :=
  { r with handlers := handlers, owner := none }

/-! ## What an operation does -/

section Operations

variable {r r' : Registry K V H}

theorem lock_eq_some {owner : Owner H} (h : r.lock owner = some r') :
    r.owner = none ∧ r' = { r with owner := some owner } := by
  rw [lock] at h
  split at h
  next howner =>
    cases h
    exact ⟨howner, rfl⟩
  next => cases h

theorem change_eq_some {key : K} {value : Int → H → V} (h : r.change key value = some r') :
    ∃ caller call, r.owner = some (.call caller call .entered) ∧
      r'.owner = some (.call caller call .changed) := by
  rw [change] at h
  split at h
  next caller call howner =>
    cases h
    exact ⟨caller, call, howner, rfl⟩
  next => cases h

theorem count_eq_some (h : r.count = some r') :
    ∃ caller call, r.owner = some (.call caller call .changed) ∧
      r' = { r with gen := r.gen + 1, owner := some (.call caller call .counted) } := by
  rw [count] at h
  split at h
  next caller call howner =>
    cases h
    exact ⟨caller, call, howner, rfl⟩
  next => cases h

theorem unlock_eq_some {call : Call H} (h : r.unlock = some (call, r')) :
    ∃ caller, r.owner = some (.call caller call .counted) ∧ r' = { r with owner := none } := by
  rw [unlock] at h
  split at h
  next caller call howner =>
    cases h
    exact ⟨caller, howner, rfl⟩
  next => cases h

end Operations

/-! ## The list of descriptors -/

/-- The list `polls` of the thread is up to date if the thread remembers the current
`m_gen`, and the thread holds the mutex where it thinks so. -/
structure Coherent (r : Registry K V H) (polls : List K) (curgen : BitVec 64)
    (locked : Bool) : Prop where
  inStep : curgen = r.gen → r.changing = false → polls.Perm r.handlers.keys
  owner : locked = true → r.owner = some .thread

variable {r r' : Registry K V H} {polls : List K} {curgen : BitVec 64} {locked : Bool}

theorem Coherent.of_unlocked (hlocked : locked = false)
    (inStep : curgen = r.gen → r.changing = false → polls.Perm r.handlers.keys) :
    r.Coherent polls curgen locked where
  inStep := inStep
  owner := fun h => by rw [hlocked] at h; cases h

theorem coherent_empty : (empty : Registry K V H).Coherent [] 0 false :=
  .of_unlocked rfl fun _ _ => .nil

/-- While a call holds the mutex, the thread does not. -/
theorem Coherent.not_locked (h : r.Coherent polls curgen locked)
    (howner : r.owner ≠ some .thread) : locked = false := by
  rw [← Bool.not_eq_true]
  intro hlocked
  exact howner (h.owner hlocked)

theorem Coherent.lock {owner : Owner H} (h : r.Coherent polls curgen locked)
    (hstep : r.lock owner = some r') : r'.Coherent polls curgen locked := by
  rcases lock_eq_some hstep with ⟨hfree, rfl⟩
  have hlocked := h.not_locked (by rw [hfree]; exact (Option.some_ne_none _).symm)
  exact .of_unlocked hlocked fun hgen _ => h.inStep hgen (by rw [changing, hfree])

theorem Coherent.change {key : K} {value : Int → H → V} (h : r.Coherent polls curgen locked)
    (hstep : r.change key value = some r') : r'.Coherent polls curgen locked := by
  rcases change_eq_some hstep with ⟨caller, call, howner, howner'⟩
  have hlocked := h.not_locked (by rw [howner]; rintro ⟨⟩)
  refine .of_unlocked hlocked fun _ hchanging => ?_
  rw [changing, howner'] at hchanging
  cases hchanging

/-- The counter must not come around to the value that the thread remembers. -/
theorem Coherent.count (h : r.Coherent polls curgen locked) (hwrap : r.gen + 1 ≠ curgen)
    (hstep : r.count = some r') : r'.Coherent polls curgen locked := by
  rcases count_eq_some hstep with ⟨caller, call, howner, rfl⟩
  have hlocked := h.not_locked (by rw [howner]; rintro ⟨⟩)
  exact .of_unlocked hlocked fun hgen _ => absurd hgen.symm hwrap

theorem Coherent.unlock {call : Call H} (h : r.Coherent polls curgen locked)
    (hstep : r.unlock = some (call, r')) : r'.Coherent polls curgen locked := by
  rcases unlock_eq_some hstep with ⟨caller, howner, rfl⟩
  have hlocked := h.not_locked (by rw [howner]; rintro ⟨⟩)
  exact .of_unlocked hlocked fun hgen _ => h.inStep hgen (by rw [changing, howner])

/-- The thread moves to a position where it does not hold the mutex. -/
theorem Coherent.move (h : r.Coherent polls curgen locked) : r.Coherent polls curgen false :=
  .of_unlocked rfl h.inStep

/-- The thread drops a list that is not up to date. -/
theorem Coherent.clear (hgen : curgen ≠ r.gen) : r.Coherent [] curgen false :=
  .of_unlocked rfl fun h => absurd h hgen

/-- The thread takes the mutex. -/
theorem Coherent.take (h : r.Coherent polls curgen locked) (hfree : r.owner = none) :
    Registry.Coherent (H := H) { r with owner := some .thread } polls curgen true where
  inStep := fun hgen _ => h.inStep hgen (by rw [changing, hfree])
  owner := fun _ => rfl

/-- The thread drops the mutex, after a change that it makes only if it does not
remember the current `m_gen`. -/
theorem Coherent.release {handlers : AList fun _ : K => V} (h : r.Coherent polls curgen true)
    (hsame : curgen = r.gen → handlers = r.handlers) :
    (r.release handlers).Coherent polls curgen false := by
  refine .of_unlocked rfl fun hgen _ => ?_
  have hperm := h.inStep hgen (by rw [changing, h.owner rfl])
  rw [← hsame hgen] at hperm
  exact hperm

/-- The thread drops the mutex after it has read the registrations. -/
theorem Coherent.rebuild {order : List K} (h : order.Perm r.handlers.keys) :
    (r.release r.handlers).Coherent order r.gen false :=
  .of_unlocked rfl fun _ _ => h

end Registry

end Mwr.Aio
