import Mwr.PagedMemory.Model

/-!
# The bounds of memory objects

* `Holds` is what an object with memory knows, and `Valid` is the invariant of all runs.
  `step_cases` says once what a step can do.
* `Accurate` is what an object without memory knows.  A move from an object with memory
  leaves one behind that does not.
* `checked_of_reachable` is the result for the runs without such moves, and `move_breaks` says
  that every such move breaks it.
-/

namespace Mwr.PagedMemory

open Mwr.CodeLib.BitField
open Mwr.CodeLib.Transition

variable {host : Host} {s s' : State} {o o' : Memory} {id : Nat}

/-! ## Rounding -/

/-- The rounded size is the multiple of a page, unless the sum has wrapped around. -/
theorem toNat_roundUp (size : BitVec 64) :
    (host.roundUp size).toNat =
      (size.toNat + (2 ^ host.pageBits - 1)) % 2 ^ 64 / 2 ^ host.pageBits *
        2 ^ host.pageBits := by
  have hpos : 0 < 2 ^ host.pageBits := Nat.two_pow_pos _
  have hpow : 2 ^ host.pageBits < 2 ^ 64 := Nat.pow_lt_pow_right (by decide) host.pageBits_lt
  have hpage : host.pageSize.toNat = 2 ^ host.pageBits := by
    rw [Host.pageSize, BitVec.toNat_shiftLeft, BitVec.toNat_ofNat,
      Nat.mod_eq_of_lt (by decide : 1 < 2 ^ 64), Nat.one_shiftLeft, Nat.mod_eq_of_lt hpow]
  have hsum : (size + host.pageSize - 1#64).toNat =
      (size.toNat + (2 ^ host.pageBits - 1)) % 2 ^ 64 := by
    rw [BitVec.toNat_sub, BitVec.toNat_add, hpage, BitVec.toNat_ofNat]
    omega
  rw [Host.roundUp, Host.pageSize, toNat_and_not_ones _ host.pageBits_lt]
  rw [Host.pageSize] at hsum
  rw [hsum]

theorem le_roundUp {size : BitVec 64} (h : size.toNat + (2 ^ host.pageBits - 1) < 2 ^ 64) :
    size.toNat ≤ (host.roundUp size).toNat := by
  have hpos : 0 < 2 ^ host.pageBits := Nat.two_pow_pos _
  rw [toNat_roundUp, Nat.mod_eq_of_lt h]
  have hdiv := Nat.div_add_mod' (size.toNat + (2 ^ host.pageBits - 1)) (2 ^ host.pageBits)
  have hmod := Nat.mod_lt (size.toNat + (2 ^ host.pageBits - 1)) hpos
  omega

theorem roundUp_of_wrap {size : BitVec 64}
    (h : 2 ^ 64 ≤ size.toNat + (2 ^ host.pageBits - 1)) : host.roundUp size = 0 := by
  have hpos : 0 < 2 ^ host.pageBits := Nat.two_pow_pos _
  have hpow : 2 ^ host.pageBits < 2 ^ 64 := Nat.pow_lt_pow_right (by decide) host.pageBits_lt
  have hsize := size.isLt
  apply BitVec.eq_of_toNat_eq
  rw [toNat_roundUp, Nat.div_eq_of_lt (by omega), Nat.zero_mul]
  rfl

/-- The operating system refuses the sizes for which the rounding wraps around. -/
theorem le_roundUp_of_grants {regions : List Region} {addr : Nat} {size : BitVec 64}
    (h : Grants host regions (Memory.region host ⟨addr, size, host.roundUp size⟩)) :
    size.toNat ≤ (host.roundUp size).toNat := by
  by_cases hwrap : size.toNat + (2 ^ host.pageBits - 1) < 2 ^ 64
  · exact le_roundUp hwrap
  · exfalso
    have hlen := h.len
    have hstart := h.start
    have haligned := h.aligned
    have hstop := h.stop
    unfold Memory.region at hlen hstart haligned hstop
    split at hlen
    next => exact hlen (by rw [roundUp_of_wrap (Nat.le_of_not_lt hwrap)]; rfl)
    next hplatform =>
      rw [hplatform] at hstart haligned hstop
      have hle := Nat.le_of_dvd (Nat.pos_of_ne_zero hstart) (Nat.dvd_of_mod_eq_zero haligned)
      dsimp only [Region.stop] at hle hstop
      omega

/-! ## What holds in all runs -/

/-- An object with memory has a mapping that covers its size. -/
structure Holds (host : Host) (s : State) (o : Memory) : Prop where
  size_pos : 0 < o.size.toNat
  size_le : o.size.toNat ≤ (o.region host).len
  region : o.region host ∈ s.regions

/-- The invariant of all runs. -/
structure Valid (host : Host) (s : State) : Prop where
  holds : ∀ id o, s.objects id = some o → o.data ≠ 0 → Holds host s o
  total : ∀ id o, s.objects id = some o → o.size.toNat ≤ o.totalSize.toNat
  unique : ∀ id id' o o', s.objects id = some o → s.objects id' = some o' →
    o.data = o'.data → o.data ≠ 0 → id = id'
  apart : ∀ r ∈ s.regions, ∀ r' ∈ s.regions, r = r' ∨ r.Apart r'

theorem region_start (host : Host) (o : Memory) : (o.region host).start = o.data := by
  unfold Memory.region
  split <;> rfl

theorem alloc_eq_ok {answer : Option Nat} {size : BitVec 64}
    (h : o.alloc host answer size = .ok o') :
    o.data = 0 ∧ size ≠ 0 ∧ ∃ addr, o' = ⟨addr, size, host.roundUp size⟩ := by
  unfold Memory.alloc at h
  by_cases hdata : o.data = 0
  · rw [if_neg (not_not.2 hdata)] at h
    by_cases hsize : size = 0
    · rw [if_pos hsize] at h
      cases h
    · rw [if_neg hsize] at h
      cases answer with
      | none => cases h
      | some addr =>
        cases h
        exact ⟨hdata, hsize, addr, rfl⟩
  · rw [if_pos hdata] at h
    cases h

theorem State.alloc_eq_some {answer : Option Nat} {size : BitVec 64}
    (h : s.alloc host id size answer o = some s') :
    ∃ addr, size ≠ 0 ∧
      Grants host s.regions (Memory.region host ⟨addr, size, host.roundUp size⟩) ∧
      s' = ⟨Function.update s.objects id (some ⟨addr, size, host.roundUp size⟩),
        Memory.region host ⟨addr, size, host.roundUp size⟩ :: s.regions⟩ := by
  obtain ⟨o', ho, h⟩ := Option.bind_eq_some_iff.1 h
  have halloc : o.alloc host answer size = .ok o' := by
    cases hres : o.alloc host answer size with
    | error e =>
      rw [hres] at ho
      cases ho
    | ok o₁ =>
      rw [hres] at ho
      cases ho
      rfl
  obtain ⟨-, hsize, addr, rfl⟩ := alloc_eq_ok halloc
  obtain ⟨hgrants, h⟩ := Option.ite_none_right_eq_some.1 h
  exact ⟨addr, hsize, hgrants, (Option.some.inj h).symm⟩

theorem update_eq_some {objects : Nat → Option Memory} {value : Option Memory} {id' : Nat}
    (h : Function.update objects id value id' = some o') :
    id' = id ∧ value = some o' ∨ id' ≠ id ∧ objects id' = some o' := by
  by_cases hid : id' = id
  · rw [hid, Function.update_self] at h
    exact .inl ⟨hid, h⟩
  · rw [Function.update_of_ne hid] at h
    exact .inr ⟨hid, h⟩

/-- An object without memory takes the place of another one, whose mapping stays. -/
theorem Valid.set_empty (h : Valid host s) (id : Nat) (rest : Option Memory)
    (hrest : ∀ o, rest = some o → o.data = 0 ∧ o.size.toNat ≤ o.totalSize.toNat) :
    Valid host { s with objects := Function.update s.objects id rest } where
  holds id' o' ho' hdata := by
    rcases update_eq_some ho' with ⟨-, hvalue⟩ | ⟨-, hold⟩
    · exact absurd (hrest o' hvalue).1 hdata
    · obtain ⟨hpos, hle, hregion⟩ := h.holds id' o' hold hdata
      exact ⟨hpos, hle, hregion⟩
  total id' o' ho' := by
    rcases update_eq_some ho' with ⟨-, hvalue⟩ | ⟨-, hold⟩
    · exact (hrest o' hvalue).2
    · exact h.total id' o' hold
  unique id₁ id₂ o₁ o₂ h₁ h₂ heq hdata := by
    rcases update_eq_some h₁ with ⟨-, hvalue⟩ | ⟨-, hold₁⟩
    · exact absurd (hrest o₁ hvalue).1 hdata
    · rcases update_eq_some h₂ with ⟨-, hvalue⟩ | ⟨-, hold₂⟩
      · exact absurd (hrest o₂ hvalue).1 (heq ▸ hdata)
      · exact h.unique id₁ id₂ o₁ o₂ hold₁ hold₂ heq hdata
  apart := h.apart

/-- No object has the data of a mapping that the operating system grants. -/
theorem Valid.ne_of_grants (h : Valid host s) {r : Region} (hgrants : Grants host s.regions r)
    {o : Memory} (ho : s.objects id = some o) : o.data ≠ r.start := by
  intro heq
  have hholds := h.holds id o ho (heq ▸ hgrants.start)
  have hpos := hholds.size_pos
  have hle := hholds.size_le
  have hlen := hgrants.len
  have hstart := region_start host o
  rcases hgrants.apart _ hholds.region with hapart | hapart <;>
    · unfold Region.stop at hapart
      omega

theorem Valid.alloc (h : Valid host s) {size : BitVec 64} {answer : Option Nat}
    (halloc : s.alloc host id size answer o = some s') : Valid host s' := by
  obtain ⟨addr, hsize, hgrants, rfl⟩ := State.alloc_eq_some halloc
  have hle := le_roundUp_of_grants hgrants
  have hpos : 0 < size.toNat :=
    Nat.pos_of_ne_zero fun hzero => hsize (BitVec.eq_of_toNat_eq hzero)
  have hstart : (Memory.region host ⟨addr, size, host.roundUp size⟩).start = addr :=
    region_start host _
  have hlen : size.toNat ≤ (Memory.region host ⟨addr, size, host.roundUp size⟩).len := by
    unfold Memory.region
    split
    next => exact hle
    next => exact Nat.le_refl _
  refine ⟨fun id' o' ho' hdata => ?_, fun id' o' ho' => ?_, fun id₁ id₂ o₁ o₂ h₁ h₂ heq hdata => ?_,
    fun r hr r' hr' => ?_⟩
  · rcases update_eq_some ho' with ⟨-, hvalue⟩ | ⟨-, hold⟩
    · cases hvalue
      exact ⟨hpos, hlen, List.mem_cons_self⟩
    · obtain ⟨hpos', hle', hregion⟩ := h.holds id' o' hold hdata
      exact ⟨hpos', hle', List.mem_cons_of_mem _ hregion⟩
  · rcases update_eq_some ho' with ⟨-, hvalue⟩ | ⟨-, hold⟩
    · cases hvalue
      exact hle
    · exact h.total id' o' hold
  · rcases update_eq_some h₁ with ⟨hid₁, hvalue₁⟩ | ⟨-, hold₁⟩
    · rcases update_eq_some h₂ with ⟨hid₂, -⟩ | ⟨-, hold₂⟩
      · rw [hid₁, hid₂]
      · cases hvalue₁
        exact absurd (heq.symm.trans hstart.symm) (h.ne_of_grants hgrants hold₂)
    · rcases update_eq_some h₂ with ⟨-, hvalue₂⟩ | ⟨-, hold₂⟩
      · cases hvalue₂
        exact absurd (heq.trans hstart.symm) (h.ne_of_grants hgrants hold₁)
      · exact h.unique id₁ id₂ o₁ o₂ hold₁ hold₂ heq hdata
  · rcases List.mem_cons.1 hr with rfl | hr
    · rcases List.mem_cons.1 hr' with rfl | hr'
      · exact .inl rfl
      · exact .inr (hgrants.apart r' hr')
    · rcases List.mem_cons.1 hr' with rfl | hr'
      · exact .inr (hgrants.apart r hr).symm
      · exact h.apart r hr r' hr'

/-- The mappings of the other objects outlive the one that is given back. -/
theorem Valid.mem_unmap (h : Valid host s) (ho : s.objects id = some o) (hdata : o.data ≠ 0)
    {id' : Nat} (ho' : s.objects id' = some o') (hdata' : o'.data ≠ 0) (hid : id' ≠ id) :
    o'.region host ∈ o.unmap host s.regions := by
  have hregion := (h.holds id o ho hdata).region
  have hregion' := (h.holds id' o' ho' hdata').region
  have hne : o'.data ≠ o.data := fun heq => hid (h.unique id' id o' o ho' ho heq hdata')
  have hstart : (o'.region host).start ≠ o.data := by rwa [region_start]
  unfold Memory.unmap
  split
  next hplatform =>
    refine List.mem_filter.2 ⟨hregion', decide_eq_true ?_⟩
    have hrange : o.region host = ⟨o.data, o.totalSize.toNat⟩ := by
      rw [Memory.region, hplatform]
    rw [← hrange]
    refine (h.apart _ hregion' _ hregion).resolve_left fun heq => hstart ?_
    rw [heq, region_start]
  next => exact List.mem_filter.2 ⟨hregion', decide_eq_true hstart⟩

theorem unmap_subset (host : Host) (o : Memory) (regions : List Region) :
    o.unmap host regions ⊆ regions := by
  unfold Memory.unmap
  split
  next => exact fun r hr => (List.mem_filter.1 hr).1
  next => exact fun r hr => (List.mem_filter.1 hr).1

theorem Valid.free (h : Valid host s) (ho : s.objects id = some o) {rest : Option Memory}
    (hrest : ∀ o, rest = some o → o.data = 0 ∧ o.size.toNat ≤ o.totalSize.toNat) :
    Valid host (s.free host id rest o) := by
  have hset := h.set_empty id rest hrest
  unfold State.free
  split
  next hdata =>
    refine ⟨fun id' o' ho' hdata' => ?_, hset.total, hset.unique, fun r hr r' hr' =>
      h.apart r (unmap_subset host o _ hr) r' (unmap_subset host o _ hr')⟩
    obtain ⟨hpos, hle, -⟩ := hset.holds id' o' ho' hdata'
    refine ⟨hpos, hle, ?_⟩
    rcases update_eq_some ho' with ⟨-, hvalue⟩ | ⟨hid, hold⟩
    · exact absurd (hrest o' hvalue).1 hdata'
    · exact h.mem_unmap ho hdata hold hdata' hid
  next => exact hset

theorem Valid.move (h : Valid host s) {other : Nat} (hid : s.objects id = none)
    (ho : s.objects other = some o) : Valid host (s.move id other o) := by
  have hne : id ≠ other := fun heq => by
    rw [heq, ho] at hid
    cases hid
  have hempty := h.set_empty other (some o.move.2) fun _ hrest => by
    cases hrest
    exact ⟨rfl, h.total other o ho⟩
  -- no other object is left with the data
  have hgone : ∀ id' o', Function.update s.objects other (some o.move.2) id' = some o' →
      o'.data = o.data → o.data ≠ 0 → False := fun id' o' ho' heq hdata => by
    rcases update_eq_some ho' with ⟨-, hvalue⟩ | ⟨hother, hold⟩
    · cases hvalue
      exact hdata heq.symm
    · exact hother (h.unique id' other o' o hold ho heq (heq ▸ hdata))
  refine ⟨fun id' o' ho' hdata => ?_, fun id' o' ho' => ?_, fun id₁ id₂ o₁ o₂ h₁ h₂ heq hdata => ?_,
    h.apart⟩
  · rcases update_eq_some ho' with ⟨-, hvalue⟩ | ⟨-, hold⟩
    · cases hvalue
      obtain ⟨hpos, hle, hregion⟩ := h.holds other o ho hdata
      exact ⟨hpos, hle, hregion⟩
    · obtain ⟨hpos, hle, hregion⟩ := hempty.holds id' o' hold hdata
      exact ⟨hpos, hle, hregion⟩
  · rcases update_eq_some ho' with ⟨-, hvalue⟩ | ⟨-, hold⟩
    · cases hvalue
      exact h.total other o ho
    · exact hempty.total id' o' hold
  · rcases update_eq_some h₁ with ⟨hid₁, hvalue₁⟩ | ⟨-, hold₁⟩
    · rcases update_eq_some h₂ with ⟨hid₂, -⟩ | ⟨-, hold₂⟩
      · rw [hid₁, hid₂]
      · cases hvalue₁
        exact (hgone id₂ o₂ hold₂ heq.symm hdata).elim
    · rcases update_eq_some h₂ with ⟨-, hvalue₂⟩ | ⟨-, hold₂⟩
      · cases hvalue₂
        exact (hgone id₁ o₁ hold₁ heq (heq ▸ hdata)).elim
      · exact hempty.unique id₁ id₂ o₁ o₂ hold₁ hold₂ heq hdata

/-! ## Steps -/

theorem Memory.free_empty (htotal : o.size.toNat ≤ o.totalSize.toNat) :
    o.free.data = 0 ∧ o.free.size.toNat ≤ o.free.totalSize.toNat := by
  unfold Memory.free
  split
  next => exact ⟨rfl, Nat.le_refl _⟩
  next hdata => exact ⟨not_not.1 hdata, htotal⟩

/-- What a step can do. -/
theorem step_cases {e : Label} (h : step host s e = some s') :
    (∃ id, e = .construct id ∧ s' = ⟨Function.update s.objects id (some .new), s.regions⟩) ∨
    (∃ id size answer o, (e = .constructSize id size answer ∨ e = .alloc id size answer) ∧
      s.alloc host id size answer o = some s') ∨
    (∃ id other o, e = .move id other ∧ s.objects id = none ∧ s.objects other = some o ∧
      s' = s.move id other o) ∨
    (∃ id o rest, (e = .free id ∧ rest = some o.free ∨ e = .destroy id ∧ rest = none) ∧
      s.objects id = some o ∧ s' = s.free host id rest o) := by
  cases e with
  | construct id =>
    left
    cases ho : s.objects id with
    | none =>
      simp only [step, ho] at h
      exact ⟨id, rfl, (Option.some.inj h).symm⟩
    | some o => simp [step, ho] at h
  | constructSize id size answer =>
    right; left
    cases ho : s.objects id with
    | none =>
      simp only [step, ho] at h
      exact ⟨id, size, answer, .new, .inl rfl, h⟩
    | some o => simp [step, ho] at h
  | move id other =>
    right; right; left
    cases hid : s.objects id with
    | none =>
      cases ho : s.objects other with
      | none => simp [step, hid, ho] at h
      | some o =>
        simp only [step, hid, ho] at h
        exact ⟨id, other, o, rfl, hid, ho, (Option.some.inj h).symm⟩
    | some o => simp [step, hid] at h
  | alloc id size answer =>
    right; left
    obtain ⟨o, -, h⟩ := Option.bind_eq_some_iff.1 h
    exact ⟨id, size, answer, o, .inr rfl, h⟩
  | free id =>
    right; right; right
    obtain ⟨o, ho, h⟩ := Option.map_eq_some_iff.1 h
    exact ⟨id, o, some o.free, .inl ⟨rfl, rfl⟩, ho, h.symm⟩
  | destroy id =>
    right; right; right
    obtain ⟨o, ho, h⟩ := Option.map_eq_some_iff.1 h
    exact ⟨id, o, none, .inr ⟨rfl, rfl⟩, ho, h.symm⟩

theorem Valid.step {e : Label} (h : Valid host s) (hstep : step host s e = some s') :
    Valid host s' := by
  rcases step_cases hstep with ⟨id, -, rfl⟩ | ⟨id, size, answer, o, -, halloc⟩ |
    ⟨id, other, o, -, hid, ho, rfl⟩ | ⟨id, o, rest, hrest, ho, rfl⟩
  · exact h.set_empty id _ fun _ hnew => by cases hnew; exact ⟨rfl, Nat.le_refl _⟩
  · exact h.alloc halloc
  · exact h.move hid ho
  · refine h.free ho fun o' ho' => ?_
    rcases hrest with ⟨-, rfl⟩ | ⟨-, rfl⟩
    · cases ho'
      exact Memory.free_empty (h.total id o ho)
    · cases ho'

theorem valid_of_reachable (h : (system host).Reachable s) : Valid host s := by
  refine System.Reachable.invariant ?_ (fun _ _ _ _ hs hstep => hs.step hstep) h
  rintro s rfl
  exact ⟨nofun, nofun, nofun, nofun⟩

/-! ## Runs without a move from an object with memory -/

/-- A move is from an object without memory. -/
def MovesEmpty (s : State) : Label → Prop
  | .move _ other => ∀ o, s.objects other = some o → o.data = 0
  | .construct _ | .constructSize _ _ _ | .alloc _ _ _ | .free _ | .destroy _ => True

/-- An object without memory has no size. -/
def Accurate (s : State) : Prop := ∀ id o, s.objects id = some o → o.data = 0 → o.size = 0

theorem Accurate.step {e : Label} (h : Accurate s) (hmove : MovesEmpty s e)
    (hstep : step host s e = some s') : Accurate s' := by
  intro id' o' ho' hdata
  rcases step_cases hstep with ⟨id, -, rfl⟩ | ⟨id, size, answer, o, -, halloc⟩ |
    ⟨id, other, o, rfl, -, ho, rfl⟩ | ⟨id, o, rest, hrest, ho, rfl⟩
  · rcases update_eq_some ho' with ⟨-, hvalue⟩ | ⟨-, hold⟩
    · cases hvalue
      rfl
    · exact h id' o' hold hdata
  · obtain ⟨addr, -, hgrants, rfl⟩ := State.alloc_eq_some halloc
    rcases update_eq_some ho' with ⟨-, hvalue⟩ | ⟨-, hold⟩
    · cases hvalue
      exact absurd (region_start host _ |>.trans hdata) hgrants.start
    · exact h id' o' hold hdata
  · have hsize := h other o ho (hmove o ho)
    rcases update_eq_some ho' with ⟨-, hvalue⟩ | ⟨-, hold⟩
    · cases hvalue
      exact hsize
    · rcases update_eq_some hold with ⟨-, hvalue⟩ | ⟨-, hold⟩
      · cases hvalue
        exact hsize
      · exact h id' o' hold hdata
  · rcases update_eq_some ho' with ⟨-, hvalue⟩ | ⟨-, hold⟩
    · rcases hrest with ⟨-, rfl⟩ | ⟨-, rfl⟩
      · cases hvalue
        unfold Memory.free at hdata ⊢
        split
        next => rfl
        next hnull => exact h id o ho (not_not.1 hnull)
      · cases hvalue
    · exact h id' o' hold hdata

/-! ## Results -/

/-- The address is in a mapping that the object holds, and no other one. -/
def Owns (s : State) (id : Nat) (o : Memory) (addr : Nat) : Prop :=
  (∃ r ∈ s.regions, r.start = o.data ∧ r.start ≤ addr ∧ addr < r.stop) ∧
    ∀ id' o', s.objects id' = some o' → o'.data = o.data → id' = id

/-- The bounds check of an object is sound. -/
structure Checked (s : State) (id : Nat) (o : Memory) : Prop where
  null_iff : o.data = 0 ↔ o.size = 0
  size_le : o.size ≤ o.totalSize
  access : ∀ idx, o.at idx = .error (.error "memory access out of bounds") ∨
    ∃ addr, o.at idx = .ok addr ∧ Owns s id o addr

theorem checked_of_valid (h : Valid host s) (haccurate : Accurate s) (ho : s.objects id = some o) :
    Checked s id o where
  null_iff := by
    refine ⟨haccurate id o ho, fun hsize => ?_⟩
    by_contra hdata
    exact absurd (h.holds id o ho hdata).size_pos (by rw [hsize]; decide)
  size_le := h.total id o ho
  access idx := by
    by_cases hidx : idx ≥ o.size
    · exact .inl (if_pos hidx)
    · right
      have hlt : idx.toNat < o.size.toNat := Nat.lt_of_not_le hidx
      have hdata : o.data ≠ 0 := fun hdata => by
        rw [haccurate id o ho hdata] at hlt
        exact Nat.not_lt_zero _ hlt
      obtain ⟨-, hle, hregion⟩ := h.holds id o ho hdata
      have hstart := region_start host o
      refine ⟨_, if_neg hidx, ⟨_, hregion, hstart, ?_, ?_⟩, fun id' o' ho' heq =>
        h.unique id' id o' o ho' ho heq (heq ▸ hdata)⟩
      · omega
      · unfold Region.stop
        omega

/-- In every run in which no object with memory is moved from, the bounds checks of all
objects are sound. -/
theorem checked_of_reachable (host : Host) (s : State)
    (h : ((system host).restrict MovesEmpty).Reachable s) (id : Nat) (o : Memory)
    (ho : s.objects id = some o) : Checked s id o := by
  refine checked_of_valid (valid_of_reachable h.of_restrict) ?_ ho
  refine System.Reachable.invariant ?_ (fun _ _ _ _ hs hstep => hs.step hstep.1 hstep.2) h
  rintro s rfl
  exact nofun

/-- Pages of 4096 bytes. -/
def sampleHost : Host := ⟨.posix, 12, by decide⟩

/-- An object has got other memory, and two are constructed of which one is moved. -/
theorem checked_of_reachable_sample :
    ∃ s, ((system sampleHost).restrict MovesEmpty).Reachable s ∧
      s.objects 0 = some ⟨8192, 32, 4096⟩ ∧ s.objects 2 = some .new ∧
      Checked s 0 ⟨8192, 32, 4096⟩ ∧ Checked s 2 .new := by
  have hsized : ((system sampleHost).restrict MovesEmpty).Reachable _ :=
    .step (e := .constructSize 0 16 (some 4096)) (.init rfl) ⟨trivial, rfl⟩
  have hfreed := hsized.step (e := Label.free 0) ⟨trivial, rfl⟩
  have halloc := hfreed.step (e := Label.alloc 0 32 (some 8192)) ⟨trivial, rfl⟩
  have hempty := halloc.step (e := Label.construct 1) ⟨trivial, rfl⟩
  have hmoved := hempty.step (e := Label.move 2 1) ⟨?_, rfl⟩
  · exact ⟨_, hmoved, rfl, rfl, checked_of_reachable sampleHost _ hmoved 0 _ rfl,
      checked_of_reachable sampleHost _ hmoved 2 _ rfl⟩
  · rintro o ho
    cases ho
    rfl

/-- A move from an object with memory leaves one behind whose bounds check is not sound. -/
theorem move_breaks (h : (system host).Reachable s) {other : Nat} (ho : s.objects other = some o)
    (hdata : o.data ≠ 0) (hstep : step host s (.move id other) = some s') :
    s'.objects other = some o.move.2 ∧ ¬ Checked s' other o.move.2 := by
  constructor
  · rcases step_cases hstep with ⟨_, he, -⟩ | ⟨_, _, _, _, he | he, -⟩ |
      ⟨id', other', o', he, hid, ho', rfl⟩ | ⟨_, _, _, ⟨he, -⟩ | ⟨he, -⟩, -⟩
    · cases he
    · cases he
    · cases he
    · cases he
      have hne : other ≠ id := fun heq => by
        rw [heq, hid] at ho
        cases ho
      cases ho.symm.trans ho'
      simp only [State.move]
      rw [Function.update_of_ne hne, Function.update_self]
    · cases he
    · cases he
  · intro hchecked
    have hsize : o.size = 0 := hchecked.null_iff.1 rfl
    exact absurd ((valid_of_reachable h).holds other o ho hdata).size_pos (by rw [hsize]; decide)

/-- Behind a move from an object of 16 bytes, its first byte is at a null pointer, and
nothing is mapped there. -/
theorem access_after_move : ∃ s, (system sampleHost).Reachable s ∧
    ∃ o, s.objects 0 = some o ∧ o.at 0 = .ok 0 ∧ (∀ r ∈ s.regions, 0 < r.start) ∧
      ¬ Checked s 0 o := by
  have hfirst : (system sampleHost).Reachable
      ⟨Function.update (fun _ => none) 0 (some ⟨4096, 16, 4096⟩), [⟨4096, 4096⟩]⟩ :=
    .step (e := .constructSize 0 16 (some 4096)) (.init rfl) rfl
  have hstep : step sampleHost
      ⟨Function.update (fun _ => none) 0 (some ⟨4096, 16, 4096⟩), [⟨4096, 4096⟩]⟩ (.move 1 0) =
        some _ := rfl
  refine ⟨_, .step hfirst hstep, ⟨0, 16, 4096⟩, rfl, rfl, by decide, fun h => ?_⟩
  exact absurd (h.null_iff.1 rfl) (by decide)

end Mwr.PagedMemory
