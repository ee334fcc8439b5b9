import Mathlib.Logic.Function.Basic
import Mwr.CodeLib.Memory
import Mwr.PagedMemory.Bounds

/-!
# Memory objects as arrays

The class `memory` once more, with the bytes in memory: `operator[]`, the variant of `alloc` with a
fill value and `alloc0`.  The operating system gives pages that are zero.

* A `Process` has the objects and mappings of `State` with the bytes at all addresses.
* `Arrays` is what the class is for: each object is an array of its own, of which nothing is
  known but its elements.
* `arrays_step` says that a call does to the objects what it does to the arrays, and
  `memories_are_arrays` is the result for all runs.

A call of `operator[]` is for an object with memory.  An object that has been moved from keeps its
size without it.
-/

namespace Mwr.PagedMemory

open Mwr.CodeLib (Bytes)
open Mwr.CodeLib.Memory
open Mwr.CodeLib.Transition

/-! ## The code -/

/-- The objects, and the bytes at all addresses. -/
structure Process extends State where
  bytes : CodeLib.Memory

/-- Before the first call. -/
def Process.new (bytes : CodeLib.Memory) : Process := { State.new with bytes }

/-- A call of a member function. -/
inductive Op where
  /-- One that does not access the memory of an object. -/
  | plain (e : Label)
  /-- `alloc(size, fill)`. -/
  | allocFill (id : Nat) (size : BitVec 64) (answer : Option Nat) (fill : BitVec 32)
  /-- `value = object[idx]`. -/
  | read (id : Nat) (idx : BitVec 64) (value : UInt8)
  /-- `object[idx] = value`. -/
  | write (id : Nat) (idx : BitVec 64) (value : UInt8)

/-- `alloc0(size)`. -/
def Op.alloc0 (id : Nat) (size : BitVec 64) (answer : Option Nat) : Op :=
  .allocFill id size answer 0

/-- `memset(ptr, value, len)`. -/
def memset (bytes : CodeLib.Memory) (ptr : Nat) (value : UInt8) (len : Nat) : CodeLib.Memory :=
  overlay bytes ptr (List.replicate len value)

/-- The bytes behind a call: the pages of a new mapping are zero. -/
def Process.pages (p : Process) (s : State) : Label → CodeLib.Memory
  | .constructSize _ _ _ | .alloc _ _ _ =>
    match s.regions with
    | r :: _ => memset p.bytes r.start 0 r.len
    | [] => p.bytes
  | .construct _ | .move _ _ | .free _ | .destroy _ => p.bytes

/-- A call that does not access the memory of an object. -/
def Process.plain (host : Host) (p : Process) (e : Label) : Option Process :=
  (PagedMemory.step host p.toState e).map fun s => ⟨s, p.pages s e⟩

/-- `object[idx]`: the address that it refers to, if there is a mapping. -/
def Process.access (p : Process) (id : Nat) (idx : BitVec 64) : Option Nat := do
  let o ← p.objects id
  let addr ← (o.at idx).toOption
  if ∃ r ∈ p.regions, r.start ≤ addr ∧ addr < r.stop then some addr else none

def Process.step (host : Host) (p : Process) : Op → Option Process
  | .plain e => p.plain host e
  | .allocFill id size answer fill => do
    let p ← p.plain host (.alloc id size answer)
    let o ← p.objects id
    some { p with bytes := memset p.bytes o.data ⟨fill.setWidth 8⟩ o.size.toNat }
  | .read id idx value => do
    let addr ← p.access id idx
    if p.bytes addr = value then some p else none
  | .write id idx value => do
    let addr ← p.access id idx
    some { p with bytes := Function.update p.bytes addr value }

/-- The call accesses an object with memory, or none. -/
def Process.held (p : Process) : Op → Bool
  | .read id _ _ | .write id _ _ => (p.objects id).all fun o => o.data ≠ 0
  | .plain _ | .allocFill _ _ _ _ => true

/-! ## Arrays -/

/-- The arrays of all objects.  An object without memory has the empty one. -/
abbrev Arrays := Nat → Option Bytes

namespace Arrays

/-- Before the first call. -/
def new : Arrays := fun _ => none

/-- An empty array gets elements. -/
def alloc (a : Arrays) (id : Nat) (size : BitVec 64) (value : UInt8) : Option Arrays :=
  if a id = some [] ∧ size ≠ 0 then
    some (Function.update a id (some (List.replicate size.toNat value)))
  else none

/-- What a call does to the arrays, whatever the operating system answers. -/
def step (a : Arrays) : Op → Option Arrays
  | .plain (.construct id) =>
    if a id = none then some (Function.update a id (some [])) else none
  | .plain (.constructSize id size _) =>
    if a id = none then alloc (Function.update a id (some [])) id size 0 else none
  | .plain (.move id other) =>
    if a id = none ∧ a other ≠ none then
      some (Function.update (Function.update a other (some [])) id (a other))
    else none
  | .plain (.alloc id size _) => a.alloc id size 0
  | .plain (.free id) => if a id = none then none else some (Function.update a id (some []))
  | .plain (.destroy id) => if a id = none then none else some (Function.update a id none)
  | .allocFill id size _ fill => a.alloc id size ⟨fill.setWidth 8⟩
  | .read id idx value => if (a id).any (·[idx.toNat]? = some value) then some a else none
  | .write id idx value =>
    (a id).bind fun array =>
      if idx.toNat < array.length then
        some (Function.update a id (some (array.set idx.toNat value)))
      else none

end Arrays

/-- The bytes of an object. -/
def Memory.array (bytes : CodeLib.Memory) (o : Memory) : Bytes :=
  if o.data = 0 then [] else window bytes o.data o.size.toNat

/-- The array that each object of a process is. -/
def Process.arrays (p : Process) : Arrays := fun id => (p.objects id).map (Memory.array p.bytes)

/-! ## The arrays of the objects -/

variable {host : Host} {p p' : Process} {s s' : State} {id : Nat} {o : Memory}

theorem array_of_null {bytes : CodeLib.Memory} (h : o.data = 0) : o.array bytes = [] := if_pos h

theorem array_of_data {bytes : CodeLib.Memory} (h : o.data ≠ 0) :
    o.array bytes = window bytes o.data o.size.toNat := if_neg h

theorem arrays_eq_none_iff : p.arrays id = none ↔ p.objects id = none := Option.map_eq_none_iff

theorem arrays_of_objects (ho : p.objects id = some o) : p.arrays id = some (o.array p.bytes) :=
  congrArg (Option.map (Memory.array p.bytes)) ho

/-- A change of one object changes its array, if the bytes of the others are as before. -/
theorem arrays_update {rest : Option Memory}
    (hobjects : p'.objects = Function.update p.objects id rest)
    (hbytes : ∀ id' o', id' ≠ id → p.objects id' = some o' →
      o'.array p'.bytes = o'.array p.bytes) :
    p'.arrays = Function.update p.arrays id (rest.map (Memory.array p'.bytes)) := by
  funext id'
  show (p'.objects id').map (Memory.array p'.bytes) = _
  rw [hobjects]
  by_cases hid : id' = id
  · rw [hid, Function.update_self, Function.update_self]
  · rw [Function.update_of_ne hid, Function.update_of_ne hid]
    show _ = (p.objects id').map (Memory.array p.bytes)
    cases ho' : p.objects id' with
    | none => rfl
    | some o' => exact congrArg some (hbytes id' o' hid ho')

theorem arrays_update_objects {rest : Option Memory}
    (hobjects : p'.objects = Function.update p.objects id rest) (hbytes : p'.bytes = p.bytes) :
    p'.arrays = Function.update p.arrays id (rest.map (Memory.array p.bytes)) := by
  rw [arrays_update hobjects fun _ _ _ _ => by rw [hbytes], hbytes]

/-- The bytes of two objects with memory are not at the same address. -/
theorem Valid.disjoint (h : Valid host s) {id' : Nat} {o' : Memory} (ho : s.objects id = some o)
    (ho' : s.objects id' = some o') (hdata : o.data ≠ 0) (hdata' : o'.data ≠ 0) (hid : id' ≠ id)
    {i j : Nat} (hi : i < o.size.toNat) (hj : j < o'.size.toNat) : o'.data + j ≠ o.data + i := by
  obtain ⟨-, hle, hregion⟩ := h.holds id o ho hdata
  obtain ⟨-, hle', hregion'⟩ := h.holds id' o' ho' hdata'
  have hstart := region_start host o
  have hstart' := region_start host o'
  obtain heq | hapart := h.apart _ hregion _ hregion'
  · have hsame : o'.data = o.data := by rw [← hstart, ← hstart', heq]
    exact absurd (h.unique id' id o' o ho' ho hsame hdata') hid
  · unfold Region.Apart Region.stop at hapart
    omega

/-- A new mapping is not where the bytes of the objects are. -/
theorem array_of_grants (h : Valid host s) {r : Region} (hgrants : Grants host s.regions r)
    (ho : s.objects id = some o) {bytes bytes' : CodeLib.Memory}
    (hbytes : ∀ x, x < r.start ∨ r.stop ≤ x → bytes' x = bytes x) :
    o.array bytes' = o.array bytes := by
  by_cases hdata : o.data = 0
  · rw [array_of_null hdata, array_of_null hdata]
  · rw [array_of_data hdata, array_of_data hdata]
    obtain ⟨-, hle, hregion⟩ := h.holds id o ho hdata
    have hstart := region_start host o
    have hapart := hgrants.apart _ hregion
    refine window_congr fun i hi => hbytes _ ?_
    unfold Region.Apart Region.stop at hapart
    unfold Region.stop
    omega

/-! ## One call -/

/-- An allocation, behind which the bytes of the object have one value. -/
theorem arrays_alloc (h : Valid host p.toState) {size : BitVec 64} {answer : Option Nat}
    (halloc : p.toState.alloc host id size answer o = some s') :
    o.data = 0 ∧ size ≠ 0 ∧ ∃ o' r, s'.objects = Function.update p.objects id (some o') ∧
      s'.regions = r :: p.regions ∧ o'.data = r.start ∧ o'.data ≠ 0 ∧ o'.size = size ∧
      r = o'.region host ∧ size.toNat ≤ r.len ∧
      ∀ (bytes : CodeLib.Memory) (value : UInt8),
        (∀ x, x < r.start ∨ r.stop ≤ x → bytes x = p.bytes x) →
        window bytes o'.data size.toNat = List.replicate size.toNat value →
        Process.arrays ⟨s', bytes⟩ =
          Function.update p.arrays id (some (List.replicate size.toNat value)) := by
  have hnull : o.data = 0 := by
    obtain ⟨o', ho, -⟩ := Option.bind_eq_some_iff.1 halloc
    unfold Except.toOption at ho
    split at ho
    next heq =>
      cases ho
      exact (alloc_eq_ok heq).1
    next => cases ho
  obtain ⟨addr, hsize, hgrants, rfl⟩ := State.alloc_eq_some halloc
  have hstart : (Memory.region host ⟨addr, size, host.roundUp size⟩).start = addr :=
    region_start host _
  have hle : size.toNat ≤ (Memory.region host ⟨addr, size, host.roundUp size⟩).len := by
    unfold Memory.region
    split
    next => exact le_roundUp_of_grants hgrants
    next => exact Nat.le_refl _
  have haddr : addr ≠ 0 := by
    rw [← hstart]
    exact hgrants.start
  refine ⟨hnull, hsize, ⟨addr, size, host.roundUp size⟩, _, rfl, rfl, hstart.symm, haddr, rfl,
    rfl, hle, fun bytes value hout hown => ?_⟩
  refine Eq.trans (arrays_update rfl fun id' o' _ ho' => array_of_grants h hgrants ho' hout) ?_
  rw [Option.map_some, array_of_data haddr, hown]

/-- An object that can be allocated is an empty array. -/
theorem arrays_of_null (ho : p.objects id = some o) (hdata : o.data = 0) :
    p.arrays id = some [] := by
  rw [arrays_of_objects ho, array_of_null hdata]

/-- An address that `operator[]` refers to. -/
theorem access_eq_some_iff (h : Valid host p.toState) (ho : p.objects id = some o)
    (hdata : o.data ≠ 0) {idx : BitVec 64} {addr : Nat} :
    p.access id idx = some addr ↔ idx.toNat < o.size.toNat ∧ addr = o.data + idx.toNat := by
  obtain ⟨-, hle, hregion⟩ := h.holds id o ho hdata
  have hstart := region_start host o
  unfold Process.access
  rw [ho]
  show (((o.at idx).toOption).bind fun addr => _) = some addr ↔ _
  by_cases hidx : idx ≥ o.size
  · have herror : o.at idx = .error (.error "memory access out of bounds") := if_pos hidx
    rw [herror]
    refine iff_of_false (fun h => by cases h) fun h => ?_
    exact absurd h.1 (Nat.not_lt.2 hidx)
  · have hlt : idx.toNat < o.size.toNat := Nat.lt_of_not_le hidx
    have hok : o.at idx = .ok (o.data + idx.toNat) := if_neg hidx
    rw [hok]
    show (if _ then some (o.data + idx.toNat) else none) = some addr ↔ _
    rw [if_pos ⟨_, hregion, by omega, by unfold Region.stop; omega⟩, Option.some_inj, eq_comm]
    exact (and_iff_right hlt).symm

/-- A write changes one element of one array. -/
theorem arrays_write (h : Valid host p.toState) (ho : p.objects id = some o) (hdata : o.data ≠ 0)
    {idx : Nat} (hidx : idx < o.size.toNat) (value : UInt8) :
    Process.arrays { p with bytes := Function.update p.bytes (o.data + idx) value } =
      Function.update p.arrays id (some ((o.array p.bytes).set idx value)) := by
  refine Eq.trans (arrays_update (Function.update_eq_self id p.objects).symm
    fun id' o' hid ho' => ?_) ?_
  · by_cases hdata' : o'.data = 0
    · rw [array_of_null hdata', array_of_null hdata']
    · rw [array_of_data hdata', array_of_data hdata']
      refine window_congr fun i hi => Function.update_of_ne ?_ _ _
      exact h.disjoint ho ho' hdata hdata' hid hidx hi
  · rw [ho, Option.map_some, array_of_data hdata, array_of_data hdata]
    have hlength : (window p.bytes o.data o.size.toNat).length = o.size.toNat :=
      length_window _ _ _
    have hset := overlay_set p.bytes (a := o.data) (by rw [hlength]; exact hidx) value
    rw [overlay_window] at hset
    have hback := window_overlay p.bytes o.data ((window p.bytes o.data o.size.toNat).set idx value)
    rw [hset, List.length_set, hlength] at hback
    rw [hback]

theorem memset_of_outside {bytes : CodeLib.Memory} {ptr len x : Nat} {value : UInt8}
    (h : x < ptr ∨ ptr + len ≤ x) : memset bytes ptr value len x = bytes x :=
  overlay_of_outside bytes (by rwa [List.length_replicate])

theorem window_memset (bytes : CodeLib.Memory) (ptr : Nat) (value : UInt8) (len : Nat) :
    window (memset bytes ptr value len) ptr len = List.replicate len value := by
  have hwindow := window_overlay bytes ptr (List.replicate len value)
  rwa [List.length_replicate] at hwindow

/-- The begin of what is filled. -/
theorem window_memset_of_le (bytes : CodeLib.Memory) (ptr : Nat) (value : UInt8) {n len : Nat}
    (h : n ≤ len) : window (memset bytes ptr value len) ptr n = List.replicate n value := by
  apply List.ext_getElem
  · rw [length_window, List.length_replicate]
  · intro i hi _
    rw [length_window] at hi
    have hlt : ptr + i - ptr < (List.replicate len value).length := by
      rw [List.length_replicate]
      omega
    simp only [window, List.getElem_map, List.getElem_range, List.getElem_replicate]
    rw [memset, overlay_of_inside _ (Nat.le_add_right _ _) hlt, List.getElem_replicate]

/-- `alloc(size)` for an object, which is an array of zeros from there on. -/
theorem arrays_plain_alloc (h : Valid host p.toState) {size : BitVec 64} {answer : Option Nat}
    {e : Label} (he : e = .constructSize id size answer ∨ e = .alloc id size answer)
    (halloc : p.toState.alloc host id size answer o = some s') :
    Process.arrays ⟨s', p.pages s' e⟩ =
      Function.update p.arrays id (some (List.replicate size.toNat 0)) := by
  obtain ⟨-, -, o', r, -, hregions, hstart, -, -, -, hle, harrays⟩ := arrays_alloc h halloc
  have hpages : p.pages s' e = memset p.bytes r.start 0 r.len := by
    obtain rfl | rfl := he
    · simp only [Process.pages, hregions]
    · simp only [Process.pages, hregions]
  rw [hpages]
  refine harrays _ 0 (fun x hx => memset_of_outside hx) ?_
  rw [hstart]
  exact window_memset_of_le p.bytes r.start 0 hle

theorem arrays_free (p : Process) (host : Host) (id : Nat) (rest : Option Memory) (o : Memory)
    (hrest : ∀ o', rest = some o' → o'.data = 0) :
    Process.arrays ⟨p.toState.free host id rest o, p.bytes⟩ =
      Function.update p.arrays id (rest.map fun _ => []) := by
  refine Eq.trans (arrays_update_objects rfl rfl) ?_
  cases rest with
  | none => rfl
  | some o' => rw [Option.map_some, Option.map_some, array_of_null (hrest o' rfl)]

theorem arrays_move (p : Process) (id other : Nat) (o : Memory) (ho : p.objects other = some o) :
    Process.arrays ⟨p.toState.move id other o, p.bytes⟩ =
      Function.update (Function.update p.arrays other (some [])) id (p.arrays other) := by
  let q : Process := ⟨⟨Function.update p.objects other (some o.move.2), p.regions⟩, p.bytes⟩
  have hleft : q.arrays = Function.update p.arrays other (some []) := by
    refine Eq.trans (arrays_update_objects rfl rfl) ?_
    rw [Option.map_some, array_of_null rfl]
  have hmoved : Process.arrays ⟨p.toState.move id other o, p.bytes⟩ =
      Function.update q.arrays id (some (o.array p.bytes)) :=
    Eq.trans (arrays_update_objects (p := q) rfl rfl) rfl
  rw [hmoved, hleft, arrays_of_objects ho]

/-- A call that does not access the memory of an object does to the arrays what it is for. -/
theorem arrays_plain (h : Valid host p.toState) {e : Label} (hstep : p.plain host e = some p') :
    p.arrays.step (.plain e) = some p'.arrays := by
  obtain ⟨s', hs', rfl⟩ := Option.map_eq_some_iff.1 hstep
  cases e with
  | construct id =>
    cases ho : p.objects id with
    | some o =>
      simp only [PagedMemory.step, ho] at hs'
      cases hs'
    | none =>
      simp only [PagedMemory.step, ho] at hs'
      cases hs'
      rw [Arrays.step, if_pos (arrays_eq_none_iff.2 ho)]
      refine congrArg some (Eq.symm (Eq.trans (arrays_update_objects rfl rfl) ?_))
      rw [Option.map_some, array_of_null rfl]
  | constructSize id size answer =>
    cases ho : p.objects id with
    | some o =>
      simp only [PagedMemory.step, ho] at hs'
      cases hs'
    | none =>
      simp only [PagedMemory.step, ho] at hs'
      have hsize := (arrays_alloc h hs').2.1
      rw [Arrays.step, if_pos (arrays_eq_none_iff.2 ho), Arrays.alloc,
        if_pos ⟨Function.update_self _ _ _, hsize⟩, Function.update_idem,
        arrays_plain_alloc h (.inl rfl) hs']
  | move id other =>
    cases hid : p.objects id with
    | some o =>
      simp only [PagedMemory.step, hid] at hs'
      cases hs'
    | none =>
      cases ho : p.objects other with
      | none =>
        simp only [PagedMemory.step, hid, ho] at hs'
        cases hs'
      | some o =>
        simp only [PagedMemory.step, hid, ho] at hs'
        cases hs'
        have hsome : p.arrays other ≠ none := fun hnone => by
          rw [arrays_eq_none_iff, ho] at hnone
          cases hnone
        rw [Arrays.step, if_pos ⟨arrays_eq_none_iff.2 hid, hsome⟩]
        exact congrArg some (arrays_move p id other o ho).symm
  | alloc id size answer =>
    obtain ⟨o, ho, halloc⟩ := Option.bind_eq_some_iff.1 hs'
    obtain ⟨hdata, hsize, -⟩ := arrays_alloc h halloc
    rw [Arrays.step, Arrays.alloc, if_pos ⟨arrays_of_null ho hdata, hsize⟩,
      arrays_plain_alloc h (.inr rfl) halloc]
  | free id =>
    obtain ⟨o, ho, rfl⟩ := Option.map_eq_some_iff.1 hs'
    have hsome : ¬ p.arrays id = none := fun hnone => by
      rw [arrays_eq_none_iff, ho] at hnone
      cases hnone
    rw [Arrays.step, if_neg hsome]
    refine congrArg some (Eq.symm (arrays_free p host id (some o.free) o fun o' ho' => ?_))
    cases ho'
    exact (Memory.free_empty (h.total id o ho)).1
  | destroy id =>
    obtain ⟨o, ho, rfl⟩ := Option.map_eq_some_iff.1 hs'
    have hsome : ¬ p.arrays id = none := fun hnone => by
      rw [arrays_eq_none_iff, ho] at hnone
      cases hnone
    rw [Arrays.step, if_neg hsome]
    refine congrArg some (Eq.symm (arrays_free p host id none o fun o' ho' => ?_))
    cases ho'

/-- `alloc(size, fill)`. -/
theorem arrays_allocFill (h : Valid host p.toState) {size : BitVec 64} {answer : Option Nat}
    {fill : BitVec 32} (hstep : p.step host (.allocFill id size answer fill) = some p') :
    Valid host p'.toState ∧ p.arrays.step (.allocFill id size answer fill) = some p'.arrays := by
  obtain ⟨q, hplain, hrest⟩ := Option.bind_eq_some_iff.1 hstep
  obtain ⟨o, ho, hfill⟩ := Option.bind_eq_some_iff.1 hrest
  cases hfill
  obtain ⟨s', hs', rfl⟩ := Option.map_eq_some_iff.1 hplain
  refine ⟨h.step hs', ?_⟩
  obtain ⟨o₀, ho₀, halloc⟩ := Option.bind_eq_some_iff.1 hs'
  obtain ⟨hdata, hsize, o', r, hobjects, hregions, hstart, -, hsame, -, hle, harrays⟩ :=
    arrays_alloc h halloc
  have heq : o = o' := by
    rw [hobjects, Function.update_self] at ho
    exact (Option.some.inj ho).symm
  subst heq
  have hpages : p.pages s' (.alloc id size answer) = memset p.bytes r.start 0 r.len := by
    simp only [Process.pages, hregions]
  rw [Arrays.step, Arrays.alloc, if_pos ⟨arrays_of_null ho₀ hdata, hsize⟩]
  refine congrArg some (Eq.symm (harrays _ _ (fun x hx => ?_) ?_))
  · show memset (p.pages s' (.alloc id size answer)) o.data _ o.size.toNat x = p.bytes x
    unfold Region.stop at hx
    rw [hpages, memset_of_outside (by rw [hsame, hstart]; omega), memset_of_outside hx]
  · rw [hsame]
    exact window_memset _ o.data _ size.toNat

/-- A call does to the objects what it does to the arrays. -/
theorem arrays_step (h : Valid host p.toState) {op : Op} (hheld : p.held op = true)
    (hstep : p.step host op = some p') :
    Valid host p'.toState ∧ p.arrays.step op = some p'.arrays := by
  cases op with
  | plain e =>
    have harrays := arrays_plain h hstep
    obtain ⟨s', hs', rfl⟩ := Option.map_eq_some_iff.1 hstep
    exact ⟨h.step hs', harrays⟩
  | allocFill id size answer fill => exact arrays_allocFill h hstep
  | read id idx value =>
    obtain ⟨addr, haccess, hread⟩ := Option.bind_eq_some_iff.1 hstep
    obtain ⟨hvalue, heq⟩ := Option.ite_none_right_eq_some.1 hread
    cases heq
    obtain ⟨o, ho, -⟩ := Option.bind_eq_some_iff.1 haccess
    have hdata : o.data ≠ 0 := by simpa [Process.held, ho] using hheld
    obtain ⟨hidx, rfl⟩ := (access_eq_some_iff h ho hdata).1 haccess
    refine ⟨h, ?_⟩
    rw [Arrays.step, arrays_of_objects ho, array_of_data hdata]
    refine if_pos ?_
    rw [Option.any_some, decide_eq_true_iff, window, List.getElem?_map, List.getElem?_range hidx,
      Option.map_some, hvalue]
  | write id idx value =>
    obtain ⟨addr, haccess, hwrite⟩ := Option.bind_eq_some_iff.1 hstep
    cases hwrite
    obtain ⟨o, ho, -⟩ := Option.bind_eq_some_iff.1 haccess
    have hdata : o.data ≠ 0 := by simpa [Process.held, ho] using hheld
    obtain ⟨hidx, rfl⟩ := (access_eq_some_iff h ho hdata).1 haccess
    refine ⟨h, ?_⟩
    rw [Arrays.step, arrays_of_objects ho, Option.bind_some, arrays_write h ho hdata hidx,
      if_pos (by rwa [array_of_data hdata, length_window])]

/-- A call of `operator[]` aborts exactly if the array has no such element. -/
theorem access_isSome (h : Valid host p.toState) (id : Nat) (idx : BitVec 64) (value : UInt8)
    (hheld : p.held (.write id idx value) = true) :
    (p.step host (.write id idx value)).isSome = (p.arrays.step (.write id idx value)).isSome := by
  cases hstep : p.step host (.write id idx value) with
  | some p' => rw [(arrays_step h hheld hstep).2, Option.isSome_some, Option.isSome_some]
  | none =>
    cases hspec : p.arrays.step (.write id idx value) with
    | none => rfl
    | some a =>
      obtain ⟨array, harray, hset⟩ := Option.bind_eq_some_iff.1 hspec
      obtain ⟨o, ho, rfl⟩ := Option.map_eq_some_iff.1 harray
      have hdata : o.data ≠ 0 := by simpa [Process.held, ho] using hheld
      have hidx := (Option.ite_none_right_eq_some.1 hset).1
      rw [array_of_data hdata, length_window] at hidx
      have haccess := (access_eq_some_iff h ho hdata).2 ⟨hidx, rfl⟩
      have hsome : p.step host (.write id idx value) = some _ :=
        Option.bind_eq_some_iff.2 ⟨_, haccess, rfl⟩
      rw [hsome] at hstep
      cases hstep

/-! ## Mappings -/

/-- Each mapping is that of an object. -/
def Kept (host : Host) (s : State) : Prop :=
  ∀ r ∈ s.regions, ∃ id o, s.objects id = some o ∧ o.data ≠ 0 ∧ r = o.region host

theorem region_not_mem_unmap (h : Holds host s o) : o.region host ∉ o.unmap host s.regions := by
  intro hmem
  have hpos := h.size_pos
  have hle := h.size_le
  unfold Memory.unmap at hmem
  unfold Memory.region at hmem hle
  split at hmem
  next hplatform =>
    rw [hplatform] at hle
    have hapart := of_decide_eq_true (List.mem_filter.1 hmem).2
    unfold Region.Apart Region.stop at hapart
    dsimp only at hapart hle
    omega
  next =>
    have hne := of_decide_eq_true (List.mem_filter.1 hmem).2
    exact hne rfl

theorem Kept.free (h : Kept host s) (hvalid : Valid host s) (ho : s.objects id = some o)
    (rest : Option Memory) : Kept host (s.free host id rest o) := by
  intro r hr
  have hold : r ∈ s.regions := by
    unfold State.free at hr
    split at hr
    next => exact unmap_subset host o s.regions hr
    next => exact hr
  obtain ⟨id', o', ho', hdata', rfl⟩ := h r hold
  have hid : id' ≠ id := by
    rintro rfl
    have heq : o = o' := Option.some.inj (ho.symm.trans ho')
    subst heq
    unfold State.free at hr
    rw [if_pos hdata'] at hr
    exact region_not_mem_unmap (hvalid.holds _ o ho hdata') hr
  exact ⟨id', o', (Function.update_of_ne hid _ _).trans ho', hdata', rfl⟩

theorem Kept.alloc (h : Kept host p.toState) (hvalid : Valid host p.toState)
    (hid : ∀ o', p.objects id = some o' → o'.data = 0) {size : BitVec 64} {answer : Option Nat}
    (halloc : p.toState.alloc host id size answer o = some s') : Kept host s' := by
  obtain ⟨-, -, o', r, hobjects, hregions, -, hdata, -, hr, -⟩ := arrays_alloc hvalid halloc
  intro r' hr'
  rw [hregions, List.mem_cons] at hr'
  rw [hobjects]
  obtain rfl | hold := hr'
  · exact ⟨id, o', Function.update_self _ _ _, hdata, hr⟩
  · obtain ⟨id₁, o₁, ho₁, hdata₁, rfl⟩ := h r' hold
    have hne : id₁ ≠ id := by
      rintro rfl
      exact hdata₁ (hid o₁ ho₁)
    exact ⟨id₁, o₁, (Function.update_of_ne hne _ _).trans ho₁, hdata₁, rfl⟩

theorem Kept.move (h : Kept host s) {other : Nat} (hid : s.objects id = none)
    (ho : s.objects other = some o) : Kept host (s.move id other o) := by
  intro r hr
  obtain ⟨id₁, o₁, ho₁, hdata₁, rfl⟩ := h r hr
  have hne : id₁ ≠ id := by
    rintro rfl
    rw [hid] at ho₁
    cases ho₁
  by_cases hother : id₁ = other
  · have heq : o = o₁ := Option.some.inj (ho.symm.trans (hother ▸ ho₁))
    subst heq
    exact ⟨id, o.move.1, Function.update_self _ _ _, hdata₁, rfl⟩
  · refine ⟨id₁, o₁, ?_, hdata₁, rfl⟩
    exact (Function.update_of_ne hne _ _).trans ((Function.update_of_ne hother _ _).trans ho₁)

theorem Kept.plain (h : Kept host p.toState) (hvalid : Valid host p.toState) {e : Label}
    (hstep : PagedMemory.step host p.toState e = some s') : Kept host s' := by
  have hnone : ∀ {id}, p.objects id = none → ∀ o', p.objects id = some o' → o'.data = 0 := by
    intro id hnone o' ho'
    rw [hnone] at ho'
    cases ho'
  cases e with
  | construct id =>
    cases ho : p.objects id with
    | some o =>
      simp only [PagedMemory.step, ho] at hstep
      cases hstep
    | none =>
      simp only [PagedMemory.step, ho] at hstep
      cases hstep
      intro r hr
      obtain ⟨id₁, o₁, ho₁, hdata₁, hr₁⟩ := h r hr
      have hne : id₁ ≠ id := by
        rintro rfl
        exact hdata₁ (hnone ho o₁ ho₁)
      exact ⟨id₁, o₁, (Function.update_of_ne hne _ _).trans ho₁, hdata₁, hr₁⟩
  | constructSize id size answer =>
    cases ho : p.objects id with
    | some o =>
      simp only [PagedMemory.step, ho] at hstep
      cases hstep
    | none =>
      simp only [PagedMemory.step, ho] at hstep
      exact h.alloc hvalid (hnone ho) hstep
  | move id other =>
    cases hid : p.objects id with
    | some o =>
      simp only [PagedMemory.step, hid] at hstep
      cases hstep
    | none =>
      cases ho : p.objects other with
      | none =>
        simp only [PagedMemory.step, hid, ho] at hstep
        cases hstep
      | some o =>
        simp only [PagedMemory.step, hid, ho] at hstep
        cases hstep
        exact h.move hid ho
  | alloc id size answer =>
    obtain ⟨o, ho, halloc⟩ := Option.bind_eq_some_iff.1 hstep
    have hdata := (arrays_alloc hvalid halloc).1
    refine h.alloc hvalid (fun o' ho' => ?_) halloc
    rw [ho] at ho'
    cases ho'
    exact hdata
  | free id =>
    obtain ⟨o, ho, rfl⟩ := Option.map_eq_some_iff.1 hstep
    exact h.free hvalid ho _
  | destroy id =>
    obtain ⟨o, ho, rfl⟩ := Option.map_eq_some_iff.1 hstep
    exact h.free hvalid ho _

theorem Kept.step (h : Kept host p.toState) (hvalid : Valid host p.toState) {op : Op}
    (hstep : p.step host op = some p') : Kept host p'.toState := by
  cases op with
  | plain e =>
    obtain ⟨s', hs', rfl⟩ := Option.map_eq_some_iff.1 hstep
    exact h.plain hvalid hs'
  | allocFill id size answer fill =>
    obtain ⟨q, hplain, hrest⟩ := Option.bind_eq_some_iff.1 hstep
    obtain ⟨o, ho, hfill⟩ := Option.bind_eq_some_iff.1 hrest
    cases hfill
    obtain ⟨s', hs', rfl⟩ := Option.map_eq_some_iff.1 hplain
    exact h.plain hvalid hs'
  | read id idx value =>
    obtain ⟨addr, -, hread⟩ := Option.bind_eq_some_iff.1 hstep
    cases (Option.ite_none_right_eq_some.1 hread).2
    exact h
  | write id idx value =>
    obtain ⟨addr, -, hwrite⟩ := Option.bind_eq_some_iff.1 hstep
    cases hwrite
    exact h

/-! ## Runs -/

/-- What a program does with the objects, as long as it accesses only objects with memory. -/
def Process.heldStep (host : Host) (p : Process) (op : Op) : Option Process :=
  if p.held op then p.step host op else none

/-- In every run of constructions, allocations, moves, accesses, `free` and destructions, each
object is an array of its own, whatever addresses the operating system gives: the calls read from
memory what they read from the arrays, and `operator[]` aborts exactly if there is no such element.
Each mapping is that of an object, so that none is left when all objects have ended. -/
theorem memories_are_arrays (host : Host) (bytes : CodeLib.Memory) (ops : List Op) (p : Process)
    (hrun : System.run (Process.heldStep host) (.new bytes) ops = some p) :
    System.run Arrays.step Arrays.new ops = some p.arrays ∧
    (∀ id idx value, p.held (.write id idx value) = true →
      (p.step host (.write id idx value)).isSome =
        (p.arrays.step (.write id idx value)).isSome) ∧
    ∀ r ∈ p.regions, ∃ id o, p.objects id = some o ∧ o.data ≠ 0 ∧ r = o.region host := by
  have hall : ∀ (ops : List Op) (q : Process), Valid host q.toState → Kept host q.toState →
      System.run (Process.heldStep host) q ops = some p →
      System.run Arrays.step q.arrays ops = some p.arrays ∧ Valid host p.toState ∧
        Kept host p.toState := by
    intro ops
    induction ops with
    | nil =>
      intro q hvalid hkept hrun
      cases hrun
      exact ⟨rfl, hvalid, hkept⟩
    | cons op ops ih =>
      intro q hvalid hkept hrun
      obtain ⟨q', hstep, hrest⟩ := Option.bind_eq_some_iff.1 hrun
      obtain ⟨hheld, hstep⟩ := Option.ite_none_right_eq_some.1 hstep
      obtain ⟨hvalid', harrays⟩ := arrays_step hvalid hheld hstep
      rw [System.run, harrays]
      exact ih q' hvalid' (hkept.step hvalid hstep) hrest
  have hvalid : Valid host (Process.new bytes).toState := valid_of_reachable (.init rfl)
  have hkept : Kept host (Process.new bytes).toState := fun r hr => absurd hr List.not_mem_nil
  obtain ⟨harrays, hvalid', hkept'⟩ := hall ops _ hvalid hkept hrun
  exact ⟨harrays, access_isSome hvalid', hkept'⟩

/-- Pages of four bytes. -/
def smallPages : Host := ⟨.posix, 2, by decide⟩

/-- Two objects, one of which is moved. -/
def twoObjects : List Op :=
  [.plain (.constructSize 0 3 (some 8)), .plain (.construct 1), .allocFill 1 2 (some 12) 7,
    .write 0 1 9, .plain (.move 2 0), .read 2 1 9, .read 1 1 7]

/-- The object behind the move has the bytes, and the other one is as it was. -/
theorem memories_are_arrays_twoObjects :
    ∃ p, System.run (Process.heldStep smallPages) (.new fun _ => 5) twoObjects = some p ∧
      p.arrays 2 = some [0, 9, 0] ∧ p.arrays 1 = some [7, 7] := by
  have hsome : (System.run (Process.heldStep smallPages) (.new fun _ => 5) twoObjects).isSome := by
    decide +kernel
  obtain ⟨p, hrun⟩ := Option.isSome_iff_exists.1 hsome
  have harrays := (memories_are_arrays smallPages _ twoObjects p hrun).1
  have hvalue : (System.run Arrays.step Arrays.new twoObjects).map (fun a => (a 2, a 1)) =
      some (some [0, 9, 0], some [7, 7]) := by decide +kernel
  rw [harrays] at hvalue
  have hpair := Option.some.inj hvalue
  exact ⟨p, hrun, congrArg Prod.fst hpair, congrArg Prod.snd hpair⟩

end Mwr.PagedMemory
