import Mwr.CodeLib.Transition
import Mwr.Interval.Entries

/-!
# Programs that use interval trees

A program has any number of tree objects, whose nodes share one heap, and it
constructs, moves and destroys the objects and inserts and removes entries in
any order.  `exec` is one such operation, `Enabled` is what its caller has to
see to, and `system` is the transition system of the two.

* `World.Holds` is the invariant: every object holds a tree that satisfies
  `Wf`, and no node belongs to two of them.
* `World.meaning` maps the objects to lists of entries, and `Act.apply` is what
  an operation does to these lists.
* `World.Holds.exec` is the step lemma: an enabled operation succeeds, keeps the
  invariant, and does to the lists what `Act.apply` says.
* `enabled_iff_admits` says which operations are enabled in terms of the lists, so
  that a program can be followed on the lists alone (`exec_run`).
-/

namespace Mwr.Interval

open BinaryTree
open Mwr.CodeLib
open Mwr.CodeLib.AvlTree (inorder)
open Mwr.CodeLib.LinkedTree
open Mwr.CodeLib.Exec
open Mwr.CodeLib.Transition

variable {T : Type}

/-! ## Operations -/

/-- The tree objects of a program, each with its fields `m_root` and `m_size`,
and the heap. -/
structure World (T : Type) where
  objects : Nat → Option (Option Addr × Nat)
  cells : Addr → Option (IvtNode T)

/-- No objects and no nodes. -/
def World.empty : World T := ⟨fun _ => none, fun _ => none⟩

/-- The state that a method of the object `i` runs on. -/
def World.tree (w : World T) (i : Nat) : Option (Store T) :=
  (w.objects i).map fun o => ⟨o.1, o.2, w.cells⟩

/-- Set the fields of the object `i`. -/
def World.setObject (w : World T) (i : Nat) (o : Option (Option Addr × Nat)) : World T :=
  { w with objects := Function.update w.objects i o }

/-- Call a method of the object `i`. -/
def World.call {α : Type} (w : World T) (i : Nat) (m : Op T α) : Except Fault (α × World T) :=
  match w.tree i with
  | none => .error .segfault
  | some s => do
    let (r, s) ← m.run s
    return (r, { objects := Function.update w.objects i (some (s.root, s.size)),
                 cells := s.cells })

/-- What a program does with tree objects. -/
inductive Act (T : Type) where
  /-- `interval_tree<T> i;` -/
  | construct (i : Nat)
  /-- `i.insert(start, stop, data)`, where the new node gets the address `a` -/
  | insert (i : Nat) (a : Addr) (start stop : UInt64) (data : T)
  /-- `i.remove(it)` -/
  | remove (i : Nat) (it : Option Addr)
  /-- `i.clear()` -/
  | clear (i : Nat)
  /-- `interval_tree<T> i(std::move(j));` -/
  | moveConstruct (i j : Nat)
  /-- `i = std::move(j);` -/
  | moveAssign (i j : Nat)
  /-- the end of the lifetime of `i` -/
  | destroy (i : Nat)

/-- One operation of the program. -/
def exec (w : World T) : Act T → Except Fault (World T)
  | .construct i => .ok (w.setObject i (some (none, 0)))
  | .insert i a start stop data => do
    let (_, w) ← w.call i (insert a start stop data)
    return w
  | .remove i it => do
    let (_, w) ← w.call i (remove it)
    return w
  | .clear i => do
    let (_, w) ← w.call i clear
    return w
  | .moveConstruct i j =>
    .ok ((w.setObject i (w.objects j)).setObject j (some (none, 0)))
  | .moveAssign i j =>
    if i = j then .ok w
    else do
      let (_, w) ← w.call i clear
      return (w.setObject i (w.objects j)).setObject j (some (none, 0))
  | .destroy i => do
    let (_, w) ← w.call i clear
    return w.setObject i none

/-- What the caller of an operation has to see to: objects are used only while
they live, an iterator that is removed is null or points to an entry of the
tree, an interval does not end before it starts, and `new` gives a node that is
not in use. -/
def Enabled (w : World T) : Act T → Prop
  | .construct i => w.objects i = none
  | .insert i a start stop _ => w.objects i ≠ none ∧ w.cells a = none ∧ start ≤ stop
  | .remove i it => ∃ s, w.tree i = some s ∧ ∀ a, it = some a → a ∈ s.nodes
  | .clear i => w.objects i ≠ none
  | .moveConstruct i j => w.objects i = none ∧ w.objects j ≠ none
  | .moveAssign i j => w.objects i ≠ none ∧ w.objects j ≠ none
  | .destroy i => w.objects i ≠ none

/-- All runs of all programs, from no objects. -/
def system (T : Type) : System (World T) (Act T) where
  init := fun w => w = World.empty
  step := fun w act w' => Enabled w act ∧ exec w act = .ok w'

/-! ## The lists of entries -/

/-- The entries of every live object. -/
abbrev Meaning (T : Type) := Nat → Option (List (Entry T))

def World.meaning (w : World T) : Meaning T := fun i => (w.tree i).map Store.entries

/-- What an operation does to the lists of entries. -/
def Act.apply (g : Meaning T) : Act T → Meaning T
  | .construct i => Function.update g i (some [])
  | .insert i a start stop data =>
    Function.update g i ((g i).map (insertEntry ⟨a, start, stop, data⟩))
  | .remove _ none => g
  | .remove i (some a) => Function.update g i ((g i).map (removeEntry a))
  | .clear i => Function.update g i (some [])
  | .moveConstruct i j => Function.update (Function.update g i (g j)) j (some [])
  | .moveAssign i j =>
    if i = j then g else Function.update (Function.update g i (g j)) j (some [])
  | .destroy i => Function.update g i none

/-! ## The invariant -/

/-- Every live object holds its tree, no node belongs to two trees, and no node
of the heap belongs to none. -/
structure World.Holds (w : World T) (shape : Nat → BinaryTree Addr) : Prop where
  wf : ∀ i s, w.tree i = some s → Wf s (shape i)
  dead : ∀ i, w.objects i = none → shape i = .nil
  disjoint : ∀ i j, i ≠ j → ∀ a ∈ inorder (shape i), a ∉ inorder (shape j)
  owned : ∀ a n, w.cells a = some n → ∃ i, a ∈ inorder (shape i)

theorem World.exists_tree {w : World T} {i : Nat} (h : w.objects i ≠ none) :
    ∃ s, w.tree i = some s := by
  cases ho : w.objects i with
  | none => exact absurd ho h
  | some o => exact ⟨⟨o.1, o.2, w.cells⟩, by simp [World.tree, ho]⟩

theorem World.cells_of_tree {w : World T} {i : Nat} {s : Store T} (h : w.tree i = some s) :
    s.cells = w.cells := by
  rw [World.tree, Option.map_eq_some_iff] at h
  obtain ⟨o, _, rfl⟩ := h
  rfl

/-- An object without a root holds the empty tree. -/
theorem wf_nil {s : Store T} (hroot : s.root = none) (hsize : s.size = 0) : Wf s .nil :=
  ⟨hroot, List.nodup_nil, trivial, trivial, List.Pairwise.nil, by simp, hsize⟩

theorem World.holds_empty : (World.empty : World T).Holds fun _ => .nil where
  wf := by
    intro i s hs
    cases hs
  dead := fun _ _ => rfl
  disjoint := by simp
  owned := by
    intro a n hn
    cases hn

section Holds

variable {w : World T} {shape : Nat → BinaryTree Addr} {i : Nat} {s : Store T}

/-- The nodes of the trees exist. -/
theorem World.Holds.exists_cells (h : w.Holds shape) {a : Addr} (ha : a ∈ inorder (shape i)) :
    ∃ n, w.cells a = some n := by
  by_cases ho : w.objects i = none
  · rw [h.dead i ho] at ha
    simp at ha
  · obtain ⟨s, hs⟩ := World.exists_tree ho
    rw [← World.cells_of_tree hs]
    exact exists_cells_of_mem (h.wf i s hs).rep ha

/-- A method that uses the nodes of one object and fresh ones does not touch the
other objects. -/
theorem World.Holds.other (h : w.Holds shape) (hs : w.tree i = some s) {s' : Store T}
    {t' : BinaryTree Addr}
    (hkeep : ∀ b, b ∉ inorder (shape i) → b ∉ inorder t' → s'.cells b = s.cells b)
    (hnew : ∀ b ∈ inorder t', b ∈ inorder (shape i) ∨ s.cells b = none) {j : Nat} (hj : j ≠ i)
    {a : Addr} (ha : a ∈ inorder (shape j)) : a ∉ inorder t' ∧ s'.cells a = w.cells a := by
  have hai : a ∉ inorder (shape i) := h.disjoint j i hj a ha
  have hat : a ∉ inorder t' := by
    intro hat
    obtain ⟨n, hn⟩ := h.exists_cells ha
    rcases hnew a hat with hmem | hnone
    · exact hai hmem
    · rw [World.cells_of_tree hs, hn] at hnone
      cases hnone
  exact ⟨hat, by rw [hkeep a hai hat, World.cells_of_tree hs]⟩

/-- The state after a method of the object `i`. -/
def World.after (w : World T) (i : Nat) (s : Store T) : World T :=
  ⟨Function.update w.objects i (some (s.root, s.size)), s.cells⟩

theorem World.call_run {α : Type} (hs : w.tree i = some s) {m : Op T α} {r : α} {s' : Store T}
    (hrun : m.run s = .ok (r, s')) : w.call i m = .ok (r, w.after i s') := by
  rw [World.call, hs]
  simp only [hrun]
  rfl

theorem World.tree_after_self (w : World T) (i : Nat) (s : Store T) :
    (w.after i s).tree i = some s := by
  simp [World.tree, World.after]

theorem World.tree_after_of_ne (w : World T) {i j : Nat} (hj : j ≠ i) (s : Store T) :
    (w.after i s).tree j = (w.objects j).map fun o => ⟨o.1, o.2, s.cells⟩ := by
  simp [World.tree, World.after, hj]

/-- A method that turns the tree of one object into a tree of its nodes and of
fresh ones, and touches no other node, keeps the invariant. -/
theorem World.Holds.after (h : w.Holds shape) (hs : w.tree i = some s) {s' : Store T}
    {t' : BinaryTree Addr} (hwf : Wf s' t')
    (hkeep : ∀ b, b ∉ inorder (shape i) → b ∉ inorder t' → s'.cells b = s.cells b)
    (hnew : ∀ b ∈ inorder t', b ∈ inorder (shape i) ∨ s.cells b = none)
    (hfree : ∀ b ∈ inorder (shape i), b ∉ inorder t' → s'.cells b = none) :
    (w.after i s').Holds (Function.update shape i t') := by
  have hcells := World.cells_of_tree hs
  refine ⟨?_, ?_, ?_, ?_⟩
  · intro j sj hj
    by_cases hji : j = i
    · subst hji
      rw [World.tree_after_self, Option.some.injEq] at hj
      rw [Function.update_self, ← hj]
      exact hwf
    · rw [World.tree_after_of_ne w hji, Option.map_eq_some_iff] at hj
      obtain ⟨o, ho, rfl⟩ := hj
      rw [Function.update_of_ne hji]
      have hwfj := h.wf j ⟨o.1, o.2, w.cells⟩ (by simp [World.tree, ho])
      exact hwfj.congr_cells rfl rfl fun a ha => (h.other hs hkeep hnew hji ha).2
  · intro j hj
    by_cases hji : j = i
    · subst hji
      simp [World.after] at hj
    · rw [Function.update_of_ne hji]
      exact h.dead j (by simpa [World.after, hji] using hj)
  · intro j k hjk a ha hak
    by_cases hji : j = i
    · subst hji
      rw [Function.update_self] at ha
      rw [Function.update_of_ne (Ne.symm hjk)] at hak
      exact (h.other hs hkeep hnew (Ne.symm hjk) hak).1 ha
    · rw [Function.update_of_ne hji] at ha
      by_cases hki : k = i
      · subst hki
        rw [Function.update_self] at hak
        exact (h.other hs hkeep hnew hjk ha).1 hak
      · rw [Function.update_of_ne hki] at hak
        exact h.disjoint j k hjk a ha hak
  · intro a n hn
    have hn' : s'.cells a = some n := hn
    by_cases hat : a ∈ inorder t'
    · exact ⟨i, by rw [Function.update_self]; exact hat⟩
    · by_cases hai : a ∈ inorder (shape i)
      · rw [hfree a hai hat] at hn'
        cases hn'
      · rw [hkeep a hai hat, hcells] at hn'
        obtain ⟨j, hj⟩ := h.owned a n hn'
        have hji : j ≠ i := fun hji => hai (hji ▸ hj)
        exact ⟨j, by rw [Function.update_of_ne hji]; exact hj⟩

/-- Such a method changes the entries of its own object only. -/
theorem World.Holds.meaning_after (h : w.Holds shape) (hs : w.tree i = some s) {s' : Store T}
    {t' : BinaryTree Addr}
    (hkeep : ∀ b, b ∉ inorder (shape i) → b ∉ inorder t' → s'.cells b = s.cells b)
    (hnew : ∀ b ∈ inorder t', b ∈ inorder (shape i) ∨ s.cells b = none) :
    (w.after i s').meaning = Function.update w.meaning i (some s'.entries) := by
  funext j
  by_cases hji : j = i
  · subst hji
    rw [World.meaning, World.tree_after_self, Function.update_self, Option.map_some]
  · rw [Function.update_of_ne hji, World.meaning, World.meaning,
      World.tree_after_of_ne w hji, World.tree]
    cases ho : w.objects j with
    | none => rfl
    | some o =>
      have hwfj := h.wf j ⟨o.1, o.2, w.cells⟩ (by simp [World.tree, ho])
      exact congrArg some (hwfj.entries_congr rfl rfl fun a ha =>
        (h.other hs hkeep hnew hji ha).2)

/-- The object `i`, which holds no nodes, takes over the tree of `j`. -/
theorem World.Holds.move {j : Nat} (h : w.Holds shape) (hij : i ≠ j) (hi : shape i = .nil)
    (hj : w.objects j ≠ none) :
    World.Holds ((w.setObject i (w.objects j)).setObject j (some (none, 0)))
      (Function.update (Function.update shape i (shape j)) j .nil) := by
  have hshape : ∀ k, k ≠ i → k ≠ j →
      Function.update (Function.update shape i (shape j)) j .nil k = shape k := by
    intro k hki hkj
    rw [Function.update_of_ne hkj, Function.update_of_ne hki]
  have hshapei : Function.update (Function.update shape i (shape j)) j .nil i = shape j := by
    rw [Function.update_of_ne hij, Function.update_self]
  refine ⟨?_, ?_, ?_, ?_⟩
  · intro k sk hk
    by_cases hkj : k = j
    · subst hkj
      simp only [World.tree, World.setObject, Function.update_self, Option.map_some,
        Option.some.injEq] at hk
      rw [Function.update_self, ← hk]
      exact wf_nil rfl rfl
    · by_cases hki : k = i
      · subst hki
        rw [hshapei]
        refine h.wf j sk ?_
        simpa [World.tree, World.setObject, hkj] using hk
      · rw [hshape k hki hkj]
        refine h.wf k sk ?_
        simpa [World.tree, World.setObject, hkj, hki] using hk
  · intro k hk
    by_cases hkj : k = j
    · rw [hkj, Function.update_self]
    · by_cases hki : k = i
      · subst hki
        exact absurd (by simpa [World.setObject, hkj] using hk) hj
      · rw [hshape k hki hkj]
        exact h.dead k (by simpa [World.setObject, hkj, hki] using hk)
  · -- the labels of `i` are now those of `j`, which no other object had
    intro k l hkl b hbk hbl
    by_cases hkj : k = j
    · rw [hkj, Function.update_self] at hbk
      simp at hbk
    · by_cases hlj : l = j
      · rw [hlj, Function.update_self] at hbl
        simp at hbl
      · by_cases hki : k = i
        · have hli : l ≠ i := fun hli => hkl (hki.trans hli.symm)
          rw [hki, hshapei] at hbk
          rw [hshape l hli hlj] at hbl
          exact h.disjoint j l (Ne.symm hlj) b hbk hbl
        · rw [hshape k hki hkj] at hbk
          by_cases hli : l = i
          · rw [hli, hshapei] at hbl
            exact h.disjoint k j hkj b hbk hbl
          · rw [hshape l hli hlj] at hbl
            exact h.disjoint k l hkl b hbk hbl
  · intro b n hn
    obtain ⟨k, hk⟩ := h.owned b n hn
    by_cases hkj : k = j
    · exact ⟨i, by rw [hshapei, ← hkj]; exact hk⟩
    · have hki : k ≠ i := by
        rintro rfl
        rw [hi] at hk
        simp at hk
      exact ⟨k, by rw [hshape k hki hkj]; exact hk⟩

/-- An object without nodes may appear and disappear. -/
theorem World.Holds.setObject (h : w.Holds shape) (hi : shape i = .nil)
    {o : Option (Option Addr × Nat)} (ho : o = none ∨ o = some (none, 0)) :
    World.Holds (w.setObject i o) shape := by
  refine ⟨?_, ?_, h.disjoint, h.owned⟩
  · intro j sj hj
    by_cases hji : j = i
    · subst hji
      rcases ho with rfl | rfl
      · simp [World.tree, World.setObject] at hj
      · simp only [World.tree, World.setObject, Function.update_self, Option.map_some,
          Option.some.injEq] at hj
        rw [hi, ← hj]
        exact wf_nil rfl rfl
    · refine h.wf j sj ?_
      simpa [World.tree, World.setObject, hji] using hj
  · intro j hj
    by_cases hji : j = i
    · rw [hji, hi]
    · exact h.dead j (by simpa [World.setObject, hji] using hj)

end Holds

theorem World.meaning_setObject (w : World T) (i : Nat) (o : Option (Option Addr × Nat)) :
    (w.setObject i o).meaning =
      Function.update w.meaning i (o.map fun o => Store.entries ⟨o.1, o.2, w.cells⟩) := by
  funext j
  by_cases hji : j = i
  · subst hji
    simp only [World.meaning, World.tree, World.setObject, Function.update_self, Option.map_map]
    rfl
  · simp [World.meaning, World.tree, World.setObject, hji]

theorem World.meaning_move (w : World T) (i j : Nat) :
    ((w.setObject i (w.objects j)).setObject j (some (none, 0))).meaning =
      Function.update (Function.update w.meaning i (w.meaning j)) j (some []) := by
  have hj : w.meaning j = (w.objects j).map fun o => Store.entries ⟨o.1, o.2, w.cells⟩ := by
    rw [World.meaning, World.tree, Option.map_map]
    rfl
  rw [World.meaning_setObject, World.meaning_setObject, hj]
  rfl

/-! ## The steps of a program -/

section Steps

variable {w : World T} {shape : Nat → BinaryTree Addr}

theorem World.Holds.insert (h : w.Holds shape) {i : Nat} {a : Addr} {start stop : UInt64}
    (hi : w.objects i ≠ none) (ha : w.cells a = none) (hle : start ≤ stop) (data : T) :
    ∃ w' shape', exec w (.insert i a start stop data) = .ok w' ∧ w'.Holds shape' ∧
      w'.meaning = Act.apply w.meaning (.insert i a start stop data) := by
  obtain ⟨s, hs⟩ := World.exists_tree hi
  have hcells := World.cells_of_tree hs
  have hwf := h.wf i s hs
  have hfresh := (hwf.alloc (hcells ▸ ha) (IvtNode.new start stop data)).1
  obtain ⟨s', hrun, hins⟩ := insert_run hwf (hcells ▸ ha) hle data
  have hmem : ∀ b, b ∈ inorder (AvlTree.insert s'.le a (shape i)) ↔ b = a ∨ b ∈ inorder (shape i) :=
    fun b => AvlTree.mem_inorder_insert s'.le
  have hkeep : ∀ b, b ∉ inorder (shape i) → b ∉ inorder (AvlTree.insert s'.le a (shape i)) →
      s'.cells b = s.cells b :=
    fun b hb hb' => hins.frame b hb fun hba => hb' ((hmem b).2 (.inl hba))
  have hnew : ∀ b ∈ inorder (AvlTree.insert s'.le a (shape i)),
      b ∈ inorder (shape i) ∨ s.cells b = none :=
    fun b hb => ((hmem b).1 hb).elim (fun hba => .inr (by rw [hba, hcells, ha])) .inl
  refine ⟨_, _, ?_, h.after hs hins.wf hkeep hnew ?_, ?_⟩
  · rw [exec, World.call_run hs hrun]
    rfl
  · exact fun b hb hb' => absurd ((hmem b).2 (.inr hb)) hb'
  · rw [h.meaning_after hs hkeep hnew, hins.entries hwf hfresh, Act.apply, World.meaning, hs,
      Option.map_some, Option.map_some]

theorem World.Holds.remove (h : w.Holds shape) {i : Nat} {it : Option Addr} {s : Store T}
    (hs : w.tree i = some s) (hit : ∀ a, it = some a → a ∈ s.nodes) :
    ∃ w' shape', exec w (.remove i it) = .ok w' ∧ w'.Holds shape' ∧
      w'.meaning = Act.apply w.meaning (.remove i it) := by
  have hwf := h.wf i s hs
  cases it with
  | none =>
    have hrun : (Interval.remove none).run s = .ok (false, s) := rfl
    have hkeep : ∀ b, b ∉ inorder (shape i) → b ∉ inorder (shape i) → s.cells b = s.cells b :=
      fun _ _ _ => rfl
    have hnew : ∀ b ∈ inorder (shape i), b ∈ inorder (shape i) ∨ s.cells b = none :=
      fun _ hb => .inl hb
    refine ⟨_, _, ?_, h.after hs hwf hkeep hnew fun _ hb hb' => absurd hb hb', ?_⟩
    · rw [exec, World.call_run hs hrun]
      rfl
    · have hmeaning : w.meaning i = some s.entries := by
        rw [World.meaning, hs, Option.map_some]
      rw [h.meaning_after hs hkeep hnew, Act.apply, ← hmeaning, Function.update_eq_self]
  | some a =>
    have ha : a ∈ inorder (shape i) := hwf.nodes_eq ▸ hit a rfl
    obtain ⟨s', t', hrun, hrem⟩ := remove_run hwf ha
    have hmem : ∀ b, b ∈ inorder t' ↔ b ≠ a ∧ b ∈ inorder (shape i) := by
      intro b
      rw [hrem.order, hwf.nodup.mem_erase_iff]
    have hkeep : ∀ b, b ∉ inorder (shape i) → b ∉ inorder t' → s'.cells b = s.cells b :=
      fun b hb _ => hrem.frame b hb
    have hnew : ∀ b ∈ inorder t', b ∈ inorder (shape i) ∨ s.cells b = none :=
      fun b hb => .inl ((hmem b).1 hb).2
    have hfree : ∀ b ∈ inorder (shape i), b ∉ inorder t' → s'.cells b = none := by
      intro b hb hb'
      have hba : b = a := by
        by_contra hba
        exact hb' ((hmem b).2 ⟨hba, hb⟩)
      have hitem := congrFun hrem.item b
      rw [hba, Function.update_self] at hitem
      rw [hba]
      simpa [Store.item] using hitem
    refine ⟨_, _, ?_, h.after hs hrem.wf hkeep hnew hfree, ?_⟩
    · rw [exec, World.call_run hs hrun]
      rfl
    · rw [h.meaning_after hs hkeep hnew, hrem.entries hwf, Act.apply, World.meaning, hs,
        Option.map_some, Option.map_some]

/-- `clear` leaves an object without nodes. -/
theorem World.Holds.clear (h : w.Holds shape) {i : Nat} (hi : w.objects i ≠ none) :
    ∃ w' o, w.call i clear = .ok ((), w') ∧ w'.Holds (Function.update shape i .nil) ∧
      w'.objects = Function.update w.objects i (some o) ∧
      w'.meaning = Function.update w.meaning i (some []) := by
  obtain ⟨s, hs⟩ := World.exists_tree hi
  obtain ⟨s', hrun, _, hwf, hfree, hkeep⟩ := clear_run (h.wf i s hs)
  have hkeep' : ∀ b, b ∉ inorder (shape i) → b ∉ inorder (.nil : BinaryTree Addr) →
      s'.cells b = s.cells b := fun b hb _ => hkeep b hb
  have hnew : ∀ b ∈ inorder (.nil : BinaryTree Addr),
      b ∈ inorder (shape i) ∨ s.cells b = none := fun b hb => by simp at hb
  have hentries : s'.entries = [] := hwf.entries_eq
  refine ⟨w.after i s', _, World.call_run hs hrun, ?_, rfl, ?_⟩
  · exact h.after hs hwf hkeep' hnew fun b hb _ => hfree b hb
  · rw [h.meaning_after hs hkeep' hnew, hentries]

/-- Every enabled operation succeeds, keeps the invariant, and does to the lists
of entries what it should. -/
theorem World.Holds.exec (h : w.Holds shape) {act : Act T} (he : Enabled w act) :
    ∃ w' shape', exec w act = .ok w' ∧ w'.Holds shape' ∧
      w'.meaning = act.apply w.meaning := by
  cases act with
  | construct i =>
    exact ⟨_, shape, rfl, h.setObject (h.dead i he) (.inr rfl), w.meaning_setObject i _⟩
  | insert i a start stop data => exact h.insert he.1 he.2.1 he.2.2 data
  | remove i it =>
    obtain ⟨s, hs, hit⟩ := he
    exact h.remove hs hit
  | clear i =>
    obtain ⟨w', _, hcall, hholds, _, hmeaning⟩ := h.clear he
    exact ⟨w', _, by rw [Interval.exec, hcall]; rfl, hholds, hmeaning⟩
  | moveConstruct i j =>
    have hij : i ≠ j := fun hij => he.2 (hij ▸ he.1)
    exact ⟨_, _, rfl, h.move hij (h.dead i he.1) he.2, w.meaning_move i j⟩
  | moveAssign i j =>
    by_cases hij : i = j
    · exact ⟨w, shape, by rw [Interval.exec, if_pos hij], h, by rw [Act.apply, if_pos hij]⟩
    · obtain ⟨w', o, hcall, hholds, hobjects, hmeaning⟩ := h.clear he.1
      have hj : w'.objects j ≠ none := by
        rw [hobjects, Function.update_of_ne (Ne.symm hij)]
        exact he.2
      refine ⟨_, _, ?_, hholds.move hij (Function.update_self _ _ _) hj, ?_⟩
      · rw [Interval.exec, if_neg hij, hcall]
        rfl
      · rw [World.meaning_move, hmeaning, Act.apply, if_neg hij,
          Function.update_of_ne (Ne.symm hij), Function.update_idem]
  | destroy i =>
    obtain ⟨w', o, hcall, hholds, _, hmeaning⟩ := h.clear he
    refine ⟨_, _, ?_, hholds.setObject (Function.update_self _ _ _) (.inl rfl), ?_⟩
    · rw [Interval.exec, hcall]
      rfl
    · rw [World.meaning_setObject, hmeaning, Act.apply, Function.update_idem]
      rfl

end Steps

/-- In every reachable world every object holds its tree. -/
theorem reachable_holds {w : World T} (h : (system T).Reachable w) : ∃ shape, w.Holds shape := by
  refine h.invariant (I := fun w => ∃ shape, w.Holds shape) ?_ ?_
  · rintro w rfl
    exact ⟨_, World.holds_empty⟩
  · rintro w act w' _ ⟨shape, hw⟩ ⟨he, hexec⟩
    obtain ⟨w'', shape', hexec', hholds, _⟩ := hw.exec he
    cases hexec.symm.trans hexec'
    exact ⟨shape', hholds⟩

/-- Every operation of a program refines its operation on lists of entries. -/
theorem exec_meaning {w w' : World T} (h : (system T).Reachable w) {act : Act T}
    (he : Enabled w act) (hexec : exec w act = .ok w') : w'.meaning = act.apply w.meaning := by
  obtain ⟨shape, hholds⟩ := reachable_holds h
  obtain ⟨w'', _, hexec', _, hmeaning⟩ := hholds.exec he
  cases hexec.symm.trans hexec'
  exact hmeaning

/-! ## What the lists decide -/

/-- What `Enabled` asks for, of the lists of entries. -/
def Admits (g : Meaning T) : Act T → Prop
  | .construct i => g i = none
  | .insert i a start stop _ =>
    g i ≠ none ∧ (∀ j es, g j = some es → ∀ e ∈ es, e.id ≠ a) ∧ start ≤ stop
  | .remove i it => ∃ es, g i = some es ∧ ∀ a, it = some a → ∃ e ∈ es, e.id = a
  | .clear i => g i ≠ none
  | .moveConstruct i j => g i = none ∧ g j ≠ none
  | .moveAssign i j => g i ≠ none ∧ g j ≠ none
  | .destroy i => g i ≠ none

/-- Every operation of a program is one that the lists before it admit. -/
def AdmitsRun : Meaning T → List (Act T) → Prop
  | _, [] => True
  | g, act :: acts => Admits g act ∧ AdmitsRun (act.apply g) acts

theorem World.meaning_eq_none {w : World T} {i : Nat} :
    w.meaning i = none ↔ w.objects i = none := by
  rw [World.meaning, World.tree, Option.map_eq_none_iff, Option.map_eq_none_iff]

/-- A node is free exactly when no entry has it. -/
theorem World.Holds.cells_eq_none {w : World T} {shape : Nat → BinaryTree Addr} (h : w.Holds shape)
    {a : Addr} : w.cells a = none ↔ ∀ i es, w.meaning i = some es → ∀ e ∈ es, e.id ≠ a := by
  constructor
  · rintro ha i es hes e he rfl
    rw [World.meaning, Option.map_eq_some_iff] at hes
    obtain ⟨s, hs, rfl⟩ := hes
    obtain ⟨n, hn⟩ := h.exists_cells ((h.wf i s hs).mem_entries.1 he).1
    rw [ha] at hn
    cases hn
  · intro hids
    cases ha : w.cells a with
    | none => rfl
    | some n =>
      exfalso
      obtain ⟨i, hi⟩ := h.owned a n ha
      by_cases ho : w.objects i = none
      · rw [h.dead i ho] at hi
        cases hi
      · obtain ⟨s, hs⟩ := World.exists_tree ho
        rw [← (h.wf i s hs).map_id_entries, List.mem_map] at hi
        obtain ⟨e, he, hid⟩ := hi
        exact hids i s.entries (by rw [World.meaning, hs, Option.map_some]) e he hid

/-- The lists of entries decide which operations a program may do. -/
theorem enabled_iff_admits {w : World T} (h : (system T).Reachable w) {act : Act T} :
    Enabled w act ↔ Admits w.meaning act := by
  obtain ⟨shape, hholds⟩ := reachable_holds h
  cases act with
  | insert i a start stop data =>
    rw [Enabled, Admits, hholds.cells_eq_none, ne_eq, ne_eq, World.meaning_eq_none]
  | remove i it =>
    have hnodes : ∀ s, w.tree i = some s → ∀ a, a ∈ s.nodes ↔ ∃ e ∈ s.entries, e.id = a := by
      intro s hs a
      have hwf := hholds.wf i s hs
      rw [hwf.nodes_eq, ← hwf.map_id_entries, List.mem_map]
    constructor
    · rintro ⟨s, hs, hit⟩
      refine ⟨s.entries, by rw [World.meaning, hs, Option.map_some], fun a ha => ?_⟩
      exact (hnodes s hs a).1 (hit a ha)
    · rintro ⟨es, hes, hit⟩
      rw [World.meaning, Option.map_eq_some_iff] at hes
      obtain ⟨s, hs, rfl⟩ := hes
      exact ⟨s, hs, fun a ha => (hnodes s hs a).2 (hit a ha)⟩
  | construct i => rw [Enabled, Admits, World.meaning_eq_none]
  | clear i => rw [Enabled, Admits, ne_eq, ne_eq, World.meaning_eq_none]
  | moveConstruct i j =>
    rw [Enabled, Admits, ne_eq, ne_eq, World.meaning_eq_none, World.meaning_eq_none]
  | moveAssign i j =>
    rw [Enabled, Admits, ne_eq, ne_eq, ne_eq, ne_eq, World.meaning_eq_none, World.meaning_eq_none]
  | destroy i => rw [Enabled, Admits, ne_eq, ne_eq, World.meaning_eq_none]

/-- A program whose operations the lists admit runs to its end. -/
theorem exec_run {w : World T} (h : (system T).Reachable w) {acts : List (Act T)}
    (hacts : AdmitsRun w.meaning acts) :
    ∃ w', acts.foldlM exec w = .ok w' ∧ (system T).Reachable w' ∧
      w'.meaning = acts.foldl (fun g act => act.apply g) w.meaning := by
  induction acts generalizing w with
  | nil => exact ⟨w, rfl, h, rfl⟩
  | cons act acts ih =>
    have he := (enabled_iff_admits h).2 hacts.1
    obtain ⟨shape, hholds⟩ := reachable_holds h
    obtain ⟨w₁, _, hexec, _, hmeaning⟩ := hholds.exec he
    obtain ⟨w', hrun, hreach, hmeaning'⟩ := ih (.step h ⟨he, hexec⟩) (hmeaning ▸ hacts.2)
    refine ⟨w', ?_, hreach, ?_⟩
    · rw [List.foldlM_cons, hexec]
      exact hrun
    · rw [hmeaning', hmeaning, List.foldl_cons]

/-- One object with these entries, and no other one. -/
def only (es : List (Entry T)) : Meaning T := Function.update (fun _ => none) 0 (some es)

theorem admitsRun_insert {es : List (Entry T)} {a : Addr} {start stop : UInt64} {data : T}
    {acts : List (Act T)} (hids : ∀ e ∈ es, e.id ≠ a) (hle : start ≤ stop)
    (hacts : AdmitsRun (only (insertEntry ⟨a, start, stop, data⟩ es)) acts) :
    AdmitsRun (only es) (.insert 0 a start stop data :: acts) := by
  have hself : only es 0 = some es := Function.update_self _ _ _
  refine ⟨⟨by rw [hself]; exact nofun, fun j es' hes' => ?_, hle⟩, ?_⟩
  · rw [only, Function.update_apply] at hes'
    split at hes'
    · cases hes'
      exact hids
    · cases hes'
  · rw [Act.apply, hself, Option.map_some, only, Function.update_idem]
    exact hacts

/-- A program whose third entry makes the tree rotate and becomes the root, and is removed in the
end.  Two of the other entries start together. -/
def sample : List (Act Unit) :=
  [.construct 0, .insert 0 1 5 9 (), .insert 0 2 7 8 (), .insert 0 3 7 20 (),
    .insert 0 4 1 2 (), .insert 0 5 7 7 (), .remove 0 (some 3)]

/-- The entries that are left, in their order. -/
def sampleEntries : List (Entry Unit) :=
  [⟨4, 1, 2, ()⟩, ⟨1, 5, 9, ()⟩, ⟨5, 7, 7, ()⟩, ⟨2, 7, 8, ()⟩]

theorem reachable_sample :
    ∃ w s, sample.foldlM exec World.empty = .ok w ∧ (system Unit).Reachable w ∧
      w.tree 0 = some s ∧ s.entries = sampleEntries := by
  have hinserts : AdmitsRun (only []) sample.tail := by
    refine admitsRun_insert (by decide) (by decide) ?_
    refine admitsRun_insert (by decide) (by decide) ?_
    refine admitsRun_insert (by decide) (by decide) ?_
    refine admitsRun_insert (by decide) (by decide) ?_
    refine admitsRun_insert (by decide) (by decide) ?_
    refine ⟨⟨_, Function.update_self _ _ _, ?_⟩, trivial⟩
    rintro a ⟨⟩
    decide
  have hadmits : AdmitsRun (World.empty : World Unit).meaning sample := ⟨rfl, hinserts⟩
  obtain ⟨w, hrun, hreach, hmeaning⟩ := exec_run (.init rfl) hadmits
  have hat : w.meaning 0 = some sampleEntries := congrFun hmeaning 0
  rw [World.meaning, Option.map_eq_some_iff] at hat
  obtain ⟨s, hs, hentries⟩ := hat
  exact ⟨w, s, hrun, hreach, hs, hentries⟩

/-! ## What a program sees -/

/-- The whole representation invariant holds of every tree object that a program
can build, the self-test passes on it, and no operation fails. -/
theorem reachable_wf {w : World T} (h : (system T).Reachable w) :
    (∀ i s, w.tree i = some s → ∃ t, Wf s t ∧ validate.run s = .ok ((), s)) ∧
      ∀ act, Enabled w act → ∃ w', exec w act = .ok w' := by
  obtain ⟨shape, hholds⟩ := reachable_holds h
  constructor
  · intro i s hs
    exact ⟨shape i, hholds.wf i s hs, validate_run (hholds.wf i s hs)⟩
  · intro act he
    obtain ⟨w', _, hexec, _, _⟩ := hholds.exec he
    exact ⟨w', hexec⟩

theorem reachable_wf_sample :
    ∃ w s t, sample.foldlM exec World.empty = .ok w ∧ w.tree 0 = some s ∧
      s.entries = sampleEntries ∧ Wf s t ∧ validate.run s = .ok ((), s) ∧
      ∃ w', exec w (.remove 0 (some 5)) = .ok w' := by
  obtain ⟨w, s, hrun, hreach, hs, hentries⟩ := reachable_sample
  obtain ⟨htrees, hsteps⟩ := reachable_wf hreach
  obtain ⟨t, ht, hvalidate⟩ := htrees 0 s hs
  have he : Enabled w (.remove 0 (some 5)) := by
    refine (enabled_iff_admits hreach).2 ⟨sampleEntries, ?_, ?_⟩
    · rw [World.meaning, hs, Option.map_some, hentries]
    · rintro a ⟨⟩
      decide
  exact ⟨w, s, t, hrun, hs, hentries, ht, hvalidate, hsteps _ he⟩

/-- A tree object is an ordered list of entries: `insert` puts one new entry at
its place and `remove` deletes one entry, and every other iterator still denotes
the entry it denoted before. -/
theorem reachable_insert_remove {w : World T} (h : (system T).Reachable w) {i : Nat}
    {s : Store T} (hs : w.tree i = some s) :
    (s.entries.map Entry.id).Nodup ∧
      (∀ a start stop data, s.cells a = none → start ≤ stop →
        ∃ s', (insert a start stop data).run s = .ok (some a, s') ∧
          s'.entries = insertEntry ⟨a, start, stop, data⟩ s.entries ∧
          ∀ e ∈ s.entries, e.id ≠ a ∧ s'.entry e.id = some e) ∧
      ∀ e ∈ s.entries, ∃ s', (remove (some e.id)).run s = .ok (true, s') ∧
        s'.entries = removeEntry e.id s.entries ∧
        ∀ e' ∈ s.entries, e'.id ≠ e.id → s'.entry e'.id = some e' := by
  obtain ⟨shape, hholds⟩ := reachable_holds h
  have hwf := hholds.wf i s hs
  refine ⟨?_, ?_, ?_⟩
  · rw [hwf.map_id_entries]
    exact hwf.nodup
  · intro a start stop data ha hle
    obtain ⟨s', hrun, hins⟩ := insert_run hwf ha hle data
    have hfresh := (hwf.alloc ha (IvtNode.new start stop data)).1
    refine ⟨s', hrun, hins.entries hwf hfresh, fun e he => ?_⟩
    obtain ⟨hmem, hentry⟩ := hwf.mem_entries.1 he
    have hne : e.id ≠ a := ne_of_mem_of_not_mem hmem hfresh
    refine ⟨hne, (Store.entry_congr ?_).trans hentry⟩
    rw [hins.item, Function.update_of_ne hne]
  · intro e he
    obtain ⟨s', t', hrun, hrem⟩ := remove_run hwf (hwf.mem_entries.1 he).1
    refine ⟨s', hrun, hrem.entries hwf, fun e' he' hne => ?_⟩
    refine (Store.entry_congr ?_).trans (hwf.mem_entries.1 he').2
    rw [hrem.item, Function.update_of_ne hne]

theorem reachable_insert_remove_sample :
    ∃ w s, sample.foldlM exec World.empty = .ok w ∧ w.tree 0 = some s ∧
      ∃ s', (remove (some 1)).run s = .ok (true, s') ∧
        s'.entries = [⟨4, 1, 2, ()⟩, ⟨5, 7, 7, ()⟩, ⟨2, 7, 8, ()⟩] ∧
        s'.entry 5 = some ⟨5, 7, 7, ()⟩ := by
  obtain ⟨w, s, hrun, hreach, hs, hentries⟩ := reachable_sample
  obtain ⟨_, _, hremove⟩ := reachable_insert_remove hreach hs
  rw [hentries] at hremove
  obtain ⟨s', hrun', hentries', hkeep⟩ := hremove ⟨1, 5, 9, ()⟩ (by simp [sampleEntries])
  exact ⟨w, s, hrun, hs, s', hrun', hentries',
    hkeep ⟨5, 7, 7, ()⟩ (by simp [sampleEntries]) (by decide)⟩

/-- The queries are exact: `for_each` visits each entry that has a point in
common with the query once and no other entry, `find_overlaps` returns these
entries, and `overlaps` says whether there is one. -/
theorem reachable_queries {w : World T} (h : (system T).Reachable w) {i : Nat} {s : Store T}
    (hs : w.tree i = some s) {start stop : UInt64} (hle : start ≤ stop) :
    ∃ found : List Addr, found.Nodup ∧
      (∀ a, a ∈ found ↔ ∃ e ∈ s.entries, e.id = a ∧
        ∃ x, (e.lo ≤ x ∧ x ≤ e.hi) ∧ start ≤ x ∧ x ≤ stop) ∧
      (∀ (σ : Type) (fn : Callback T σ) (acc : σ),
        (forEach start stop fn acc).run s = .ok (found.foldl (visit fn) (acc, s))) ∧
      (findOverlaps start stop).run s = .ok (found, s) ∧
      ∃ b, (overlapsAny start stop).run s = .ok (b, s) ∧
        (b = true ↔ ∃ e ∈ s.entries, ∃ x, (e.lo ≤ x ∧ x ≤ e.hi) ∧ start ≤ x ∧ x ≤ stop) := by
  obtain ⟨shape, hholds⟩ := reachable_holds h
  have hwf := hholds.wf i s hs
  have hmem : ∀ a, a ∈ hits s start stop (shape i) ↔ ∃ e ∈ s.entries, e.id = a ∧
      ∃ x, (e.lo ≤ x ∧ x ≤ e.hi) ∧ start ≤ x ∧ x ≤ stop := by
    intro a
    rw [mem_hits]
    constructor
    · rintro ⟨hat, hhit⟩
      obtain ⟨e, he, rfl, hlo, hhi⟩ := hwf.exists_entry hat
      refine ⟨e, hwf.mem_entries.2 ⟨hat, he⟩, rfl, ?_⟩
      rw [hlo, hhi]
      exact (overlaps_iff (hwf.proper _ hat) hle).1 hhit
    · rintro ⟨e, he, rfl, hx⟩
      obtain ⟨hat, hentry⟩ := hwf.mem_entries.1 he
      obtain ⟨e', he', _, hlo, hhi⟩ := hwf.exists_entry hat
      cases hentry.symm.trans he'
      rw [hlo, hhi] at hx
      exact ⟨hat, (overlaps_iff (hwf.proper _ hat) hle).2 hx⟩
  refine ⟨hits s start stop (shape i), nodup_hits hwf.nodup, hmem,
    fun σ fn acc => forEach_run fn acc hwf hle, findOverlaps_run hwf hle,
    !(hits s start stop (shape i)).isEmpty, overlapsAny_run hwf hle, ?_⟩
  rw [Bool.not_eq_true', List.isEmpty_eq_false_iff_exists_mem]
  constructor
  · rintro ⟨a, ha⟩
    obtain ⟨e, he, _, hx⟩ := (hmem a).1 ha
    exact ⟨e, he, hx⟩
  · rintro ⟨e, he, hx⟩
    exact ⟨e.id, (hmem e.id).2 ⟨e, he, rfl, hx⟩⟩

theorem reachable_queries_sample :
    ∃ w s, sample.foldlM exec World.empty = .ok w ∧ w.tree 0 = some s ∧
      ∃ found, 1 ∈ found ∧ 2 ∈ found ∧ 5 ∉ found ∧ (findOverlaps 8 12).run s = .ok (found, s) := by
  obtain ⟨w, s, hrun, hreach, hs, hentries⟩ := reachable_sample
  obtain ⟨found, _, hmem, _, hfind, _⟩ :=
    reachable_queries hreach hs (by decide : (8 : UInt64) ≤ 12)
  rw [hentries] at hmem
  refine ⟨w, s, hrun, hs, found, (hmem 1).2 ?_, (hmem 2).2 ?_, ?_, hfind⟩
  · exact ⟨⟨1, 5, 9, ()⟩, by simp [sampleEntries], rfl, 9, by decide⟩
  · exact ⟨⟨2, 7, 8, ()⟩, by simp [sampleEntries], rfl, 8, by decide⟩
  · intro hmem5
    obtain ⟨e, he, hid, x, ⟨-, hhi⟩, hlo, -⟩ := (hmem 5).1 hmem5
    have hhi' : e.hi = 7 := by
      have hids : ∀ e ∈ sampleEntries, e.id = 5 → e.hi = 7 := by
        simp [sampleEntries]
      exact hids e he hid
    rw [hhi'] at hhi
    exact absurd (UInt64.le_trans hlo hhi) (by decide)

end Mwr.Interval
