import Mwr.CodeLib.AvlHeight
import Mwr.Interval.World

/-!
# The depth of the recursions

The recursive functions of the tree go down from the root, so that their depth is that of the
tree, and the tree is balanced.  A call passes on one less than its own bound, and fails without
any.  So a call that succeeds with a bound goes no deeper.

* `Store.height` is the number of nodes on the longest way down, and `Shallow` what its
  logarithm bounds.
* `reachable_shallow` is the result for every program.
-/

namespace Mwr.Interval

open BinaryTree
open Mwr.CodeLib
open Mwr.CodeLib.AvlTree (Path inorder)
open Mwr.CodeLib.LinkedTree
open Mwr.CodeLib.Exec
open Mwr.CodeLib.Transition

variable {T : Type}

/-- The number of nodes on the longest way down, through the child pointers. -/
def heightFrom (cells : Addr → Option (IvtNode T)) : Nat → Option Addr → Nat
  | 0, _ => 0
  | _ + 1, none => 0
  | fuel + 1, some a =>
    match cells a with
    | none => 0
    | some n => max (heightFrom cells fuel n.left) (heightFrom cells fuel n.right) + 1

/-- The height of a tree object. -/
def Store.height (s : Store T) : Nat := heightFrom s.cells s.bound s.root

/-- No recursion on the tree goes deeper. -/
structure RecursesWithin (s : Store T) (depth : Nat) : Prop where
  insert : ∀ a start stop (data : T), s.cells a = none →
    ∃ s', (ivtInsert depth .rootField (some a) none).run (s.put a (.new start stop data)) =
      .ok ((), s')
  clear : ∃ s', (ivtClear depth .rootField).run s = .ok ((), s')
  overlaps : ∀ start stop, ∃ b, (ivtOverlaps depth s.root start stop).run s = .ok (b, s)
  forEach : ∀ (σ : Type) start stop (fn : Callback T σ) acc,
    ∃ r, (ivtForEach start stop fn depth s.root acc).run s = .ok r
  validate : ∃ count, (ivtValidate depth s.root none 0).run s = .ok (count, s)

/-- The tree has as many entries as its height asks for, and the recursions are no deeper than
its height. -/
structure Shallow (s : Store T) : Prop where
  height : (ivtHeight s.root).run s = .ok (s.height, s)
  size : s.entries.length = s.size
  entries : Nat.fib (s.height + 2) - 1 ≤ s.size
  depth : RecursesWithin s (s.height + 1)
  logarithmic : s.height ≤ 2 * Nat.clog 2 (s.size + 1)

section Object

variable {s : Store T} {t : BinaryTree Addr}

theorem heightFrom_eq :
    ∀ {par p : Option Addr} {fuel : Nat}, Links s.linked par p t → t.height < fuel →
      heightFrom s.cells fuel p = t.height := by
  induction t with
  | nil =>
    intro par p fuel h hfuel
    cases h
    cases fuel with
    | zero => rfl
    | succ fuel => rfl
  | node a l r ihl ihr =>
    intro par p fuel h hfuel
    cases fuel with
    | zero => exact absurd hfuel (Nat.not_lt_zero _)
    | succ fuel =>
      obtain ⟨n, rfl, hn, _, hl, hr⟩ := exists_root h
      rw [height] at hfuel
      rw [heightFrom]
      simp only [hn]
      rw [ihl hl (by omega), ihr hr (by omega), height]

theorem Wf.height_eq (h : Wf s t) : s.height = t.height := heightFrom_eq h.rep h.height_lt_bound

theorem ivtHeight_root_run (h : Wf s t) : (ivtHeight s.root).run s = .ok (t.height, s) := by
  have hrep : Links s.linked none s.root t := h.rep
  cases t with
  | nil =>
    rw [show s.root = none from hrep]
    rfl
  | node a l r =>
    obtain ⟨n, hroot, hn, _, hl, hr⟩ := exists_root hrep
    rw [hroot]
    exact ivtHeight_run hn hl hr h.cached.2.1 h.cached.2.2

theorem Wf.recursesWithin (h : Wf s t) : RecursesWithin s (t.height + 1) where
  insert := by
    intro a start stop data ha
    obtain ⟨hat, h₁⟩ := h.alloc ha (IvtNode.new start stop data)
    have hn : (s.put a (.new start stop data)).cells a = some (IvtNode.new start stop data) :=
      Function.update_self _ _ _
    obtain ⟨s', hrun, _⟩ := ivtInsert_run hn rfl rfl (cached_new hn) (t.height + 1) (c := .top)
      h₁.rep h₁.nodup h₁.cached hat (Nat.lt_succ_self _)
    exact ⟨s', hrun⟩
  clear := by
    obtain ⟨s', hrun, _⟩ := ivtClear_run .root (t.height + 1) (by rintro b ⟨⟩) h.rep h.nodup
      (by rintro b ⟨⟩) (Nat.lt_succ_self _)
    exact ⟨s', hrun⟩
  overlaps := fun _ _ => ⟨_, ivtOverlaps_run h.rep h.cached (Nat.lt_succ_self _)⟩
  forEach := fun _ _ _ fn acc =>
    ⟨_, ivtForEach_run fn acc h.rep h.cached (Nat.lt_succ_self _)⟩
  validate := ⟨_, ivtValidate_run 0 h.rep h.cached h.balanced (Nat.lt_succ_self _)⟩

theorem Wf.shallow (h : Wf s t) : Shallow s where
  height := by
    rw [h.height_eq]
    exact ivtHeight_root_run h
  size := by
    rw [← List.length_map (f := Entry.id), h.map_id_entries, AvlTree.length_inorder, h.size]
  entries := by
    rw [h.height_eq, h.size]
    exact Nat.sub_le_of_le_add (AvlTree.fib_height_le h.balanced)
  depth := by
    rw [h.height_eq]
    exact h.recursesWithin
  logarithmic := by
    rw [h.height_eq, h.size]
    exact AvlTree.height_le_clog h.balanced

end Object

/-- Every tree of every program is shallow, whatever the order of the operations. -/
theorem reachable_shallow {w : World T} (h : (system T).Reachable w) {i : Nat} {s : Store T}
    (hs : w.tree i = some s) : Shallow s := by
  obtain ⟨shape, hholds⟩ := reachable_holds h
  exact (hholds.wf i s hs).shallow

theorem reachable_shallow_sample :
    ∃ w s, sample.foldlM exec World.empty = .ok w ∧ w.tree 0 = some s ∧
      s.entries = sampleEntries ∧ s.height ≤ 3 ∧ RecursesWithin s (s.height + 1) := by
  obtain ⟨w, s, hrun, hreach, hs, hentries⟩ := reachable_sample
  have hshallow := reachable_shallow hreach hs
  have hsize : s.size = 4 := by rw [← hshallow.size, hentries]; rfl
  refine ⟨w, s, hrun, hs, hentries, ?_, hshallow.depth⟩
  by_contra hheight
  have hfib : Nat.fib 6 ≤ Nat.fib (s.height + 2) := Nat.fib_mono (by omega)
  have hentriesLe := hshallow.entries
  rw [hsize] at hentriesLe
  have height : Nat.fib 6 = 8 := rfl
  omega

end Mwr.Interval
