import Mathlib.Data.Set.Insert
import Mwr.Fdt.Handles

/-!
# Handles that the counter draws

`Process.Allowed` asks that no node of the tree carries the number that `handle` draws.  The
numbers that it has drawn before are out of the question while the counter does not come
around: they are at most the counter.  What is left are the numbers that a program or a blob
has brought in.

* `Given` has these numbers for every tree, and `observed` keeps them beside a run.
* `Accounted` is the invariant: what a node carries was given, or is at most the counter.
* `reachable_allowed` turns a condition on the given numbers into `Process.Allowed`, and
  `identified_of_given` is what follows for the handles.
-/

namespace Mwr.Fdt

open Mwr.CodeLib
open Mwr.CodeLib.Bytes
open Mwr.CodeLib.Transition

theorem lt_succ_of_ne {x : UInt32} (h : x + 1 ≠ 0) : x < x + 1 := by
  have hne : (x + 1).toNat ≠ 0 := fun h0 => h (UInt32.toNat_inj.mp h0)
  rw [UInt32.toNat_add] at hne
  rw [UInt32.lt_iff_toNat_lt, UInt32.toNat_add]
  have hlt := x.toNat_lt
  have hone : UInt32.toNat 1 = 1 := rfl
  omega

/-! ## Given numbers -/

/-- For every tree the numbers that came in from outside. -/
abbrev Given := List (Set UInt32)

/-- The number that a property gives to a node. -/
def FdtProp.gives (prop : FdtProp) : Set UInt32 :=
  {x | prop.name = str "phandle" ∧ prop.numbers.head? = some x}

/-- What a call brings in from outside. -/
def note : Op → Given → Given
  | .newNode _, given => given ++ [∅]
  | .decompile root, given => given ++ [{x | ∃ path, root.numberAt path = some x}]
  | .addProperty i _ prop, given => given.modify i fun g => g ∪ prop.gives
  | .addChild .., given | .handle .., given => given

/-- All sequences of calls, with the numbers that they give. -/
def observed (host : Host) : System (Process × Given) Op := (system host).withHistory [] note

namespace Process

/-- The number that `handle` draws for a node was not given to its tree, and the counter has
not come around.  The other calls are allowed ones. -/
def Spared (q : Process × Given) (op : Op) : Prop :=
  match op with
  | .handle i path =>
    ∀ t, q.1.trees[i]? = some t → t.phandleAt path = none →
      q.1.handles + 1 ≠ 0 ∧ ∀ g, q.2[i]? = some g → q.1.handles + 1 ∉ g
  | op => q.1.Allowed op

/-- What a node of a tree carries was given to the tree, or the counter has passed it. -/
def Accounted (q : Process × Given) : Prop :=
  q.2.length = q.1.trees.length ∧
    ∀ (i : Nat) (t : FdtNode) (g : Set UInt32), q.1.trees[i]? = some t → q.2[i]? = some g →
      ∀ path x, t.numberAt path = some x → x ∈ g ∨ x ≤ q.1.handles

/-! ## One call -/

variable {p p' : Process} {given : Given} {op : Op}

/-- The counter goes on for a node that has no property of the name. -/
theorem handle_ok_handles {node node' : FdtNode} {handles handles' x : UInt32}
    (h : node.handle handles = .ok (x, node', handles')) :
    node.phandle ≠ none ∧ handles' = handles ∨ node.phandle = none ∧ handles' = handles + 1 := by
  unfold FdtNode.handle at h
  cases hprop : node.phandle with
  | none =>
    rw [hprop] at h
    cases h
    exact .inr ⟨rfl, rfl⟩
  | some prop =>
    rw [hprop] at h
    dsimp only at h
    split at h
    next =>
      cases h
      exact .inl ⟨nofun, rfl⟩
    next => cases h

theorem phandleAt_of_node {i : Nat} {path : List Nat} {t node : FdtNode}
    (ht : p.trees[i]? = some t) (hnode : p.node? i path = some node) :
    t.phandleAt path = node.phandle := by
  rw [node?, ht, Option.bind_some] at hnode
  rw [FdtNode.phandleAt, hnode, Option.bind_some]

/-- A number that was not given is not there yet. -/
theorem allowed_of_spared (h : Accounted (p, given)) (hop : Spared (p, given) op) :
    p.Allowed op := by
  cases op with
  | handle i path =>
    intro t ht hnone prop hprop
    cases hprop
    obtain ⟨hround, hgiven⟩ := hop t ht hnone
    refine ⟨p.handles + 1, rfl, fun path' hx => ?_⟩
    have hlt : i < given.length := by
      rw [h.1]
      exact (List.getElem?_eq_some_iff.mp ht).1
    have hg : given[i]? = some given[i] := List.getElem?_eq_getElem hlt
    rcases h.2 i t _ ht hg path' _ hx with hmem | hle
    · exact hgiven _ hg hmem
    · exact UInt32.not_le.mpr (lt_succ_of_ne hround) hle
  | newNode | decompile | addChild | addProperty => exact hop

theorem accounted_append {root : FdtNode} {g : Set UInt32} (h : Accounted (p, given))
    (htrees : p'.trees = p.trees ++ [root]) (hhandles : p'.handles = p.handles)
    (hroot : ∀ path x, root.numberAt path = some x → x ∈ g) : Accounted (p', given ++ [g]) := by
  have hlength : given.length = p.trees.length := h.1
  refine ⟨by rw [htrees, List.length_append, List.length_append, hlength]; rfl, ?_⟩
  intro i t g' ht hg' path x hx
  rw [htrees] at ht
  rw [hhandles]
  by_cases hi : i < p.trees.length
  · rw [List.getElem?_append_left hi] at ht
    rw [List.getElem?_append_left (hlength ▸ hi)] at hg'
    exact h.2 i t g' ht hg' path x hx
  · rw [List.getElem?_append_right (Nat.le_of_not_lt hi), List.getElem?_singleton] at ht
    rw [List.getElem?_append_right (hlength ▸ Nat.le_of_not_lt hi), List.getElem?_singleton] at hg'
    split at ht
    next heq =>
      cases ht
      rw [hlength, if_pos heq] at hg'
      cases hg'
      exact .inl (hroot path x hx)
    next => cases ht

/-- A node of one tree may get a number that was given, or that the counter passes. -/
theorem accounted_set {i : Nat} {path : List Nat} {t t' : FdtNode} {r : Option FdtProp}
    {f : Set UInt32 → Set UInt32} (h : Accounted (p, given)) (ht : p.trees[i]? = some t)
    (htrees : p'.trees = p.trees.set i t') (hbrings : t.Brings t' path r)
    (hhandles : p.handles ≤ p'.handles) (hf : ∀ g, g ⊆ f g)
    (hr : t.phandleAt path = none → ∀ x, (r.bind fun prop => prop.numbers.head?) = some x →
      ∀ g, x ∈ f g ∨ x ≤ p'.handles) : Accounted (p', given.modify i f) := by
  have hlt := (List.getElem?_eq_some_iff.mp ht).1
  refine ⟨by rw [htrees, List.length_modify, List.length_set]; exact h.1, ?_⟩
  intro j u g' hu hg' path' x hx
  rw [htrees] at hu
  rw [List.getElem?_modify, Option.map_eq_map, Option.map_eq_some_iff] at hg'
  obtain ⟨g, hg, rfl⟩ := hg'
  by_cases hij : i = j
  · subst hij
    rw [List.getElem?_set_self hlt] at hu
    cases hu
    rw [if_pos rfl]
    have hold : t.numberAt path' = some x → x ∈ f g ∨ x ≤ p'.handles := fun hold =>
      (h.2 i t g ht hg path' x hold).imp (fun hmem => hf g hmem) fun hle =>
        UInt32.le_trans hle hhandles
    by_cases hpath : path' = path
    · subst hpath
      rw [FdtNode.numberAt, hbrings path', if_pos rfl] at hx
      cases hcarried : t.phandleAt path' with
      | none =>
        rw [hcarried, Option.none_or] at hx
        exact hr hcarried x hx g
      | some prop =>
        rw [hcarried, Option.some_or] at hx
        exact hold (by rw [FdtNode.numberAt, hcarried, hx])
    · exact hold ((hbrings.number_other hpath).symm.trans hx)
  · rw [List.getElem?_set_ne hij] at hu
    rw [if_neg hij]
    exact (h.2 j u g hu hg path' x hx).imp_right fun hle => UInt32.le_trans hle hhandles

theorem Accounted.step (h : Accounted (p, given)) (hop : Spared (p, given) op)
    (hstep : p.step op = some p') : Accounted (p', note op given) := by
  cases op with
  | newNode name =>
    cases hstep
    refine accounted_append h rfl rfl fun path x hx => ?_
    rw [FdtNode.numberAt, FdtNode.phandleAt_new] at hx
    cases hx
  | decompile root =>
    cases hstep
    exact accounted_append h rfl rfl fun path x hx => ⟨path, hx⟩
  | addChild i path name =>
    obtain ⟨node, hnode, rfl⟩ := Option.map_eq_some_iff.mp hstep
    obtain ⟨t, t', ht, htrees, hbrings, -⟩ := put_brings (r := none) hnode
      (FdtNode.phandleAt_addChild node name) (by cases node; rw [Option.or_none]; rfl)
    rw [note, ← List.modify_id i given]
    refine accounted_set h ht htrees hbrings (UInt32.le_refl _) (fun g => subset_rfl) ?_
    intro _ x hx
    cases hx
  | addProperty i path prop =>
    obtain ⟨node, hnode, rfl⟩ := Option.map_eq_some_iff.mp hstep
    obtain ⟨t, t', ht, htrees, hbrings, -⟩ := put_brings hnode
      (FdtNode.phandleAt_addProperty node prop) (FdtNode.phandle_addProperty node prop)
    refine accounted_set h ht htrees hbrings (UInt32.le_refl _)
      (fun g => Set.subset_union_left) fun _ x hx g => .inl (.inr ?_)
    split at hx
    next hname => exact ⟨hname, hx⟩
    next => cases hx
  | handle i path =>
    obtain ⟨node, hnode, hstep⟩ := Option.bind_eq_some_iff.mp hstep
    cases hhandle : node.handle p.handles with
    | error e =>
      rw [hhandle] at hstep
      cases hstep
    | ok result =>
      obtain ⟨x, node', handles⟩ := result
      rw [hhandle] at hstep
      cases hstep
      obtain ⟨hbelow, hphandle, -⟩ := FdtNode.handle_ok_brings hhandle
      obtain ⟨t, t', ht, htrees, hbrings, -⟩ := put_brings hnode hbelow hphandle
      have hcarries : t.phandleAt path = node.phandle := phandleAt_of_node ht hnode
      rw [note, ← List.modify_id i given]
      refine accounted_set h ht htrees hbrings ?_ (fun g => subset_rfl) fun hnone y hy g => .inr ?_
      · rcases handle_ok_handles hhandle with ⟨-, heq⟩ | ⟨hnone, heq⟩
        · exact UInt32.le_of_eq heq.symm
        · rw [show handles = p.handles + 1 from heq]
          exact UInt32.le_of_lt (lt_succ_of_ne (hop t ht (hcarries.trans hnone)).1)
      · cases hy
        rcases handle_ok_handles hhandle with ⟨hsome, -⟩ | ⟨-, heq⟩
        · exact absurd (hcarries.symm.trans hnone) hsome
        · exact UInt32.le_of_eq heq.symm

end Process

/-! ## All calls -/

theorem accounted_of_reachable {host : Host} {q : Process × Given}
    (h : ((observed host).restrict Process.Spared).Reachable q) : Process.Accounted q := by
  refine h.invariant ?_ ?_
  · rintro ⟨p, given⟩ ⟨rfl, rfl⟩
    exact ⟨rfl, nofun⟩
  · rintro ⟨p, given⟩ op ⟨p', given'⟩ _ hq ⟨hop, ⟨-, hstep⟩, rfl⟩
    exact hq.step hop hstep

/-- Where the numbers that are given keep apart from those that are drawn, every call is an
allowed one. -/
theorem reachable_allowed {host : Host} {q : Process × Given}
    (h : ((observed host).restrict Process.Spared).Reachable q) :
    ((system host).restrict Process.Allowed).Reachable q.1 := by
  induction h with
  | init hq => exact .init hq.1
  | @step q q' op hq hstep ih =>
    obtain ⟨hop, hstep, -⟩ := hstep
    exact ih.step ⟨Process.allowed_of_spared (accounted_of_reachable hq) hop, hstep⟩

/-- `handle` identifies the nodes as long as it draws no number that was given to a node of
the tree, and the counter does not come around. -/
theorem identified_of_given {host : Host} {q : Process × Given}
    (h : ((observed host).restrict Process.Spared).Reachable q) : q.1.Identified :=
  (inv_of_reachable (reachable_allowed h)).identified

end Mwr.Fdt
