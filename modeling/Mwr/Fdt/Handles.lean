import Mwr.CodeLib.Transition
import Mwr.Fdt.Nesting

/-!
# Handles of nodes

`fdtnode::handle` gives a node the next number of a counter that all trees share, or takes
the number that the node already has in a property of the name `phandle`.

* A node is the path from the root of its tree, which no call changes.  `phandleAt_modify`
  is what a call changes of the properties that carry handles.
* `Process` is the counter with the trees, and the handles returned so far.  `system` has
  every sequence of calls on them.
* `Distinct` says that the handles of one tree differ.  A call keeps it exactly if the
  handles that it brings in are new (`allowed_iff`), and where it does not hold some calls of
  `handle` show it (`exists_clash`).
-/

namespace Mwr.Fdt

open Mwr.CodeLib
open Mwr.CodeLib.Bytes
open Mwr.CodeLib.Transition

/-! ## Nodes of a tree -/

namespace FdtNode

/-- The node at the end of a path of child indices. -/
def get? : FdtNode → List Nat → Option FdtNode
  | t, [] => some t
  | mk _ _ children, i :: path => children[i]?.bind fun child => child.get? path

/-- The tree with the node at the end of a path changed. -/
def modify (f : FdtNode → FdtNode) : FdtNode → List Nat → FdtNode
  | t, [] => f t
  | mk name properties children, i :: path =>
    mk name properties (children.modify i fun child => child.modify f path)

/-- The property that the loop of `handle` finds. -/
def phandle (node : FdtNode) : Option FdtProp :=
  node.properties.find? fun prop => prop.name = str "phandle"

/-- `handle()`: what it returns, the node and the counter afterwards. -/
def handle (node : FdtNode) (handles : UInt32) : Except Fault (UInt32 × FdtNode × UInt32) :=
  match node.phandle with
  | some prop =>
    match prop.numbers with
    | x :: _ => return (x, node, handles)
    | [] => throw .segfault
  | none =>
    return (handles + 1, node.addProperty (.ofNumbers (str "phandle") [handles + 1]), handles + 1)

/-- The property that carries the handle of a node of the tree. -/
def phandleAt (t : FdtNode) (path : List Nat) : Option FdtProp :=
  (t.get? path).bind phandle

/-- The handle that a node of the tree carries. -/
def numberAt (t : FdtNode) (path : List Nat) : Option UInt32 :=
  (t.phandleAt path).bind fun prop => prop.numbers.head?

theorem phandleAt_mk_cons (name : Bytes) (props : List FdtProp) (children : List FdtNode)
    (i : Nat) (path : List Nat) :
    (mk name props children).phandleAt (i :: path) =
      children[i]?.bind fun child => child.phandleAt path := by
  rw [phandleAt, get?]
  cases children[i]? <;> rfl

/-- A change of a node that leaves the nodes below alone changes the handle of this node
and of no other. -/
theorem phandleAt_modify {f : FdtNode → FdtNode} {t node : FdtNode} {path : List Nat}
    (hnode : t.get? path = some node)
    (hf : ∀ i rest, (f node).phandleAt (i :: rest) = node.phandleAt (i :: rest))
    (path' : List Nat) :
    (t.modify f path).phandleAt path' =
      if path' = path then (f node).phandle else t.phandleAt path' := by
  induction path generalizing t path' with
  | nil =>
    cases hnode
    cases path' with
    | nil => rfl
    | cons i rest => exact hf i rest
  | cons i path ih =>
    cases t with
    | mk name props children =>
      cases path' with
      | nil => rfl
      | cons j rest =>
        rw [modify, phandleAt_mk_cons, phandleAt_mk_cons, List.getElem?_modify]
        rw [get?, Option.bind_eq_some_iff] at hnode
        obtain ⟨child, hchild, hnode⟩ := hnode
        by_cases hij : i = j
        · subst hij
          rw [hchild]
          simp only [if_true, Option.map_eq_map, Option.map_some, Option.bind_some,
            List.cons.injEq, true_and]
          exact ih hnode rest
        · have hne : ¬ j :: rest = i :: path := fun h => hij (List.head_eq_of_cons_eq h).symm
          simp only [if_neg hij, if_neg hne, Option.map_eq_map, Option.map_id']

theorem phandleAt_addProperty (node : FdtNode) (prop : FdtProp) (i : Nat) (rest : List Nat) :
    (node.addProperty prop).phandleAt (i :: rest) = node.phandleAt (i :: rest) := by
  cases node with
  | mk name props children => rw [addProperty, phandleAt_mk_cons, phandleAt_mk_cons]

theorem phandleAt_addChild (node : FdtNode) (name : Bytes) (i : Nat) (rest : List Nat) :
    (node.addChild (.new name)).phandleAt (i :: rest) = node.phandleAt (i :: rest) := by
  cases node with
  | mk name' props children =>
    rw [addChild, phandleAt_mk_cons, phandleAt_mk_cons]
    by_cases hi : i < children.length
    · rw [List.getElem?_append_left hi]
    · -- the new node has no property, and there are no nodes below it
      rw [List.getElem?_eq_none (Nat.not_lt.mp hi), List.getElem?_append_right (Nat.not_lt.mp hi)]
      cases i - children.length with
      | zero => cases rest <;> rfl
      | succ k => rfl

/-- A property of another name, or behind the first one, carries no handle. -/
theorem phandle_addProperty (node : FdtNode) (prop : FdtProp) :
    (node.addProperty prop).phandle =
      node.phandle.or (if prop.name = str "phandle" then some prop else none) := by
  cases node with
  | mk name props children =>
    rw [addProperty, phandle, phandle, properties, properties, List.find?_append]
    congr 1
    rw [List.find?_singleton]
    by_cases h : prop.name = str "phandle"
    · rw [if_pos h, if_pos (decide_eq_true h)]
    · rw [if_neg h, if_neg (by rwa [decide_eq_true_iff])]

/-! ## Handles of a tree -/

/-- Every node with the property has a number in it, and no two nodes have the same one. -/
structure Distinct (t : FdtNode) : Prop where
  numbered : ∀ path prop, t.phandleAt path = some prop → prop.numbers ≠ []
  unique : ∀ path path' x, t.numberAt path = some x → t.numberAt path' = some x → path = path'

/-- The property has a number that no node of the tree carries. -/
def Fresh (t : FdtNode) (prop : FdtProp) : Prop :=
  ∃ x, prop.numbers.head? = some x ∧ ∀ path, t.numberAt path ≠ some x

/-- The tree `t'` is `t` with a property that the node at `path` has got, if it had none. -/
def Brings (t t' : FdtNode) (path : List Nat) (r : Option FdtProp) : Prop :=
  ∀ path', t'.phandleAt path' =
    if path' = path then (t.phandleAt path).or r else t.phandleAt path'

theorem Brings.mono {t t' : FdtNode} {path path' : List Nat} {r : Option FdtProp} {prop : FdtProp}
    (h : Brings t t' path r) (hprop : t.phandleAt path' = some prop) :
    t'.phandleAt path' = some prop := by
  rw [h path']
  split
  next heq => rw [← heq, hprop, Option.some_or]
  next => exact hprop

theorem Brings.number_mono {t t' : FdtNode} {path path' : List Nat} {r : Option FdtProp}
    {x : UInt32} (h : Brings t t' path r) (hx : t.numberAt path' = some x) :
    t'.numberAt path' = some x := by
  obtain ⟨prop, hprop, hhead⟩ := Option.bind_eq_some_iff.mp hx
  rw [numberAt, h.mono hprop, Option.bind_some, hhead]

theorem Brings.eq {t t' : FdtNode} {path : List Nat} {r : Option FdtProp} (h : Brings t t' path r)
    (hr : t.phandleAt path ≠ none ∨ r = none) : t'.phandleAt = t.phandleAt := by
  funext path'
  rw [h path']
  split
  next heq =>
    rw [heq]
    rcases hr with hsome | rfl
    · cases hold : t.phandleAt path with
      | none => exact absurd hold hsome
      | some prop => rw [Option.some_or]
    · rw [Option.or_none]
  next => rfl

theorem distinct_congr {t t' : FdtNode} (h : t'.phandleAt = t.phandleAt) :
    t'.Distinct ↔ t.Distinct := by
  have hnumber : t'.numberAt = t.numberAt := by
    funext path
    rw [numberAt, numberAt, h]
  constructor
  · intro ht
    exact ⟨h ▸ ht.numbered, hnumber ▸ ht.unique⟩
  · intro ht
    exact ⟨h ▸ ht.numbered, hnumber ▸ ht.unique⟩

theorem phandleAt_new (name : Bytes) (path : List Nat) : (new name).phandleAt path = none := by
  cases path <;> rfl

theorem distinct_new (name : Bytes) : (new name).Distinct where
  numbered := by
    intro path prop hprop
    rw [phandleAt_new] at hprop
    cases hprop
  unique := by
    intro path path' x hx
    rw [numberAt, phandleAt_new] at hx
    cases hx

section Brings

variable {t t' : FdtNode} {path path' : List Nat} {prop : FdtProp}

theorem Brings.phandle_self (h : Brings t t' path (some prop)) (hold : t.phandleAt path = none) :
    t'.phandleAt path = some prop := by
  rw [h path, if_pos rfl, hold, Option.none_or]

theorem Brings.number_self (h : Brings t t' path (some prop)) (hold : t.phandleAt path = none) :
    t'.numberAt path = prop.numbers.head? := by
  rw [numberAt, h.phandle_self hold, Option.bind_some]

theorem Brings.phandle_other {r : Option FdtProp} (h : Brings t t' path r) (hne : path' ≠ path) :
    t'.phandleAt path' = t.phandleAt path' := by
  rw [h path', if_neg hne]

theorem Brings.number_other {r : Option FdtProp} (h : Brings t t' path r) (hne : path' ≠ path) :
    t'.numberAt path' = t.numberAt path' := by
  rw [numberAt, numberAt, h.phandle_other hne]

theorem Brings.fresh (h : Brings t t' path (some prop)) (hold : t.phandleAt path = none)
    (ht' : t'.Distinct) : t.Fresh prop := by
  cases hhead : prop.numbers.head? with
  | none =>
    have hnil := List.head?_eq_none_iff.mp hhead
    exact absurd hnil (ht'.numbered path prop (h.phandle_self hold))
  | some x =>
    refine ⟨x, hhead, fun path' hx => ?_⟩
    by_cases hne : path' = path
    · rw [hne, numberAt, hold, Option.bind_none] at hx
      cases hx
    · exact hne (ht'.unique path' path x ((h.number_other hne).trans hx)
        ((h.number_self hold).trans hhead))

theorem Brings.distinct (h : Brings t t' path (some prop)) (hold : t.phandleAt path = none)
    (ht : t.Distinct) (hfresh : t.Fresh prop) : t'.Distinct := by
  obtain ⟨x, hhead, hx⟩ := hfresh
  have hself : t'.numberAt path = some x := (h.number_self hold).trans hhead
  -- a node that has the handle is the one that has got it
  have hother : ∀ path', t'.numberAt path' = some x → path' = path := by
    intro path' hpath'
    by_contra hne
    exact hx path' ((h.number_other hne).symm.trans hpath')
  constructor
  · intro path' prop' hprop
    by_cases hne : path' = path
    · rw [hne, h.phandle_self hold] at hprop
      cases hprop
      intro hnil
      rw [hnil] at hhead
      cases hhead
    · exact ht.numbered path' prop' ((h.phandle_other hne).symm.trans hprop)
  · intro path₁ path₂ y h₁ h₂
    by_cases hne₁ : path₁ = path
    · rw [hne₁, hself] at h₁
      cases h₁
      rw [hne₁, hother path₂ h₂]
    · by_cases hne₂ : path₂ = path
      · rw [hne₂, hself] at h₂
        cases h₂
        rw [hne₂, hother path₁ h₁]
      · rw [h.number_other hne₁] at h₁
        rw [h.number_other hne₂] at h₂
        exact ht.unique path₁ path₂ y h₁ h₂

/-- A node that gets its handle keeps the handles apart exactly if nobody else has it. -/
theorem Brings.distinct_iff {r : Option FdtProp} (h : Brings t t' path r) (ht : t.Distinct) :
    t'.Distinct ↔ (t.phandleAt path = none → ∀ prop, r = some prop → t.Fresh prop) := by
  by_cases hold : t.phandleAt path = none
  · cases r with
    | none => exact iff_of_true ((distinct_congr (h.eq (.inr rfl))).mpr ht) fun _ _ => nofun
    | some prop =>
      constructor
      · intro ht' _ prop' hprop
        cases hprop
        exact h.fresh hold ht'
      · intro hfresh
        exact h.distinct hold ht (hfresh hold prop rfl)
  · exact iff_of_true ((distinct_congr (h.eq (.inl hold))).mpr ht) fun hnone => absurd hnone hold

end Brings

end FdtNode

/-! ## Calls -/

/-- The counter of `handle`, all trees, and the handles that the nodes have returned, the
last one first.  A node is the number of its tree and its path there. -/
structure Process where
  handles : UInt32
  trees : List FdtNode
  returned : List (Nat × List Nat × UInt32)

/-- What a program does with trees. -/
inductive Op where
  | newNode (name : Bytes)
  | decompile (root : FdtNode)
  | addChild (i : Nat) (path : List Nat) (name : Bytes)
  | addProperty (i : Nat) (path : List Nat) (prop : FdtProp)
  | handle (i : Nat) (path : List Nat)

namespace Process

def node? (p : Process) (i : Nat) (path : List Nat) : Option FdtNode :=
  p.trees[i]?.bind fun t => t.get? path

/-- The process with another node in the place of a node. -/
def put (p : Process) (i : Nat) (path : List Nat) (node : FdtNode) : Process :=
  { p with trees := p.trees.modify i fun t => t.modify (fun _ => node) path }

/-- The state after a call, if there is such a node and the call returns. -/
def step (p : Process) : Op → Option Process
  | .newNode name => some { p with trees := p.trees ++ [.new name] }
  | .decompile root => some { p with trees := p.trees ++ [root] }
  | .addChild i path name =>
    (p.node? i path).map fun node => p.put i path (node.addChild (.new name))
  | .addProperty i path prop =>
    (p.node? i path).map fun node => p.put i path (node.addProperty prop)
  | .handle i path =>
    (p.node? i path).bind fun node =>
      match node.handle p.handles with
      | .error _ => none
      | .ok (x, node', handles) =>
        some { p.put i path node' with
          handles := handles, returned := (i, path, x) :: p.returned }

/-- The property with a handle that a call may add to a node. -/
def incoming (p : Process) : Op → Option FdtProp
  | .addProperty _ _ prop => if prop.name = str "phandle" then some prop else none
  | .handle _ _ => some (.ofNumbers (str "phandle") [p.handles + 1])
  | _ => none

/-- The handles that come into a tree are not there yet: those of a blob among each other,
and the one of a node that has none against those of the other nodes. -/
def Allowed (p : Process) (op : Op) : Prop :=
  match op with
  | .newNode _ => True
  | .decompile root => root.Distinct
  | .addChild i path _ | .addProperty i path _ | .handle i path =>
    ∀ t, p.trees[i]? = some t → t.phandleAt path = none →
      ∀ prop, p.incoming op = some prop → t.Fresh prop

/-- No call of `handle` reads an empty vector, all calls on one node have returned the same,
and no calls on two nodes of one tree have. -/
structure Identified (p : Process) : Prop where
  indexed : ∀ i path node, p.node? i path = some node → ∃ r, node.handle p.handles = .ok r
  same : ∀ i path x x', (i, path, x) ∈ p.returned → (i, path, x') ∈ p.returned → x = x'
  distinct : ∀ i path path' x, (i, path, x) ∈ p.returned → (i, path', x) ∈ p.returned →
    path = path'

end Process

/-- All sequences of calls.  A blob may come from a buffer or from a file. -/
def system (host : Host) : System Process Op where
  init := fun p => p = { handles := 0, trees := [], returned := [] }
  step := fun p op p' =>
    (∀ root, op = .decompile root → ∃ b src, Returns host b src root) ∧ p.step op = some p'

/-! ## One call -/

namespace FdtNode

/-- A call of `handle` that returns, and what it leaves of the node. -/
theorem handle_ok {node node' : FdtNode} {handles handles' x : UInt32}
    (h : node.handle handles = .ok (x, node', handles')) :
    (∃ prop, node.phandle = some prop ∧ prop.numbers.head? = some x ∧ node' = node) ∨
      (node.phandle = none ∧ x = handles + 1 ∧
        node' = node.addProperty (.ofNumbers (str "phandle") [handles + 1])) := by
  unfold handle at h
  cases hprop : node.phandle with
  | none =>
    rw [hprop] at h
    cases h
    exact .inr ⟨rfl, rfl, rfl⟩
  | some prop =>
    rw [hprop] at h
    cases hnumbers : prop.numbers with
    | nil =>
      simp only [hnumbers] at h
      cases h
    | cons y ys =>
      simp only [hnumbers] at h
      cases h
      exact .inl ⟨prop, rfl, by rw [hnumbers, List.head?_cons], rfl⟩

/-- It returns what the node carries then. -/
theorem handle_ok_brings {node node' : FdtNode} {handles handles' x : UInt32}
    (h : node.handle handles = .ok (x, node', handles')) :
    (∀ i rest, node'.phandleAt (i :: rest) = node.phandleAt (i :: rest)) ∧
      node'.phandle = node.phandle.or (some (.ofNumbers (str "phandle") [handles + 1])) ∧
      (node'.phandle.bind fun prop => prop.numbers.head?) = some x := by
  rcases handle_ok h with ⟨prop, hprop, hx, rfl⟩ | ⟨hnone, rfl, rfl⟩
  · rw [hprop, Option.some_or, Option.bind_some]
    exact ⟨fun _ _ => rfl, rfl, hx⟩
  · have hname : (FdtProp.ofNumbers (str "phandle") [handles + 1]).name = str "phandle" := rfl
    rw [phandle_addProperty, hnone, Option.none_or, if_pos hname, Option.none_or]
    exact ⟨phandleAt_addProperty node _, rfl, rfl⟩

/-- A call returns unless the property of the node has no number. -/
theorem handle_isOk {node : FdtNode} (h : ∀ prop, node.phandle = some prop → prop.numbers ≠ [])
    (handles : UInt32) : ∃ r, node.handle handles = .ok r := by
  unfold handle
  cases hprop : node.phandle with
  | none => exact ⟨_, rfl⟩
  | some prop =>
    cases hnumbers : prop.numbers with
    | nil => exact absurd hnumbers (h prop hprop)
    | cons x xs => exact ⟨_, by simp only [hnumbers]; rfl⟩

end FdtNode

namespace Process

variable {p p' : Process} {op : Op}

/-- A tree comes in, with no call on another one. -/
def Adds (p p' : Process) (op : Op) : Prop :=
  ∃ root, p'.trees = p.trees ++ [root] ∧ p'.returned = p.returned ∧ (p.Allowed op ↔ root.Distinct)

/-- A node of a tree may get a handle, and may return the one that it has then. -/
def Changes (p p' : Process) (op : Op) : Prop :=
  ∃ i path t t', p.trees[i]? = some t ∧ p'.trees = p.trees.set i t' ∧
    t.Brings t' path (p.incoming op) ∧
    (p.Allowed op ↔
      (t.phandleAt path = none → ∀ prop, p.incoming op = some prop → t.Fresh prop)) ∧
    (p'.returned = p.returned ∨
      ∃ x, p'.returned = (i, path, x) :: p.returned ∧ t'.numberAt path = some x)

theorem put_brings {i : Nat} {path : List Nat} {node node' : FdtNode} {r : Option FdtProp}
    (hnode : p.node? i path = some node)
    (hbelow : ∀ j rest, node'.phandleAt (j :: rest) = node.phandleAt (j :: rest))
    (hr : node'.phandle = node.phandle.or r) :
    ∃ t t', p.trees[i]? = some t ∧ (p.put i path node').trees = p.trees.set i t' ∧
      t.Brings t' path r ∧ t'.phandleAt path = node'.phandle := by
  obtain ⟨t, ht, hget⟩ := Option.bind_eq_some_iff.mp hnode
  have hmodify := FdtNode.phandleAt_modify (f := fun _ => node') hget hbelow
  refine ⟨t, t.modify (fun _ => node') path, ht, ?_, fun path' => ?_, ?_⟩
  · rw [put, List.modify_eq_set_getElem?, ht]
    rfl
  · have hold : t.phandleAt path = node.phandle := by
      rw [FdtNode.phandleAt, hget, Option.bind_some]
    rw [hmodify path', hr, hold]
  · rw [hmodify path, if_pos rfl]

theorem allowed_iff_of_tree {i : Nat} {t : FdtNode} {P : FdtNode → Prop}
    (ht : p.trees[i]? = some t) :
    (∀ t', p.trees[i]? = some t' → P t') ↔ P t := by
  constructor
  · intro h
    exact h t ht
  · intro h t' ht'
    cases ht.symm.trans ht'
    exact h

theorem step_cases (h : p.step op = some p') : p.Adds p' op ∨ p.Changes p' op := by
  cases op with
  | newNode name =>
    cases h
    exact .inl ⟨.new name, rfl, rfl, iff_of_true trivial (FdtNode.distinct_new name)⟩
  | decompile root =>
    cases h
    exact .inl ⟨root, rfl, rfl, Iff.rfl⟩
  | addChild i path name =>
    obtain ⟨node, hnode, rfl⟩ := Option.map_eq_some_iff.mp h
    obtain ⟨t, t', ht, htrees, hbrings, -⟩ := put_brings (r := none) hnode
      (FdtNode.phandleAt_addChild node name) (by cases node; rw [Option.or_none]; rfl)
    exact .inr ⟨i, path, t, t', ht, htrees, hbrings, allowed_iff_of_tree ht, .inl rfl⟩
  | addProperty i path prop =>
    obtain ⟨node, hnode, rfl⟩ := Option.map_eq_some_iff.mp h
    obtain ⟨t, t', ht, htrees, hbrings, -⟩ := put_brings hnode
      (FdtNode.phandleAt_addProperty node prop) (FdtNode.phandle_addProperty node prop)
    exact .inr ⟨i, path, t, t', ht, htrees, hbrings, allowed_iff_of_tree ht, .inl rfl⟩
  | handle i path =>
    obtain ⟨node, hnode, h⟩ := Option.bind_eq_some_iff.mp h
    cases hhandle : node.handle p.handles with
    | error e =>
      rw [hhandle] at h
      cases h
    | ok r =>
      obtain ⟨x, node', handles⟩ := r
      rw [hhandle] at h
      cases h
      obtain ⟨hbelow, hphandle, hx⟩ := FdtNode.handle_ok_brings hhandle
      obtain ⟨t, t', ht, htrees, hbrings, hnew⟩ := put_brings hnode hbelow hphandle
      exact .inr ⟨i, path, t, t', ht, htrees, hbrings, allowed_iff_of_tree ht,
        .inr ⟨x, rfl, by rw [FdtNode.numberAt, hnew, hx]⟩⟩

/-! ## All calls -/

/-- The handles of every tree are apart, and every handle that was returned is carried by
its node. -/
structure Inv (p : Process) : Prop where
  distinct : ∀ t ∈ p.trees, t.Distinct
  carried : ∀ i path x, (i, path, x) ∈ p.returned →
    ∃ t, p.trees[i]? = some t ∧ t.numberAt path = some x

/-- The handles of all trees stay apart exactly if the call is an allowed one. -/
theorem allowed_iff (hinv : p.Inv) (h : p.step op = some p') :
    p.Allowed op ↔ ∀ t ∈ p'.trees, t.Distinct := by
  rcases step_cases h with ⟨root, htrees, -, hallowed⟩ |
    ⟨i, path, t, t', ht, htrees, hbrings, hallowed, -⟩
  · rw [hallowed, htrees]
    constructor
    · intro hroot t ht
      rcases List.mem_append.mp ht with hold | hnew
      · exact hinv.distinct t hold
      · rw [List.mem_singleton.mp hnew]
        exact hroot
    · exact fun hall => hall root (List.mem_append_right _ (List.mem_singleton_self root))
  · rw [hallowed, ← hbrings.distinct_iff (hinv.distinct t (List.mem_of_getElem? ht)), htrees]
    constructor
    · intro hnew t'' ht''
      rcases List.mem_or_eq_of_mem_set ht'' with hold | rfl
      · exact hinv.distinct t'' hold
      · exact hnew
    · exact fun hall => hall t' (List.mem_set (List.getElem?_eq_some_iff.mp ht).1 t')

theorem Inv.step (hinv : p.Inv) (hallowed : p.Allowed op) (h : p.step op = some p') : p'.Inv := by
  refine ⟨(allowed_iff hinv h).mp hallowed, fun j q y hy => ?_⟩
  rcases step_cases h with ⟨root, htrees, hreturned, -⟩ |
    ⟨i, path, t, t', ht, htrees, hbrings, -, hreturned⟩
  · rw [hreturned] at hy
    obtain ⟨u, hu, hnumber⟩ := hinv.carried j q y hy
    rw [htrees, List.getElem?_append_left (List.getElem?_eq_some_iff.mp hu).1]
    exact ⟨u, hu, hnumber⟩
  · have hlt := (List.getElem?_eq_some_iff.mp ht).1
    have hold : (j, q, y) ∈ p.returned → ∃ u, p'.trees[j]? = some u ∧ u.numberAt q = some y := by
      intro hmem
      obtain ⟨u, hu, hnumber⟩ := hinv.carried j q y hmem
      by_cases hij : i = j
      · subst hij
        cases ht.symm.trans hu
        rw [htrees, List.getElem?_set_self hlt]
        exact ⟨t', rfl, hbrings.number_mono hnumber⟩
      · rw [htrees, List.getElem?_set_ne hij]
        exact ⟨u, hu, hnumber⟩
    rcases hreturned with hsame | ⟨x, hcons, hx⟩
    · exact hold (hsame ▸ hy)
    · rw [hcons, List.mem_cons] at hy
      rcases hy with hnew | hmem
      · cases hnew
        rw [htrees, List.getElem?_set_self hlt]
        exact ⟨t', rfl, hx⟩
      · exact hold hmem

theorem Inv.identified (hinv : p.Inv) : p.Identified where
  indexed := by
    intro i path node hnode
    obtain ⟨t, ht, hget⟩ := Option.bind_eq_some_iff.mp hnode
    refine FdtNode.handle_isOk (fun prop hprop => ?_) p.handles
    refine (hinv.distinct t (List.mem_of_getElem? ht)).numbered path prop ?_
    rw [FdtNode.phandleAt, hget, Option.bind_some, hprop]
  same := by
    intro i path x x' hx hx'
    obtain ⟨t, ht, hnumber⟩ := hinv.carried i path x hx
    obtain ⟨t', ht', hnumber'⟩ := hinv.carried i path x' hx'
    cases ht.symm.trans ht'
    exact Option.some_inj.mp (hnumber.symm.trans hnumber')
  distinct := by
    intro i path path' x hx hx'
    obtain ⟨t, ht, hnumber⟩ := hinv.carried i path x hx
    obtain ⟨t', ht', hnumber'⟩ := hinv.carried i path' x hx'
    cases ht.symm.trans ht'
    exact (hinv.distinct t (List.mem_of_getElem? ht)).unique path path' x hnumber hnumber'

/-! ## Calls that are not allowed -/

theorem node?_of_number {i : Nat} {path : List Nat} {t : FdtNode} {x : UInt32}
    (ht : p.trees[i]? = some t) (hx : t.numberAt path = some x) :
    ∃ node prop, p.node? i path = some node ∧ node.phandle = some prop ∧
      prop.numbers.head? = some x := by
  obtain ⟨prop, hprop, hhead⟩ := Option.bind_eq_some_iff.mp hx
  obtain ⟨node, hget, hphandle⟩ := Option.bind_eq_some_iff.mp hprop
  exact ⟨node, prop, by rw [node?, ht, Option.bind_some, hget], hphandle, hhead⟩

end Process

theorem FdtNode.modify_self {t node : FdtNode} {path : List Nat} (h : t.get? path = some node) :
    t.modify (fun _ => node) path = t := by
  induction path generalizing t with
  | nil =>
    cases h
    rfl
  | cons i path ih =>
    cases t with
    | mk name props children =>
      obtain ⟨child, hchild, hget⟩ := Option.bind_eq_some_iff.mp h
      obtain ⟨hlt, rfl⟩ := List.getElem?_eq_some_iff.mp hchild
      rw [modify, List.modify_eq_set_getElem?, hchild]
      show mk name props (children.set i _) = _
      rw [ih hget, List.set_getElem_self]

namespace Process

variable {p p' : Process} {op : Op}

theorem put_self {i : Nat} {path : List Nat} {node : FdtNode} (h : p.node? i path = some node) :
    p.put i path node = p := by
  obtain ⟨t, ht, hget⟩ := Option.bind_eq_some_iff.mp h
  obtain ⟨hlt, rfl⟩ := List.getElem?_eq_some_iff.mp ht
  rw [put, List.modify_eq_set_getElem?, ht]
  show ({ p with trees := p.trees.set i _ } : Process) = p
  rw [FdtNode.modify_self hget, List.set_getElem_self]

/-- A node that carries a handle returns it, and nothing else happens. -/
theorem step_handle {i : Nat} {path : List Nat} {t : FdtNode} {x : UInt32}
    (ht : p.trees[i]? = some t) (hx : t.numberAt path = some x) :
    p.step (.handle i path) = some { p with returned := (i, path, x) :: p.returned } := by
  obtain ⟨node, prop, hnode, hprop, hhead⟩ := node?_of_number ht hx
  have hhandle : node.handle p.handles = .ok (x, node, p.handles) := by
    rw [FdtNode.handle, hprop]
    cases hnumbers : prop.numbers with
    | nil =>
      rw [hnumbers] at hhead
      cases hhead
    | cons y ys =>
      rw [hnumbers] at hhead
      cases hhead
      simp only [hnumbers]
      rfl
  rw [step, hnode, Option.bind_some, hhandle]
  simp only [put_self hnode]

/-- Where the handles of a tree are not apart, some calls of `handle` show it. -/
theorem exists_clash {i : Nat} {t : FdtNode} (ht : p.trees[i]? = some t) (h : ¬ t.Distinct) :
    ∃ (paths : List (List Nat)) (q : Process),
      System.run step p (paths.map (.handle i)) = some q ∧ ¬ q.Identified := by
  by_cases hnumbered : ∀ path prop, t.phandleAt path = some prop → prop.numbers ≠ []
  · have hunique : ¬ ∀ path path' x, t.numberAt path = some x → t.numberAt path' = some x →
        path = path' := fun hunique => h ⟨hnumbered, hunique⟩
    push Not at hunique
    obtain ⟨path, path', x, hx, hx', hne⟩ := hunique
    refine ⟨[path, path'],
      { p with returned := (i, path', x) :: (i, path, x) :: p.returned }, ?_, fun hid => ?_⟩
    · simp only [List.map_cons, List.map_nil, System.run, step_handle ht hx, Option.bind_some]
      rw [step_handle (p := { p with returned := (i, path, x) :: p.returned }) ht hx']
      rfl
    · exact hne (hid.distinct i path path' x (List.mem_cons_of_mem _ List.mem_cons_self)
        List.mem_cons_self)
  · push Not at hnumbered
    obtain ⟨path, prop, hprop, hnil⟩ := hnumbered
    obtain ⟨node, hget, hphandle⟩ := Option.bind_eq_some_iff.mp hprop
    refine ⟨[], p, rfl, fun hid => ?_⟩
    obtain ⟨r, hr⟩ := hid.indexed i path node (by rw [node?, ht, Option.bind_some, hget])
    rw [FdtNode.handle, hphandle] at hr
    simp only [hnil] at hr
    cases hr

end Process

theorem inv_of_reachable {host : Host} {p : Process}
    (h : ((system host).restrict Process.Allowed).Reachable p) : p.Inv := by
  refine h.invariant (I := Process.Inv) (fun s hs => ?_) fun s op s' _ hs hstep => ?_
  · rw [hs]
    exact ⟨fun _ ht => absurd ht List.not_mem_nil, fun _ _ _ hx => absurd hx List.not_mem_nil⟩
  · exact hs.step hstep.1 hstep.2.2

/-- In every run of allowed calls `handle` identifies the nodes.  A call that is not allowed
ends that: after some further calls of `handle` it does so no more. -/
theorem reachable_identified {host : Host} {p : Process}
    (h : ((system host).restrict Process.Allowed).Reachable p) :
    p.Identified ∧ ∀ op p', p.step op = some p' → ¬ p.Allowed op →
      ∃ (i : Nat) (paths : List (List Nat)) (q : Process),
        System.run Process.step p' (paths.map (.handle i)) = some q ∧ ¬ q.Identified := by
  have hinv := inv_of_reachable h
  refine ⟨hinv.identified, fun op p' hstep hnot => ?_⟩
  rw [Process.allowed_iff hinv hstep] at hnot
  push Not at hnot
  obtain ⟨t, ht, hclash⟩ := hnot
  obtain ⟨i, hi⟩ := List.getElem?_of_mem ht
  exact ⟨i, Process.exists_clash hi hclash⟩

/-- No node of the tree carries a number that neither the root nor a tree below it has. -/
theorem FdtNode.numberAt_ne {name : Bytes} {props : List FdtProp} {children : List FdtNode}
    {x : UInt32} (hroot : (mk name props children).numberAt [] ≠ some x)
    (hchildren : ∀ child ∈ children, ∀ path, child.numberAt path ≠ some x) (path : List Nat) :
    (mk name props children).numberAt path ≠ some x := by
  cases path with
  | nil => exact hroot
  | cons i rest =>
    intro hx
    rw [numberAt, phandleAt_mk_cons] at hx
    cases hchild : children[i]? with
    | none =>
      rw [hchild] at hx
      cases hx
    | some child =>
      rw [hchild] at hx
      exact hchildren child (List.mem_of_getElem? hchild) rest hx

/-- The child is given a number, and the root draws one. -/
theorem reachable_identified_given :
    ∃ p : Process, p.returned = [(0, [0], 7), (0, [], 1)] ∧ p.Identified ∧
      ∀ op p', p.step op = some p' → ¬ p.Allowed op →
        ∃ (i : Nat) (paths : List (List Nat)) (q : Process),
          System.run Process.step p' (paths.map (.handle i)) = some q ∧ ¬ q.Identified := by
  have hroot : ((system .littleEndian).restrict Process.Allowed).Reachable
      { handles := 0, trees := [.new (str "/")], returned := [] } :=
    .step (e := .newNode (str "/")) (.init rfl) ⟨trivial, nofun, rfl⟩
  have hchild := hroot.step (e := Op.addChild 0 [] (str "cpu"))
    ⟨fun _ _ _ _ => nofun, nofun, rfl⟩
  have hgiven := hchild.step (e := Op.addProperty 0 [0] (.ofNumbers (str "phandle") [7]))
    ⟨fun t ht _ prop hprop => ?_, nofun, rfl⟩
  · have hdrawn := hgiven.step (e := Op.handle 0 [])
      ⟨fun t ht _ prop hprop => ?_, nofun, rfl⟩
    · have hsecond := hdrawn.step (e := Op.handle 0 [0])
        ⟨fun t ht hnone => ?_, nofun, rfl⟩
      · exact ⟨_, rfl, reachable_identified hsecond⟩
      · cases ht
        cases hnone
    · cases ht
      cases hprop
      refine ⟨1, rfl, FdtNode.numberAt_ne nofun fun child hchild => ?_⟩
      cases List.mem_singleton.mp hchild
      exact FdtNode.numberAt_ne (by decide) fun _ => nofun
  · cases ht
    cases hprop
    refine ⟨7, rfl, FdtNode.numberAt_ne nofun fun child hchild => ?_⟩
    cases List.mem_singleton.mp hchild
    exact FdtNode.numberAt_ne nofun fun _ => nofun

/-- The child has the number that the counter gives to the root. -/
theorem handle_clash :
    ¬ ∀ p, (system .littleEndian).Reachable p → p.Identified := by
  intro h
  have hroot : (system .littleEndian).Reachable
      { handles := 0, trees := [.new (str "/")], returned := [] } :=
    .step (e := .newNode (str "/")) (.init rfl) ⟨nofun, rfl⟩
  have hchild := hroot.step (e := .addChild 0 [] (str "cpu")) ⟨nofun, rfl⟩
  have hprop := hchild.step
    (e := .addProperty 0 [0] (.ofNumbers (str "phandle") [1])) ⟨nofun, rfl⟩
  have hfirst := hprop.step (e := .handle 0 []) ⟨nofun, rfl⟩
  have hsecond := hfirst.step (e := .handle 0 [0]) ⟨nofun, rfl⟩
  have hne := (h _ hsecond).distinct 0 [] [0] 1 (List.mem_cons_of_mem _ List.mem_cons_self)
    List.mem_cons_self
  cases hne

end Mwr.Fdt
