import Mathlib.Data.Tree.Basic
import Mathlib.Data.List.Sort
import Mathlib.Data.List.Nodup
import Mathlib.Tactic.SplitIfs

/-!
# Height-balanced binary trees

The pure mathematics of an AVL tree, over the `BinaryTree` of Mathlib.  The
labels are of any type, and nothing here reads a cached height, so the facts
hold for every implementation that computes the same shapes.

There are four groups.

* The order of the labels.  `inorder` is the label sequence of a tree, and the
  rotations and `rebalance` keep it.
* The balance.  `Balanced` bounds the height difference at every node.
  `rebalance` repairs a difference of at most two, and `rebalance_spec` says how
  far the height moves.
* Insertion.  `insert` goes down by a decidable relation and rebalances on the
  way back.  Its label sequence is `List.orderedInsert`.
* Removal.  A `Path` is a tree with a hole.  `ascend` rebalances from the hole
  to the root, and `removeAt` deletes the label at the hole the way a linked
  implementation does: a node with two children is replaced by its
  predecessor, and the rebalancing starts where the predecessor was.
-/

namespace Mwr.CodeLib.AvlTree

open BinaryTree

variable {α : Type*}

/-! ## The order of the labels -/

/-- The labels from left to right. -/
def inorder : BinaryTree α → List α
  | .nil => []
  | .node a l r => inorder l ++ a :: inorder r

@[simp] theorem inorder_nil : inorder (.nil : BinaryTree α) = [] := rfl

@[simp] theorem inorder_node (a : α) (l r : BinaryTree α) :
    inorder (.node a l r) = inorder l ++ a :: inorder r := rfl

@[simp] theorem length_inorder (t : BinaryTree α) : (inorder t).length = t.numNodes := by
  induction t with
  | nil => rfl
  | node a l r ihl ihr =>
    simp only [inorder_node, List.length_append, List.length_cons, ihl, ihr, numNodes]
    omega

/-- No label occurs twice in a tree exactly when none does in the subtrees, and
the root and the two subtrees have none in common. -/
theorem nodup_inorder_node {a : α} {l r : BinaryTree α} :
    (inorder (.node a l r)).Nodup ↔
      a ∉ inorder l ∧ a ∉ inorder r ∧ (inorder l).Nodup ∧ (inorder r).Nodup ∧
        ∀ b ∈ inorder l, b ∉ inorder r := by
  rw [inorder_node, List.perm_middle.nodup_iff, List.nodup_cons, List.nodup_append,
    List.mem_append]
  constructor
  · rintro ⟨ha, hl, hr, hlr⟩
    exact ⟨fun h => ha (.inl h), fun h => ha (.inr h), hl, hr,
      fun b hb hbr => hlr b hb b hbr rfl⟩
  · rintro ⟨hal, har, hl, hr, hlr⟩
    exact ⟨fun h => h.elim hal har, hl, hr, fun b hb c hc hbc => hlr b hb (hbc ▸ hc)⟩

/-! ## Rotations -/

/-- The right child becomes the root. -/
def rotateLeft : BinaryTree α → BinaryTree α
  | .node a l (.node b m r) => .node b (.node a l m) r
  | t => t

/-- The left child becomes the root. -/
def rotateRight : BinaryTree α → BinaryTree α
  | .node a (.node b l m) r => .node b l (.node a m r)
  | t => t

/-- Restore the balance at the root by one single or one double rotation. -/
def rebalance : BinaryTree α → BinaryTree α
  | .nil => .nil
  | .node a l r =>
    if r.height + 1 < l.height then
      if l.left.height < l.right.height then rotateRight (.node a (rotateLeft l) r)
      else rotateRight (.node a l r)
    else if l.height + 1 < r.height then
      if r.right.height < r.left.height then rotateLeft (.node a l (rotateRight r))
      else rotateLeft (.node a l r)
    else .node a l r

@[simp] theorem inorder_rotateLeft (t : BinaryTree α) : inorder (rotateLeft t) = inorder t := by
  unfold rotateLeft
  split <;> simp

@[simp] theorem inorder_rotateRight (t : BinaryTree α) : inorder (rotateRight t) = inorder t := by
  unfold rotateRight
  split <;> simp

/-- Rebalancing moves no label past another one. -/
@[simp] theorem inorder_rebalance (t : BinaryTree α) : inorder (rebalance t) = inorder t := by
  cases t with
  | nil => rfl
  | node a l r =>
    rw [rebalance]
    split_ifs <;> simp

/-! ## The balance -/

/-- At every node the heights of the two subtrees differ by at most one. -/
def Balanced : BinaryTree α → Prop
  | .nil => True
  | .node _ l r => Balanced l ∧ Balanced r ∧ l.height ≤ r.height + 1 ∧ r.height ≤ l.height + 1

@[simp] theorem balanced_nil : Balanced (.nil : BinaryTree α) := trivial

@[simp] theorem balanced_node {a : α} {l r : BinaryTree α} :
    Balanced (.node a l r) ↔
      Balanced l ∧ Balanced r ∧ l.height ≤ r.height + 1 ∧ r.height ≤ l.height + 1 := Iff.rfl

/-- What one call of `rebalance` does to a node whose subtrees are balanced
and differ by at most two: the result is balanced, it is no higher than the
node was, and it is lower only if the difference was two. -/
theorem rebalance_spec {a : α} {l r : BinaryTree α} (hl : Balanced l) (hr : Balanced r)
    (hlr : l.height ≤ r.height + 2) (hrl : r.height ≤ l.height + 2) :
    Balanced (rebalance (.node a l r)) ∧
      (rebalance (.node a l r)).height ≤ max l.height r.height + 1 ∧
      max l.height r.height ≤ (rebalance (.node a l r)).height ∧
      (l.height ≤ r.height + 1 → r.height ≤ l.height + 1 →
        (rebalance (.node a l r)).height = max l.height r.height + 1) := by
  rw [rebalance]
  split_ifs with h1 h2 h3 h4
  · -- the left subtree is too high and leans to the right: double rotation
    cases l with
    | nil => simp at h1
    | node b ll lr =>
      cases lr with
      | nil => simp at h2
      | node c lrl lrr =>
        simp only [balanced_node, height, left, right] at *
        simp only [rotateLeft, rotateRight, balanced_node, height]
        obtain ⟨hll, ⟨hlrl, hlrr, _, _⟩, _, _⟩ := hl
        refine ⟨⟨⟨hll, hlrl, ?_, ?_⟩, ⟨hlrr, hr, ?_, ?_⟩, ?_, ?_⟩, ?_, ?_, ?_⟩ <;> omega
  · -- the left subtree is too high and does not lean to the right
    cases l with
    | nil => simp at h1
    | node b ll lr =>
      simp only [balanced_node, height, left, right] at *
      simp only [rotateRight, balanced_node, height]
      obtain ⟨hll, hlr', _, _⟩ := hl
      refine ⟨⟨hll, ⟨hlr', hr, ?_, ?_⟩, ?_, ?_⟩, ?_, ?_, ?_⟩ <;> omega
  · -- the right subtree is too high and leans to the left: double rotation
    cases r with
    | nil => simp at h3
    | node b rl rr =>
      cases rl with
      | nil => simp at h4
      | node c rll rlr =>
        simp only [balanced_node, height, left, right] at *
        simp only [rotateLeft, rotateRight, balanced_node, height]
        obtain ⟨⟨hrll, hrlr, _, _⟩, hrr, _, _⟩ := hr
        refine ⟨⟨⟨hl, hrll, ?_, ?_⟩, ⟨hrlr, hrr, ?_, ?_⟩, ?_, ?_⟩, ?_, ?_, ?_⟩ <;> omega
  · -- the right subtree is too high and does not lean to the left
    cases r with
    | nil => simp at h3
    | node b rl rr =>
      simp only [balanced_node, height, left, right] at *
      simp only [rotateLeft, balanced_node, height]
      obtain ⟨hrl', hrr, _, _⟩ := hr
      refine ⟨⟨⟨hl, hrl', ?_, ?_⟩, hrr, ?_, ?_⟩, ?_, ?_, ?_⟩ <;> omega
  · simp only [balanced_node, height]
    exact ⟨⟨hl, hr, by omega, by omega⟩, by omega, by omega, fun _ _ => trivial⟩

/-! ## Insertion -/

section Insert

variable (le : α → α → Prop) [DecidableRel le]

/-- Insert `x` to the left of every label it precedes, and rebalance every
node on the way back. -/
def insert (x : α) : BinaryTree α → BinaryTree α
  | .nil => .node x .nil .nil
  | .node a l r =>
    if le x a then rebalance (.node a (insert x l) r) else rebalance (.node a l (insert x r))

/-- An insertion depends on the relation only, not on how it is decided. -/
theorem insert_congr {le le' : α → α → Prop} [DecidableRel le] [DecidableRel le']
    (h : ∀ a b, le a b ↔ le' a b) (x : α) (t : BinaryTree α) :
    insert le x t = insert le' x t := by
  induction t with
  | nil => rfl
  | node a l r ihl ihr => simp only [insert, ihl, ihr, h]

/-- An ordered insertion into a list whose middle element is above `x` goes
to the left part. -/
theorem orderedInsert_append_of_le {x a : α} {as bs : List α} (h : le x a) :
    (as ++ a :: bs).orderedInsert le x = as.orderedInsert le x ++ a :: bs := by
  induction as with
  | nil => simp [h]
  | cons b as ih =>
    by_cases hb : le x b
    · simp [hb]
    · simp [hb, ih]

/-- An ordered insertion into a list whose first part is below `x` goes to
the rest. -/
theorem orderedInsert_append_of_not_le {x : α} {as bs : List α} (h : ∀ a ∈ as, ¬ le x a) :
    (as ++ bs).orderedInsert le x = as ++ bs.orderedInsert le x := by
  induction as with
  | nil => rfl
  | cons b as ih =>
    have hb : ¬ le x b := h b List.mem_cons_self
    simp [hb, ih (fun a ha => h a (List.mem_cons_of_mem b ha))]

/-- An insertion adds `x` to the labels, also when they are not sorted. -/
theorem inorder_insert_perm (x : α) : ∀ t : BinaryTree α,
    (inorder (insert le x t)).Perm (x :: inorder t)
  | .nil => List.Perm.refl _
  | .node a l r => by
    rw [insert]
    split_ifs
    · rw [inorder_rebalance, inorder_node, inorder_node, ← List.cons_append]
      exact (inorder_insert_perm x l).append_right _
    · rw [inorder_rebalance, inorder_node, inorder_node]
      refine (((inorder_insert_perm x r).cons a).append_left _).trans ?_
      exact ((List.Perm.swap x a _).append_left _).trans List.perm_middle

theorem mem_inorder_insert {x b : α} {t : BinaryTree α} :
    b ∈ inorder (insert le x t) ↔ b = x ∨ b ∈ inorder t := by
  rw [(inorder_insert_perm le x t).mem_iff, List.mem_cons]

/-- The labels after an insertion are the labels with `x` put before the
first one it precedes. -/
theorem inorder_insert (htrans : ∀ {a b c}, le a b → le b c → le a c) (x : α) :
    ∀ {t : BinaryTree α}, (inorder t).Pairwise le →
      inorder (insert le x t) = (inorder t).orderedInsert le x
  | .nil, _ => rfl
  | .node a l r, hsorted => by
    rw [inorder_node, List.pairwise_append] at hsorted
    obtain ⟨hl, hr, hcross⟩ := hsorted
    rw [insert]
    split_ifs with h
    · rw [inorder_rebalance, inorder_node, inorder_node, inorder_insert htrans x hl,
        orderedInsert_append_of_le le h]
    · have hbelow : ∀ b ∈ inorder l ++ [a], ¬ le x b := by
        intro b hb hxb
        rcases List.mem_append.1 hb with hb | hb
        · exact h (htrans hxb (hcross b hb a List.mem_cons_self))
        · exact h (List.mem_singleton.1 hb ▸ hxb)
      have hassoc : inorder l ++ a :: inorder r = (inorder l ++ [a]) ++ inorder r := by simp
      rw [inorder_rebalance, inorder_node, inorder_node,
        inorder_insert htrans x (List.pairwise_cons.1 hr).2, hassoc,
        orderedInsert_append_of_not_le le hbelow]
      simp

/-- An insertion keeps the balance and raises the height by at most one. -/
theorem balanced_insert (x : α) : ∀ {t : BinaryTree α}, Balanced t →
    Balanced (insert le x t) ∧ t.height ≤ (insert le x t).height ∧
      (insert le x t).height ≤ t.height + 1
  | .nil, _ => by simp [insert]
  | .node a l r, hbal => by
    obtain ⟨hl, hr, hlr, hrl⟩ := balanced_node.1 hbal
    rw [insert]
    split_ifs
    · obtain ⟨hl', hge, hle⟩ := balanced_insert x hl
      obtain ⟨hb, h1, h2, h3⟩ := rebalance_spec (a := a) hl' hr (by omega) (by omega)
      refine ⟨hb, ?_, ?_⟩ <;> rw [height] <;> omega
    · obtain ⟨hr', hge, hle⟩ := balanced_insert x hr
      obtain ⟨hb, h1, h2, h3⟩ := rebalance_spec (a := a) hl hr' (by omega) (by omega)
      refine ⟨hb, ?_, ?_⟩ <;> rw [height] <;> omega

end Insert

/-! ## Trees with a hole -/

/-- A tree with one hole, innermost frame first.  `left a r up` says that the
hole is the left subtree of `a`. -/
inductive Path (α : Type*) where
  | top
  | left (a : α) (r : BinaryTree α) (up : Path α)
  | right (a : α) (l : BinaryTree α) (up : Path α)

namespace Path

/-- Fill the hole. -/
def plug : Path α → BinaryTree α → BinaryTree α
  | .top, t => t
  | .left a r up, t => up.plug (.node a t r)
  | .right a l up, t => up.plug (.node a l t)

/-- Put the first path into the hole of the second one. -/
def append : Path α → Path α → Path α
  | .top, q => q
  | .left a r up, q => .left a r (up.append q)
  | .right a l up, q => .right a l (up.append q)

/-- A filled path is empty only when the filling and the path are. -/
theorem exists_plug_eq_node {p : Path α} {t : BinaryTree α} (h : p ≠ .top ∨ t ≠ .nil) :
    ∃ b l r, p.plug t = .node b l r := by
  induction p generalizing t with
  | top =>
    cases t with
    | nil => simp at h
    | node b l r => exact ⟨b, l, r, rfl⟩
  | left a r up ih => exact ih (.inr (by simp))
  | right a l up ih => exact ih (.inr (by simp))

/-- The labels to the left of the hole. -/
def before : Path α → List α
  | .top => []
  | .left _ _ up => up.before
  | .right a l up => up.before ++ (inorder l ++ [a])

/-- The labels to the right of the hole. -/
def after : Path α → List α
  | .top => []
  | .left a r up => a :: inorder r ++ up.after
  | .right _ _ up => up.after

/-- The labels of the path. -/
def labels (p : Path α) : List α := p.before ++ p.after

/-- The number of labels above the hole. -/
def depth : Path α → Nat
  | .top => 0
  | .left _ _ up => up.depth + 1
  | .right _ _ up => up.depth + 1

theorem depth_le_length_labels (p : Path α) : p.depth ≤ p.labels.length := by
  induction p with
  | top => exact Nat.zero_le _
  | left a r up ih =>
    simp only [labels, before, after, depth, List.length_append, List.length_cons] at ih ⊢
    omega
  | right a l up ih =>
    simp only [labels, before, after, depth, List.length_append, List.length_cons,
      List.length_nil] at ih ⊢
    omega

@[simp] theorem plug_append (p q : Path α) (t : BinaryTree α) :
    (p.append q).plug t = q.plug (p.plug t) := by
  induction p generalizing t with
  | top => rfl
  | left a r up ih => exact ih _
  | right a l up ih => exact ih _

/-- The labels of a filled path are those before the hole, those of the
filling, and those after the hole. -/
theorem inorder_plug (p : Path α) (t : BinaryTree α) :
    inorder (p.plug t) = p.before ++ inorder t ++ p.after := by
  induction p generalizing t with
  | top => simp [plug, before, after]
  | left a r up ih => simp [plug, before, after, ih]
  | right a l up ih => simp [plug, before, after, ih]

theorem inorder_plug_rebalance (p : Path α) (t : BinaryTree α) :
    inorder (p.plug (rebalance t)) = inorder (p.plug t) := by
  rw [inorder_plug, inorder_plug, inorder_rebalance]

/-- Every label of a tree is at the hole of a path. -/
theorem exists_plug_of_mem {a : α} {t : BinaryTree α} (h : a ∈ inorder t) :
    ∃ (p : Path α) (l r : BinaryTree α), t = p.plug (.node a l r) := by
  induction t with
  | nil => simp at h
  | node b l r ihl ihr =>
    rw [inorder_node, List.mem_append, List.mem_cons] at h
    rcases h with h | rfl | h
    · obtain ⟨p, l', r', rfl⟩ := ihl h
      exact ⟨p.append (.left b r .top), l', r', by simp [plug]⟩
    · exact ⟨.top, l, r, rfl⟩
    · obtain ⟨p, l', r', rfl⟩ := ihr h
      exact ⟨p.append (.right b l .top), l', r', by simp [plug]⟩

/-- The heights along the path leave room for a balanced filling of height
`h`. -/
def Fits : Path α → Nat → Prop
  | .top, _ => True
  | .left _ r up, h =>
    Balanced r ∧ h ≤ r.height + 1 ∧ r.height ≤ h + 1 ∧ up.Fits (max h r.height + 1)
  | .right _ l up, h =>
    Balanced l ∧ l.height ≤ h + 1 ∧ h ≤ l.height + 1 ∧ up.Fits (max l.height h + 1)

/-- A filled path is balanced when the filling is and its height fits. -/
theorem balanced_plug {p : Path α} {t : BinaryTree α} :
    Balanced (p.plug t) ↔ Balanced t ∧ p.Fits t.height := by
  induction p generalizing t with
  | top => simp [plug, Fits]
  | left a r up ih =>
    rw [plug, ih, balanced_node, Fits, height]
    tauto
  | right a l up ih =>
    rw [plug, ih, balanced_node, Fits, height]
    tauto

/-- `Fits` reads no label, so a frame inside a path may be relabelled. -/
theorem fits_append_left_congr {p up : Path α} {a b : α} {r : BinaryTree α} {h : Nat} :
    (p.append (.left a r up)).Fits h ↔ (p.append (.left b r up)).Fits h := by
  induction p generalizing h with
  | top => exact Iff.rfl
  | left c s up' ih => simp only [append, Fits, ih]
  | right c s up' ih => simp only [append, Fits, ih]

end Path

/-- Fill the hole and rebalance every frame from the hole to the root. -/
def ascend : Path α → BinaryTree α → BinaryTree α
  | .top, t => t
  | .left a r up, t => ascend up (rebalance (.node a t r))
  | .right a l up, t => ascend up (rebalance (.node a l t))

@[simp] theorem inorder_ascend (p : Path α) (t : BinaryTree α) :
    inorder (ascend p t) = inorder (p.plug t) := by
  induction p generalizing t with
  | top => rfl
  | left a r up ih => simp [ascend, Path.plug, ih, Path.inorder_plug]
  | right a l up ih => simp [ascend, Path.plug, ih, Path.inorder_plug]

/-- A filling that is one level lower than the path expects is repaired on
the way to the root. -/
theorem balanced_ascend {p : Path α} {t : BinaryTree α} {h : Nat} (hp : p.Fits h)
    (ht : Balanced t) (hle : t.height ≤ h) (hge : h ≤ t.height + 1) :
    Balanced (ascend p t) := by
  induction p generalizing t h with
  | top => exact ht
  | left a r up ih =>
    obtain ⟨hr, hhr, hrh, hup⟩ := hp
    obtain ⟨hb, h1, h2, h3⟩ := rebalance_spec (a := a) ht hr (by omega) (by omega)
    exact ih hup hb (by omega) (by omega)
  | right a l up ih =>
    obtain ⟨hl, hlh, hhl, hup⟩ := hp
    obtain ⟨hb, h1, h2, h3⟩ := rebalance_spec (a := a) hl ht (by omega) (by omega)
    exact ih hup hb (by omega) (by omega)

/-! ## Removal -/

/-- Walk from the subtree at the hole of `p` to its last label.  The result is
the path to that label, the label, and its left subtree. -/
def rightmost (p : Path α) (a : α) (l : BinaryTree α) : BinaryTree α → Path α × α × BinaryTree α
  | .nil => (p, a, l)
  | .node b m r => rightmost (.right a l p) b m r

/-- Delete the label at the hole of `p`.  With two subtrees the predecessor
takes its place, and the rebalancing starts at the place of the predecessor. -/
def removeAt (p : Path α) : BinaryTree α → BinaryTree α
  | .nil => p.plug .nil
  | .node _ .nil r => ascend p r
  | .node _ (.node b ll lr) .nil => ascend p (.node b ll lr)
  | .node _ (.node b ll lr) (.node c rl rr) =>
    let (spine, prev, pl) := rightmost .top b ll lr
    ascend (spine.append (.left prev (.node c rl rr) p)) pl

/-- The walk to the last label stays inside the tree it started in. -/
theorem plug_rightmost (p : Path α) (a : α) (l r : BinaryTree α) :
    (rightmost p a l r).1.plug (.node (rightmost p a l r).2.1 (rightmost p a l r).2.2 .nil) =
      p.plug (.node a l r) := by
  induction r generalizing p a l with
  | nil => rfl
  | node b m r _ ih => rw [rightmost, ih]; rfl

/-- The last label is the starting one only when nothing is to its right. -/
theorem rightmost_label_mem (p : Path α) (a : α) (l r : BinaryTree α) :
    (rightmost p a l r).2.1 ∈ a :: inorder r := by
  induction r generalizing p a l with
  | nil => exact List.mem_cons_self
  | node b m r _ ih =>
    rw [rightmost, inorder_node]
    exact List.mem_cons_of_mem a (List.mem_append_right _ (ih _ b m))

/-- The last label has nothing to its right. -/
theorem after_rightmost (p : Path α) (a : α) (l r : BinaryTree α) :
    (rightmost p a l r).1.after = p.after := by
  induction r generalizing p a l with
  | nil => rfl
  | node b m r _ ih => rw [rightmost, ih]; rfl

theorem getLast?_inorder (p : Path α) (a : α) (l r : BinaryTree α) :
    (inorder (.node a l r)).getLast? = some (rightmost p a l r).2.1 := by
  induction r generalizing p a l with
  | nil => simp [rightmost]
  | node b m r _ ih =>
    rw [rightmost, ← ih, inorder_node, List.getLast?_append_of_ne_nil _ (List.cons_ne_nil _ _),
      List.getLast?_cons_of_ne_nil (by simp)]

/-- The removal deletes the label at the hole and keeps the order of the
others. -/
theorem inorder_removeAt (p : Path α) (a : α) (l r : BinaryTree α) :
    inorder (removeAt p (.node a l r)) = p.before ++ inorder l ++ inorder r ++ p.after := by
  cases l with
  | nil => simp [removeAt, Path.inorder_plug]
  | node b ll lr =>
    cases r with
    | nil => simp [removeAt, Path.inorder_plug]
    | node c rl rr =>
      have hplug := plug_rightmost .top b ll lr
      have hafter := after_rightmost .top b ll lr
      rw [removeAt]
      generalize rightmost .top b ll lr = walk at hplug hafter ⊢
      obtain ⟨spine, prev, pl⟩ := walk
      have hl : spine.before ++ (inorder pl ++ [prev]) = inorder (.node b ll lr) := by
        have h := congrArg inorder hplug
        rw [Path.inorder_plug, hafter] at h
        simpa [Path.after, Path.plug] using h
      rw [← hl]
      simp only [Path.after] at hafter
      simp [Path.inorder_plug, Path.before, Path.after, hafter]

/-- The removal erases the label from a tree in which it occurs once. -/
theorem inorder_removeAt_erase [DecidableEq α] {p : Path α} {a : α} {l r : BinaryTree α}
    (h : (inorder (p.plug (.node a l r))).Nodup) :
    inorder (removeAt p (.node a l r)) = (inorder (p.plug (.node a l r))).erase a := by
  have hsplit : inorder (p.plug (.node a l r)) =
      (p.before ++ inorder l) ++ a :: (inorder r ++ p.after) := by
    simp [Path.inorder_plug]
  rw [hsplit] at h ⊢
  have ha : a ∉ p.before ++ inorder l := by
    intro ha
    exact (List.nodup_append.1 h).2.2 a ha a List.mem_cons_self rfl
  rw [inorder_removeAt, List.erase_append_right _ ha, List.erase_cons_head]
  simp

/-- The removal keeps the balance. -/
theorem balanced_removeAt {p : Path α} {a : α} {l r : BinaryTree α}
    (h : Balanced (p.plug (.node a l r))) : Balanced (removeAt p (.node a l r)) := by
  obtain ⟨⟨hl, hr, hlr, hrl⟩, hfits⟩ := Path.balanced_plug.1 h
  rw [height] at hfits
  cases l with
  | nil => exact balanced_ascend hfits hr (by simp) (by simp)
  | node b ll lr =>
    cases r with
    | nil => exact balanced_ascend hfits hl (by simp) (by simp)
    | node c rl rr =>
      have hplug := plug_rightmost .top b ll lr
      rw [removeAt]
      generalize rightmost .top b ll lr = walk at hplug ⊢
      obtain ⟨spine, prev, pl⟩ := walk
      have hbal : Balanced ((spine.append (.left a (.node c rl rr) p)).plug
          (.node prev pl .nil)) := by
        rw [Path.plug_append, hplug]
        exact h
      obtain ⟨⟨hpl, _, _, _⟩, hspine⟩ := Path.balanced_plug.1 hbal
      exact balanced_ascend (Path.fits_append_left_congr.1 hspine) hpl
        (by simp) (by simp)

end Mwr.CodeLib.AvlTree
