import Mathlib.Logic.Function.Basic
import Mwr.CodeLib.AvlTree

/-!
# Binary trees with parent pointers in a heap

A node of a linked tree holds three pointers.  A `Linked` state is the heap of
these pointers and the pointer to the root, and `Rep g t` says that the state
holds exactly the tree `t` of addresses, with every parent pointer in place.

`AvlTree.Path` describes a place in such a tree: `slotOf` is the field that
points to the subtree at the hole, and `holder` is the node with that field.
`rep_plug` splits a represented tree at a path, and every other result is
stated on the whole tree with a path to the place where something happens.

* `rep_transplant` hangs another subtree into a slot.
* `rep_rotateLeft` and `rep_rotateRight` are the two rotations.
* `rep_replace` puts a new node into the place of the node at the hole.
-/

namespace Mwr.CodeLib.LinkedTree

open BinaryTree AvlTree

/-- The pointers of a node. -/
structure Link (κ : Type*) where
  parent : Option κ
  left : Option κ
  right : Option κ

/-- A place that holds a pointer. -/
inductive Slot (κ : Type*) where
  | root
  | left (a : κ)
  | right (a : κ)

/-- A heap of nodes and the pointer to the root. -/
structure Linked (κ : Type*) where
  root : Option κ
  link : κ → Option (Link κ)

variable {κ : Type*}

/-- The node that a slot is part of. -/
def Slot.holder : Slot κ → Option κ
  | .root => none
  | .left a => some a
  | .right a => some a

/-- The slot that the path ends in. -/
def slotOf : Path κ → Slot κ
  | .top => .root
  | .left a _ _ => .left a
  | .right a _ _ => .right a

/-- The node with the slot that the path ends in. -/
def holder (c : Path κ) : Option κ := (slotOf c).holder

theorem holder_append {c : Path κ} (h : c ≠ .top) (d : Path κ) :
    holder (c.append d) = holder c := by
  cases c with
  | top => exact absurd rfl h
  | left a r up => rfl
  | right a l up => rfl

/-- The label at the root of a tree. -/
def rootLabel : BinaryTree κ → Option κ
  | .nil => none
  | .node a _ _ => some a

/-- Read a slot. -/
def Linked.slot (g : Linked κ) : Slot κ → Option κ
  | .root => g.root
  | .left a => (g.link a).bind Link.left
  | .right a => (g.link a).bind Link.right

/-! ## The representation predicate -/

/-- `p` points to the tree `t`, whose root has the parent `par`. -/
def Links (g : Linked κ) (par p : Option κ) : BinaryTree κ → Prop
  | .nil => p = none
  | .node a l r => p = some a ∧ ∃ k, g.link a = some k ∧ k.parent = par ∧
      Links g (some a) k.left l ∧ Links g (some a) k.right r

/-- The state holds the tree `t`. -/
def Rep (g : Linked κ) (t : BinaryTree κ) : Prop := Links g none g.root t

/-- The nodes of the path and the subtrees beside it are in place. -/
def PathLinks (g : Linked κ) : Path κ → Prop
  | .top => True
  | .left a r up => g.slot (slotOf up) = some a ∧
      (∃ k, g.link a = some k ∧ k.parent = holder up ∧ Links g (some a) k.right r) ∧
      PathLinks g up
  | .right a l up => g.slot (slotOf up) = some a ∧
      (∃ k, g.link a = some k ∧ k.parent = holder up ∧ Links g (some a) k.left l) ∧
      PathLinks g up

/-- A represented tree splits at every path into the path and the subtree at
its hole. -/
theorem rep_plug {g : Linked κ} {c : Path κ} {t : BinaryTree κ} :
    Rep g (c.plug t) ↔
      PathLinks g c ∧ Links g (holder c) (g.slot (slotOf c)) t := by
  induction c generalizing t with
  | top => simp [Rep, PathLinks, holder, Slot.holder, slotOf, Linked.slot, Path.plug]
  | left a r up ih =>
    rw [Path.plug, ih, PathLinks, Links]
    simp only [holder, Slot.holder, slotOf, Linked.slot]
    constructor
    · rintro ⟨hup, hslot, k, hk, hpar, hl, hr⟩
      exact ⟨⟨hslot, ⟨k, hk, hpar, hr⟩, hup⟩, by rw [hk]; exact hl⟩
    · rintro ⟨⟨hslot, ⟨k, hk, hpar, hr⟩, hup⟩, hl⟩
      rw [hk] at hl
      exact ⟨hup, hslot, k, hk, hpar, hl, hr⟩
  | right a l up ih =>
    rw [Path.plug, ih, PathLinks, Links]
    simp only [holder, Slot.holder, slotOf, Linked.slot]
    constructor
    · rintro ⟨hup, hslot, k, hk, hpar, hl, hr⟩
      exact ⟨⟨hslot, ⟨k, hk, hpar, hl⟩, hup⟩, by rw [hk]; exact hr⟩
    · rintro ⟨⟨hslot, ⟨k, hk, hpar, hl⟩, hup⟩, hr⟩
      rw [hk] at hr
      exact ⟨hup, hslot, k, hk, hpar, hl, hr⟩

/-- The pointer to a tree is the label at its root. -/
theorem Links.eq_rootLabel {g : Linked κ} {par p : Option κ} {t : BinaryTree κ}
    (h : Links g par p t) : p = rootLabel t := by
  cases t with
  | nil => exact h
  | node a l r => exact h.1

theorem Links.rootLabel_mem {g : Linked κ} {par p : Option κ} {t : BinaryTree κ} {a : κ}
    (h : Links g par p t) (hp : p = some a) : a ∈ inorder t := by
  cases t with
  | nil => cases h.symm.trans hp
  | node b l r =>
    cases h.1.symm.trans hp
    simp

/-- Every label of a represented tree is a node of the heap. -/
theorem Links.exists_link {g : Linked κ} {par p : Option κ} {t : BinaryTree κ}
    (h : Links g par p t) {a : κ} (ha : a ∈ inorder t) : ∃ k, g.link a = some k := by
  induction t generalizing par p with
  | nil => simp at ha
  | node b l r ihl ihr =>
    obtain ⟨_, k, hk, _, hl, hr⟩ := h
    rw [inorder_node, List.mem_append, List.mem_cons] at ha
    rcases ha with ha | rfl | ha
    · exact ihl hl ha
    · exact ⟨k, hk⟩
    · exact ihr hr ha

/-- A tree stays in place when its nodes keep their pointers. -/
theorem Links.frame {g g' : Linked κ} {par p : Option κ} {t : BinaryTree κ}
    (h : Links g par p t) (heq : ∀ a ∈ inorder t, g'.link a = g.link a) :
    Links g' par p t := by
  induction t generalizing par p with
  | nil => exact h
  | node b l r ihl ihr =>
    obtain ⟨hp, k, hk, hpar, hl, hr⟩ := h
    refine ⟨hp, k, ?_, hpar, ihl hl fun a ha => heq a ?_, ihr hr fun a ha => heq a ?_⟩
    · rw [heq b (by simp)]
      exact hk
    · simp [ha]
    · simp [ha]

/-! ## The labels of a path -/

theorem mem_labels_left {a b : κ} {r : BinaryTree κ} {up : Path κ} :
    b ∈ (Path.left a r up).labels ↔ b = a ∨ b ∈ inorder r ∨ b ∈ up.labels := by
  simp only [Path.labels, Path.before, Path.after, List.mem_append, List.mem_cons]
  tauto

theorem mem_labels_right {a b : κ} {l : BinaryTree κ} {up : Path κ} :
    b ∈ (Path.right a l up).labels ↔ b = a ∨ b ∈ inorder l ∨ b ∈ up.labels := by
  simp only [Path.labels, Path.before, Path.after, List.mem_append, List.mem_cons,
    List.not_mem_nil]
  tauto

theorem mem_labels_of_holder {c : Path κ} {a : κ} (h : holder c = some a) : a ∈ c.labels := by
  cases c with
  | top => cases h
  | left b r up =>
    cases h
    exact mem_labels_left.2 (.inl rfl)
  | right b l up =>
    cases h
    exact mem_labels_right.2 (.inl rfl)

/-- The labels of a filled path are those of the filling and of the path. -/
theorem mem_inorder_plug {c : Path κ} {t : BinaryTree κ} {a : κ} :
    a ∈ inorder (c.plug t) ↔ a ∈ inorder t ∨ a ∈ c.labels := by
  rw [Path.inorder_plug, Path.labels]
  simp only [List.mem_append]
  tauto

/-- No label occurs twice in a filled path exactly when none does in the
filling and in the path, and the two have none in common. -/
theorem nodup_plug {c : Path κ} {t : BinaryTree κ} :
    (inorder (c.plug t)).Nodup ↔
      (inorder t).Nodup ∧ c.labels.Nodup ∧ ∀ a ∈ inorder t, a ∉ c.labels := by
  have hperm : (inorder (c.plug t)).Perm (inorder t ++ c.labels) := by
    rw [Path.inorder_plug, Path.labels, ← List.append_assoc]
    exact List.perm_append_comm.append_right _
  rw [hperm.nodup_iff, List.nodup_append]
  constructor
  · rintro ⟨h1, h2, h3⟩
    exact ⟨h1, h2, fun a ha hc => h3 a ha a hc rfl⟩
  · rintro ⟨h1, h2, h3⟩
    exact ⟨h1, h2, fun a ha b hb hab => h3 a ha (hab ▸ hb)⟩

/-- The filling may be replaced by one with fewer labels. -/
theorem nodup_plug_of_subset {c : Path κ} {t u : BinaryTree κ}
    (h : (inorder (c.plug t)).Nodup) (hu : (inorder u).Nodup)
    (hsub : ∀ a ∈ inorder u, a ∈ inorder t) : (inorder (c.plug u)).Nodup := by
  obtain ⟨_, hc, hdisj⟩ := nodup_plug.1 h
  exact nodup_plug.2 ⟨hu, hc, fun a ha => hdisj a (hsub a ha)⟩

/-- The filling may be replaced by one with a fresh label. -/
theorem nodup_plug_of_perm_cons {c : Path κ} {t u : BinaryTree κ} {a : κ}
    (h : (inorder (c.plug t)).Nodup) (ha : a ∉ inorder (c.plug t))
    (hu : (inorder u).Perm (a :: inorder t)) : (inorder (c.plug u)).Nodup := by
  obtain ⟨ht, hc, hdisj⟩ := nodup_plug.1 h
  rw [mem_inorder_plug, not_or] at ha
  refine nodup_plug.2 ⟨?_, hc, fun b hb => ?_⟩
  · rw [hu.nodup_iff, List.nodup_cons]
    exact ⟨ha.1, ht⟩
  · rcases List.mem_cons.1 (hu.mem_iff.1 hb) with rfl | hb
    · exact ha.2
    · exact hdisj b hb

/-- The last label `p` of the left subtree may take the place of the label `a`
above it. -/
theorem nodup_hoist {c : Path κ} (spine : Path κ) {a p : κ} {l r : BinaryTree κ}
    (h : (inorder (c.plug (.node a (spine.plug (.node p l .nil)) r))).Nodup) :
    a ∉ c.labels ∧ a ≠ p ∧ (inorder (c.plug (.node p (spine.plug l) r))).Nodup ∧
      ∀ b ∈ inorder (c.plug (.node p (spine.plug l) r)),
        b ∈ inorder (c.plug (.node a (spine.plug (.node p l .nil)) r)) := by
  obtain ⟨htn, _, hdisj⟩ := nodup_plug.1 h
  obtain ⟨hal, har, hln, hrn, hlr⟩ := nodup_inorder_node.1 htn
  obtain ⟨hpn, _, hspine⟩ := nodup_plug.1 hln
  obtain ⟨hpl, _, hl, _, _⟩ := nodup_inorder_node.1 hpn
  have hp : p ∈ inorder (spine.plug (.node p l .nil)) := mem_inorder_plug.2 (.inl (by simp))
  have hsub : ∀ b ∈ inorder (spine.plug l), b ∈ inorder (spine.plug (.node p l .nil)) :=
    fun b hb => mem_inorder_plug.2 ((mem_inorder_plug.1 hb).imp_left fun h => by simp [h])
  have hpspine : p ∉ inorder (spine.plug l) := by
    rw [mem_inorder_plug]
    exact fun h => h.elim hpl (hspine p (by simp))
  have hmem : ∀ b ∈ inorder (.node p (spine.plug l) r),
      b ∈ inorder (.node a (spine.plug (.node p l .nil)) r) := by
    intro b hb
    rw [inorder_node, List.mem_append, List.mem_cons] at hb
    rcases hb with hb | rfl | hb
    · exact List.mem_append_left _ (hsub b hb)
    · exact List.mem_append_left _ hp
    · exact List.mem_append_right _ (List.mem_cons_of_mem a hb)
  refine ⟨hdisj a (by simp), fun hap => hal (hap ▸ hp), ?_, fun b hb => ?_⟩
  · refine nodup_plug_of_subset h (nodup_inorder_node.2 ⟨hpspine, hlr p hp, ?_, hrn, ?_⟩) hmem
    · exact nodup_plug_of_subset hln hl fun b hb => by simp [hb]
    · exact fun b hb => hlr b (hsub b hb)
  · exact mem_inorder_plug.2 ((mem_inorder_plug.1 hb).imp_left (hmem b))

theorem nodup_labels_left {a : κ} {r : BinaryTree κ} {up : Path κ}
    (h : (Path.left a r up).labels.Nodup) :
    a ∉ inorder r ∧ a ∉ up.labels ∧ up.labels.Nodup := by
  have hperm : (Path.left a r up).labels.Perm (a :: (inorder r ++ up.labels)) := by
    simp only [Path.labels, Path.before, Path.after, List.cons_append]
    refine List.perm_middle.trans (List.Perm.cons a ?_)
    rw [← List.append_assoc, ← List.append_assoc]
    exact List.perm_append_comm.append_right _
  rw [hperm.nodup_iff, List.nodup_cons, List.nodup_append, List.mem_append] at h
  exact ⟨fun hr => h.1 (.inl hr), fun hu => h.1 (.inr hu), h.2.2.1⟩

theorem nodup_labels_right {a : κ} {l : BinaryTree κ} {up : Path κ}
    (h : (Path.right a l up).labels.Nodup) :
    a ∉ inorder l ∧ a ∉ up.labels ∧ up.labels.Nodup := by
  have hperm : (Path.right a l up).labels.Perm (a :: (inorder l ++ up.labels)) := by
    simp only [Path.labels, Path.before, Path.after, List.append_assoc]
    rw [← List.append_assoc, List.singleton_append]
    refine List.perm_middle.trans (List.Perm.cons a ?_)
    rw [← List.append_assoc]
    exact List.perm_append_comm.append_right _
  rw [hperm.nodup_iff, List.nodup_cons, List.nodup_append, List.mem_append] at h
  exact ⟨fun hr => h.1 (.inl hr), fun hu => h.1 (.inr hu), h.2.2.1⟩

/-- A slot keeps its pointer when its holder does. -/
theorem slot_congr {g g' : Linked κ} {c : Path κ} (hroot : g'.root = g.root)
    (heq : ∀ a ∈ c.labels, g'.link a = g.link a) :
    g'.slot (slotOf c) = g.slot (slotOf c) := by
  cases c with
  | top => exact hroot
  | left a r up => simp [slotOf, Linked.slot, heq a (mem_labels_of_holder rfl)]
  | right a l up => simp [slotOf, Linked.slot, heq a (mem_labels_of_holder rfl)]

/-- A path stays in place when its nodes keep their pointers. -/
theorem PathLinks.frame {g g' : Linked κ} {c : Path κ} (h : PathLinks g c)
    (hroot : g'.root = g.root) (heq : ∀ a ∈ c.labels, g'.link a = g.link a) :
    PathLinks g' c := by
  induction c with
  | top => trivial
  | left a r up ih =>
    obtain ⟨hslot, ⟨k, hk, hpar, hr⟩, hup⟩ := h
    have hup' : ∀ b ∈ up.labels, g'.link b = g.link b :=
      fun b hb => heq b (mem_labels_left.2 (.inr (.inr hb)))
    refine ⟨?_, ⟨k, ?_, hpar, hr.frame fun b hb => ?_⟩, ih hup hup'⟩
    · rw [slot_congr hroot hup', hslot]
    · rw [heq a (mem_labels_left.2 (.inl rfl)), hk]
    · exact heq b (mem_labels_left.2 (.inr (.inl hb)))
  | right a l up ih =>
    obtain ⟨hslot, ⟨k, hk, hpar, hl⟩, hup⟩ := h
    have hup' : ∀ b ∈ up.labels, g'.link b = g.link b :=
      fun b hb => heq b (mem_labels_right.2 (.inr (.inr hb)))
    refine ⟨?_, ⟨k, ?_, hpar, hl.frame fun b hb => ?_⟩, ih hup hup'⟩
    · rw [slot_congr hroot hup', hslot]
    · rw [heq a (mem_labels_right.2 (.inl rfl)), hk]
    · exact heq b (mem_labels_right.2 (.inr (.inl hb)))

/-! ## Writes -/

variable [DecidableEq κ]

namespace Linked

/-- Change one node. -/
def upd (g : Linked κ) (a : κ) (f : Link κ → Link κ) : Linked κ :=
  { g with link := Function.update g.link a ((g.link a).map f) }

/-- Write a slot. -/
def setSlot (g : Linked κ) (p : Option κ) : Slot κ → Linked κ
  | .root => { g with root := p }
  | .left a => g.upd a fun k => { k with left := p }
  | .right a => g.upd a fun k => { k with right := p }

/-- Write the parent field of a node that may be absent. -/
def setParent (g : Linked κ) (par : Option κ) : Option κ → Linked κ
  | none => g
  | some a => g.upd a fun k => { k with parent := par }

/-- Let the slot point to `p`, and `p` back to `par`. -/
def transplant (g : Linked κ) (sl : Slot κ) (p par : Option κ) : Linked κ :=
  (g.setSlot p sl).setParent par p

@[simp] theorem root_upd (g : Linked κ) (a : κ) (f : Link κ → Link κ) :
    (g.upd a f).root = g.root := rfl

@[simp] theorem link_upd_self (g : Linked κ) (a : κ) (f : Link κ → Link κ) :
    (g.upd a f).link a = (g.link a).map f := by
  simp [upd]

@[simp] theorem link_upd_of_ne (g : Linked κ) {a b : κ} (h : b ≠ a) (f : Link κ → Link κ) :
    (g.upd a f).link b = g.link b := by
  simp [upd, h]

theorem setSlot_left (g : Linked κ) (p : Option κ) (a : κ) :
    g.setSlot p (.left a) = g.upd a fun k => { k with left := p } := rfl

theorem setSlot_right (g : Linked κ) (p : Option κ) (a : κ) :
    g.setSlot p (.right a) = g.upd a fun k => { k with right := p } := rfl

theorem setParent_some (g : Linked κ) (par : Option κ) (a : κ) :
    g.setParent par (some a) = g.upd a fun k => { k with parent := par } := rfl

@[simp] theorem root_setParent (g : Linked κ) (par p : Option κ) :
    (g.setParent par p).root = g.root := by
  cases p <;> rfl

theorem link_setParent_of_ne (g : Linked κ) {par p : Option κ} {b : κ} (h : some b ≠ p) :
    (g.setParent par p).link b = g.link b := by
  cases p with
  | none => rfl
  | some a => exact g.link_upd_of_ne (fun hb => h (by rw [hb])) _

/-- A slot write touches the holder of the slot only. -/
theorem link_setSlot_of_ne (g : Linked κ) {sl : Slot κ} {p : Option κ} {b : κ}
    (h : some b ≠ sl.holder) : (g.setSlot p sl).link b = g.link b := by
  cases sl with
  | root => rfl
  | left a => exact g.link_upd_of_ne (fun hb => h (by rw [hb]; rfl)) _
  | right a => exact g.link_upd_of_ne (fun hb => h (by rw [hb]; rfl)) _

/-- A transplant touches the holder of the slot and the transplanted node
only. -/
theorem link_transplant_of_ne (g : Linked κ) {sl : Slot κ} {p par : Option κ} {b : κ}
    (hsl : some b ≠ sl.holder) (hp : some b ≠ p) :
    (g.transplant sl p par).link b = g.link b := by
  rw [transplant, link_setParent_of_ne _ hp, link_setSlot_of_ne _ hsl]

end Linked

/-- A write to the slot of a path leaves the path in place. -/
theorem PathLinks.setSlot {g : Linked κ} {c : Path κ} (h : PathLinks g c)
    (hnodup : c.labels.Nodup) (p : Option κ) : PathLinks (g.setSlot p (slotOf c)) c := by
  cases c with
  | top => trivial
  | left a r up =>
    obtain ⟨hslot, ⟨k, hk, hpar, hr⟩, hup⟩ := h
    obtain ⟨har, hau, _⟩ := nodup_labels_left hnodup
    have hframe : ∀ b ∈ up.labels, (g.setSlot p (.left a)).link b = g.link b :=
      fun b hb => g.link_upd_of_ne (ne_of_mem_of_not_mem hb hau) _
    refine ⟨?_, ⟨{ k with left := p }, ?_, hpar, hr.frame fun b hb => ?_⟩, hup.frame rfl hframe⟩
    · rw [← hslot]
      exact slot_congr rfl hframe
    · simp [slotOf, Linked.setSlot, hk]
    · exact g.link_upd_of_ne (ne_of_mem_of_not_mem hb har) _
  | right a l up =>
    obtain ⟨hslot, ⟨k, hk, hpar, hl⟩, hup⟩ := h
    obtain ⟨hal, hau, _⟩ := nodup_labels_right hnodup
    have hframe : ∀ b ∈ up.labels, (g.setSlot p (.right a)).link b = g.link b :=
      fun b hb => g.link_upd_of_ne (ne_of_mem_of_not_mem hb hau) _
    refine ⟨?_, ⟨{ k with right := p }, ?_, hpar, hl.frame fun b hb => ?_⟩, hup.frame rfl hframe⟩
    · rw [← hslot]
      exact slot_congr rfl hframe
    · simp [slotOf, Linked.setSlot, hk]
    · exact g.link_upd_of_ne (ne_of_mem_of_not_mem hb hal) _

/-- A slot of a path holds what was written to it. -/
theorem PathLinks.slot_setSlot {g : Linked κ} {c : Path κ} (h : PathLinks g c)
    (p : Option κ) : (g.setSlot p (slotOf c)).slot (slotOf c) = p := by
  cases c with
  | top => rfl
  | left a r up =>
    obtain ⟨_, ⟨k, hk, _, _⟩, _⟩ := h
    simp [slotOf, Linked.setSlot, Linked.slot, hk]
  | right a l up =>
    obtain ⟨_, ⟨k, hk, _, _⟩, _⟩ := h
    simp [slotOf, Linked.setSlot, Linked.slot, hk]

/-- The root of a tree may get a new parent. -/
theorem Links.reparent {g : Linked κ} {par par' p : Option κ} {t : BinaryTree κ}
    (h : Links g par p t) (hnodup : (inorder t).Nodup) :
    Links (g.setParent par' p) par' p t := by
  cases t with
  | nil => exact h
  | node a l r =>
    obtain ⟨rfl, k, hk, _, hl, hr⟩ := h
    obtain ⟨hal, har, _, _, _⟩ := nodup_inorder_node.1 hnodup
    refine ⟨rfl, { k with parent := par' }, ?_, rfl, hl.frame fun b hb => ?_,
      hr.frame fun b hb => ?_⟩
    · simp [Linked.setParent, hk]
    · exact g.link_upd_of_ne (ne_of_mem_of_not_mem hb hal) _
    · exact g.link_upd_of_ne (ne_of_mem_of_not_mem hb har) _

/-! ## Relinking -/

/-- The general way to show that a state holds a tree after something was
relinked at a path: the slot and the nodes of the path are as a write to the
slot leaves them, and the new subtree is in place. -/
theorem rep_plug_of_setSlot {g g' : Linked κ} {c : Path κ} {p : Option κ} {t : BinaryTree κ}
    (hc : PathLinks g c) (hnodup : c.labels.Nodup)
    (hroot : g'.root = (g.setSlot p (slotOf c)).root)
    (heq : ∀ a ∈ c.labels, g'.link a = (g.setSlot p (slotOf c)).link a)
    (ht : Links g' (holder c) p t) : Rep g' (c.plug t) := by
  refine rep_plug.2 ⟨(hc.setSlot hnodup p).frame hroot heq, ?_⟩
  rw [slot_congr hroot heq, hc.slot_setSlot]
  exact ht

/-- Hang the subtree `t` into the slot at the end of a path. -/
theorem rep_transplant {g : Linked κ} {c : Path κ} {par p : Option κ} {t : BinaryTree κ}
    (hc : PathLinks g c) (ht : Links g par p t) (hnodup : (inorder (c.plug t)).Nodup) :
    Rep (g.transplant (slotOf c) p (holder c)) (c.plug t) := by
  obtain ⟨htn, hcn, hdisj⟩ := nodup_plug.1 hnodup
  have hp : ∀ a ∈ c.labels, some a ≠ p := by
    rintro a ha rfl
    cases t with
    | nil => cases ht
    | node b l r => cases ht.1; exact hdisj a (by simp) ha
  refine rep_plug_of_setSlot hc hcn (p := p) ?_ ?_ ?_
  · exact Linked.root_setParent _ _ _
  · exact fun a ha => Linked.link_setParent_of_ne _ (hp a ha)
  · refine Links.reparent (ht.frame fun a ha => ?_) htn
    refine g.link_setSlot_of_ne fun h => hdisj a ha ?_
    exact mem_labels_of_holder h.symm

/-- The three pointer moves of a left rotation of `x` with its right child
`y`, whose left subtree is at `m`. -/
def Linked.rotateLeft (g : Linked κ) (sl : Slot κ) (x y : κ) (m par : Option κ) : Linked κ :=
  ((g.transplant sl (some y) par).transplant (.left y) (some x) (some y)).transplant
    (.right x) m (some x)

/-- The three pointer moves of a right rotation of `x` with its left child
`y`, whose right subtree is at `m`. -/
def Linked.rotateRight (g : Linked κ) (sl : Slot κ) (x y : κ) (m par : Option κ) : Linked κ :=
  ((g.transplant sl (some y) par).transplant (.right y) (some x) (some y)).transplant
    (.left x) m (some x)

/-- The pointer moves of a left rotation rotate the tree that the state
holds. -/
theorem rep_rotateLeft {g : Linked κ} {c : Path κ} {x y : κ} {l m r : BinaryTree κ}
    (h : Rep g (c.plug (.node x l (.node y m r))))
    (hnodup : (inorder (c.plug (.node x l (.node y m r)))).Nodup) :
    Rep (g.rotateLeft (slotOf c) x y (rootLabel m) (holder c))
      (c.plug (.node y (.node x l m) r)) := by
  obtain ⟨hc, hslot, k, hk, hkpar, hl, hky, k', hk', hkpar', hm, hr⟩ := rep_plug.1 h
  obtain ⟨htn, hcn, hdisj⟩ := nodup_plug.1 hnodup
  obtain ⟨hxl, hxyr, hln, hyn, hlyr⟩ := nodup_inorder_node.1 htn
  obtain ⟨hym, hyr, hmn, hrn, hmr⟩ := nodup_inorder_node.1 hyn
  simp only [inorder_node, List.mem_append, List.mem_cons, not_or] at hxyr hlyr hdisj
  obtain ⟨hxm, hxy, hxr⟩ := hxyr
  rw [← hm.eq_rootLabel]
  have hnm : ∀ q ∉ inorder m, some q ≠ k'.left :=
    fun q hq h => hq (hm.rootLabel_mem h.symm)
  have hxc : some x ≠ holder c := fun h => hdisj x (by simp) (mem_labels_of_holder h.symm)
  have hyc : some y ≠ holder c := fun h => hdisj y (by simp) (mem_labels_of_holder h.symm)
  -- off `x`, `y` and the root of `m` the moves are a write to the slot
  have hoff : ∀ q, q ≠ x → q ≠ y → some q ≠ k'.left →
      (g.rotateLeft (slotOf c) x y k'.left (holder c)).link q =
        (g.setSlot (some y) (slotOf c)).link q := by
    intro q hqx hqy hqm
    simp only [Linked.rotateLeft, Linked.transplant, Linked.setSlot_left,
      Linked.setSlot_right, Linked.setParent_some, Linked.link_setParent_of_ne _ hqm,
      Linked.link_upd_of_ne _ hqx, Linked.link_upd_of_ne _ hqy]
  have hkeep : ∀ q, q ≠ x → q ≠ y → some q ≠ k'.left → q ∉ c.labels →
      (g.rotateLeft (slotOf c) x y k'.left (holder c)).link q = g.link q := by
    intro q hqx hqy hqm hqc
    rw [hoff q hqx hqy hqm, g.link_setSlot_of_ne fun h => hqc (mem_labels_of_holder h.symm)]
  have hlinkx : (g.rotateLeft (slotOf c) x y k'.left (holder c)).link x =
      some ⟨some y, k.left, k'.left⟩ := by
    simp [Linked.rotateLeft, Linked.transplant, Linked.setSlot_left,
      Linked.setSlot_right, Linked.setParent_some, Linked.link_setParent_of_ne _ (hnm x hxm),
      Linked.link_upd_of_ne _ hxy, Linked.link_setSlot_of_ne _ hxc, hk]
  have hlinky : (g.rotateLeft (slotOf c) x y k'.left (holder c)).link y =
      some ⟨holder c, some x, k'.right⟩ := by
    simp [Linked.rotateLeft, Linked.transplant, Linked.setSlot_left,
      Linked.setSlot_right, Linked.setParent_some, Linked.link_setParent_of_ne _ (hnm y hym),
      Linked.link_upd_of_ne _ (Ne.symm hxy), Linked.link_setSlot_of_ne _ hyc, hk']
  refine rep_plug_of_setSlot hc hcn (p := some y) ?_ (fun q hq => ?_)
    ⟨rfl, _, hlinky, rfl, ⟨rfl, _, hlinkx, rfl, ?_, ?_⟩, ?_⟩
  · simp [Linked.rotateLeft, Linked.transplant, Linked.setSlot_left, Linked.setSlot_right]
  · have hqt : ∀ b, b ∈ inorder l ∨ b = x ∨ b ∈ inorder m ∨ b = y ∨ b ∈ inorder r → q ≠ b :=
      fun b hb => ne_of_mem_of_not_mem hq (hdisj b hb)
    exact hoff q (hqt x (by simp)) (hqt y (by simp))
      (hnm q fun hqm => hqt q (by simp [hqm]) rfl)
  · refine hl.frame fun q hq => ?_
    obtain ⟨hqm, hqy, _⟩ := hlyr q hq
    exact hkeep q (ne_of_mem_of_not_mem hq hxl) hqy (hnm q hqm) (hdisj q (by simp [hq]))
  · refine Links.reparent (hm.frame fun q hq => ?_) hmn
    have hqx : q ≠ x := ne_of_mem_of_not_mem hq hxm
    have hqy : q ≠ y := ne_of_mem_of_not_mem hq hym
    have hqc : q ∉ c.labels := hdisj q (by simp [hq])
    simp only [Linked.transplant, Linked.setSlot_left, Linked.setSlot_right,
      Linked.setParent_some, Linked.link_upd_of_ne _ hqx, Linked.link_upd_of_ne _ hqy]
    exact g.link_setSlot_of_ne fun h => hqc (mem_labels_of_holder h.symm)
  · refine hr.frame fun q hq => ?_
    exact hkeep q (ne_of_mem_of_not_mem hq hxr) (ne_of_mem_of_not_mem hq hyr)
      (hnm q fun hqm => hmr q hqm hq) (hdisj q (by simp [hq]))

/-- The pointer moves of a right rotation rotate the tree that the state
holds. -/
theorem rep_rotateRight {g : Linked κ} {c : Path κ} {x y : κ} {l m r : BinaryTree κ}
    (h : Rep g (c.plug (.node x (.node y l m) r)))
    (hnodup : (inorder (c.plug (.node x (.node y l m) r))).Nodup) :
    Rep (g.rotateRight (slotOf c) x y (rootLabel m) (holder c))
      (c.plug (.node y l (.node x m r))) := by
  obtain ⟨hc, hslot, k, hk, hkpar, ⟨hky, k', hk', hkpar', hl, hm⟩, hr⟩ := rep_plug.1 h
  obtain ⟨htn, hcn, hdisj⟩ := nodup_plug.1 hnodup
  obtain ⟨hxyl, hxr, hyn, hrn, hlyr⟩ := nodup_inorder_node.1 htn
  obtain ⟨hyl, hym, hln, hmn, hlm⟩ := nodup_inorder_node.1 hyn
  simp only [inorder_node, List.mem_append, List.mem_cons, not_or] at hxyl hlyr hdisj
  obtain ⟨hxl, hxy, hxm⟩ := hxyl
  rw [← hm.eq_rootLabel]
  have hnm : ∀ q ∉ inorder m, some q ≠ k'.right :=
    fun q hq h => hq (hm.rootLabel_mem h.symm)
  have hxc : some x ≠ holder c := fun h => hdisj x (by simp) (mem_labels_of_holder h.symm)
  have hyc : some y ≠ holder c := fun h => hdisj y (by simp) (mem_labels_of_holder h.symm)
  -- off `x`, `y` and the root of `m` the moves are a write to the slot
  have hoff : ∀ q, q ≠ x → q ≠ y → some q ≠ k'.right →
      (g.rotateRight (slotOf c) x y k'.right (holder c)).link q =
        (g.setSlot (some y) (slotOf c)).link q := by
    intro q hqx hqy hqm
    simp only [Linked.rotateRight, Linked.transplant, Linked.setSlot_left,
      Linked.setSlot_right, Linked.setParent_some, Linked.link_setParent_of_ne _ hqm,
      Linked.link_upd_of_ne _ hqx, Linked.link_upd_of_ne _ hqy]
  have hkeep : ∀ q, q ≠ x → q ≠ y → some q ≠ k'.right → q ∉ c.labels →
      (g.rotateRight (slotOf c) x y k'.right (holder c)).link q = g.link q := by
    intro q hqx hqy hqm hqc
    rw [hoff q hqx hqy hqm, g.link_setSlot_of_ne fun h => hqc (mem_labels_of_holder h.symm)]
  have hlinkx : (g.rotateRight (slotOf c) x y k'.right (holder c)).link x =
      some ⟨some y, k'.right, k.right⟩ := by
    simp [Linked.rotateRight, Linked.transplant, Linked.setSlot_left,
      Linked.setSlot_right, Linked.setParent_some, Linked.link_setParent_of_ne _ (hnm x hxm),
      Linked.link_upd_of_ne _ hxy, Linked.link_setSlot_of_ne _ hxc, hk]
  have hlinky : (g.rotateRight (slotOf c) x y k'.right (holder c)).link y =
      some ⟨holder c, k'.left, some x⟩ := by
    simp [Linked.rotateRight, Linked.transplant, Linked.setSlot_left,
      Linked.setSlot_right, Linked.setParent_some, Linked.link_setParent_of_ne _ (hnm y hym),
      Linked.link_upd_of_ne _ (Ne.symm hxy), Linked.link_setSlot_of_ne _ hyc, hk']
  refine rep_plug_of_setSlot hc hcn (p := some y) ?_ (fun q hq => ?_)
    ⟨rfl, _, hlinky, rfl, ?_, ⟨rfl, _, hlinkx, rfl, ?_, ?_⟩⟩
  · simp [Linked.rotateRight, Linked.transplant, Linked.setSlot_left, Linked.setSlot_right]
  · have hqt : ∀ b, (b ∈ inorder l ∨ b = y ∨ b ∈ inorder m) ∨ b = x ∨ b ∈ inorder r → q ≠ b :=
      fun b hb => ne_of_mem_of_not_mem hq (hdisj b hb)
    exact hoff q (hqt x (by simp)) (hqt y (by simp))
      (hnm q fun hqm => hqt q (by simp [hqm]) rfl)
  · refine hl.frame fun q hq => ?_
    exact hkeep q (ne_of_mem_of_not_mem hq hxl) (ne_of_mem_of_not_mem hq hyl)
      (hnm q (hlm q hq)) (hdisj q (by simp [hq]))
  · refine Links.reparent (hm.frame fun q hq => ?_) hmn
    have hqx : q ≠ x := ne_of_mem_of_not_mem hq hxm
    have hqy : q ≠ y := ne_of_mem_of_not_mem hq hym
    have hqc : q ∉ c.labels := hdisj q (by simp [hq])
    simp only [Linked.transplant, Linked.setSlot_left, Linked.setSlot_right,
      Linked.setParent_some, Linked.link_upd_of_ne _ hqx, Linked.link_upd_of_ne _ hqy]
    exact g.link_setSlot_of_ne fun h => hqc (mem_labels_of_holder h.symm)
  · refine hr.frame fun q hq => ?_
    have hqy : q ≠ y := fun h => hlyr y (by simp) (h ▸ hq)
    have hqm : q ∉ inorder m := fun h => hlyr q (by simp [h]) hq
    exact hkeep q (ne_of_mem_of_not_mem hq hxr) hqy (hnm q hqm) (hdisj q (by simp [hq]))

/-- Hang a subtree, which another node holds so far, under the detached node
`p`. -/
theorem Links.adopt {g : Linked κ} {p : κ} {sl : Slot κ} {par q : Option κ}
    {t : BinaryTree κ} (h : Links g par q t) (hnodup : (inorder t).Nodup)
    (hsl : sl = .left p ∨ sl = .right p) (hp : p ∉ inorder t) :
    Links (g.transplant sl q (some p)) (some p) q t := by
  refine Links.reparent (h.frame fun b hb => ?_) hnodup
  have hbp : b ≠ p := ne_of_mem_of_not_mem hb hp
  rcases hsl with rfl | rfl
  · exact g.link_upd_of_ne hbp _
  · exact g.link_upd_of_ne hbp _

/-- A node `p` that has its left subtree already takes the place of the node
`a` at the hole, and adopts the right subtree of `a`. -/
theorem rep_replace {g : Linked κ} {c : Path κ} {p : κ} {k : Link κ} {par rp : Option κ}
    {l r : BinaryTree κ} (hc : PathLinks g c) (hk : g.link p = some k)
    (hl : Links g (some p) k.left l) (hr : Links g par rp r)
    (hnodup : (inorder (c.plug (.node p l r))).Nodup) :
    Rep ((g.transplant (slotOf c) (some p) (holder c)).transplant (.right p) rp (some p))
      (c.plug (.node p l r)) := by
  obtain ⟨htn, hcn, hdisj⟩ := nodup_plug.1 hnodup
  obtain ⟨hpl, hpr, hln, hrn, hlr⟩ := nodup_inorder_node.1 htn
  simp only [inorder_node, List.mem_append, List.mem_cons] at hdisj
  have hpc : some p ≠ holder c := fun h => hdisj p (by simp) (mem_labels_of_holder h.symm)
  have hnr : ∀ q ∉ inorder r, some q ≠ rp := fun q hq h => hq (hr.rootLabel_mem h.symm)
  have hoff : ∀ q, q ≠ p → some q ≠ rp →
      ((g.transplant (slotOf c) (some p) (holder c)).transplant (.right p) rp (some p)).link q =
        (g.setSlot (some p) (slotOf c)).link q := by
    intro q hqp hqr
    simp only [Linked.transplant, Linked.setSlot_right, Linked.setParent_some,
      Linked.link_setParent_of_ne _ hqr, Linked.link_upd_of_ne _ hqp]
  have hlinkp : ((g.transplant (slotOf c) (some p) (holder c)).transplant
      (.right p) rp (some p)).link p = some ⟨holder c, k.left, rp⟩ := by
    simp [Linked.transplant, Linked.setSlot_right, Linked.setParent_some,
      Linked.link_setParent_of_ne _ (hnr p hpr), Linked.link_setSlot_of_ne _ hpc, hk]
  refine rep_plug_of_setSlot hc hcn (p := some p) ?_ (fun q hq => ?_)
    ⟨rfl, _, hlinkp, rfl, ?_, ?_⟩
  · simp [Linked.transplant, Linked.setSlot_right]
  · have hqt : ∀ b, b ∈ inorder l ∨ b = p ∨ b ∈ inorder r → q ≠ b :=
      fun b hb => ne_of_mem_of_not_mem hq (hdisj b hb)
    exact hoff q (hqt p (by simp)) (hnr q fun hqr => hqt q (by simp [hqr]) rfl)
  · refine hl.frame fun q hq => ?_
    rw [hoff q (ne_of_mem_of_not_mem hq hpl) (hnr q (hlr q hq))]
    exact g.link_setSlot_of_ne fun h => hdisj q (by simp [hq]) (mem_labels_of_holder h.symm)
  · refine Links.adopt (hr.frame fun q hq => ?_) hrn (.inr rfl) hpr
    rw [Linked.transplant, Linked.setParent_some,
      Linked.link_upd_of_ne _ (ne_of_mem_of_not_mem hq hpr)]
    exact g.link_setSlot_of_ne fun h => hdisj q (by simp [hq]) (mem_labels_of_holder h.symm)

end Mwr.CodeLib.LinkedTree
