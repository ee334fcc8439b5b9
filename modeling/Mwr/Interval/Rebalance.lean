import Mwr.Interval.Repr

/-!
# Rotations and rebalancing

The functions of the tree that change one place, run on a heap that holds a
tree.  Each of them takes a `Ref`, and the place is described by a path, so
that one statement covers the root field and the child fields alike.

`ivtRefresh_run` recomputes the caches of a node from its subtrees.
`ivtRotateLeft_run` and `ivtRotateRight_run` carry out the rotations of
`LinkedTree`, and `ivtRebalance_run` is `AvlTree.rebalance`: the decisions that
the code takes from the cached heights are those of the true heights.
-/

namespace Mwr.Interval

open BinaryTree
open Mwr.CodeLib.AvlTree (Path inorder nodup_inorder_node rebalance inorder_rebalance)
open Mwr.CodeLib.LinkedTree
open Mwr.CodeLib.Exec

variable {T : Type}

/-! ## Primitive operations -/

/-- The reference to a slot. -/
def refOf : Slot Addr → Ref
  | .root => .rootField
  | .left a => .leftField (some a)
  | .right a => .rightField (some a)

/-- The node that a slot is part of exists. -/
def HasSlot (s : Store T) (sl : Slot Addr) : Prop :=
  ∀ a, sl.holder = some a → ∃ n, s.cells a = some n

theorem deref_run {s : Store T} {a : Addr} {n : IvtNode T} (h : s.cells a = some n) :
    (deref (some a)).run s = .ok (n, s) := by
  rw [deref, run_bind_of_ok (run_get_eq s)]
  simp [h]

theorem assign_run {s : Store T} {a : Addr} {n : IvtNode T} (h : s.cells a = some n)
    (f : IvtNode T → IvtNode T) : (assign (some a) f).run s = .ok ((), s.upd a f) := by
  rw [assign, run_bind_of_ok (deref_run h)]
  simp [Store.put, Store.upd, h]

theorem free_run {s : Store T} {a : Addr} {n : IvtNode T} (h : s.cells a = some n) :
    (free (some a)).run s = .ok ((), { s with cells := Function.update s.cells a none }) := by
  rw [free, run_bind_of_ok (deref_run h)]
  rfl

theorem checkInterval_run {s : Store T} {start stop : UInt64} (h : start ≤ stop) :
    (checkInterval start stop).run s = .ok ((), s) := by
  rw [checkInterval, if_neg (UInt64.not_lt.2 h)]
  rfl

theorem slot_left_of_cells {s : Store T} {a : Addr} {n : IvtNode T} (h : s.cells a = some n) :
    s.linked.slot (.left a) = n.left := by
  simp [Linked.slot, Store.linked, h, IvtNode.link]

theorem slot_right_of_cells {s : Store T} {a : Addr} {n : IvtNode T} (h : s.cells a = some n) :
    s.linked.slot (.right a) = n.right := by
  simp [Linked.slot, Store.linked, h, IvtNode.link]

theorem Ref.get_run {s : Store T} {sl : Slot Addr} (h : HasSlot s sl) :
    (refOf sl).get.run s = .ok (s.linked.slot sl, s) := by
  cases sl with
  | root => rfl
  | left a =>
    obtain ⟨n, hn⟩ := h a rfl
    rw [refOf, Ref.get, run_bind_of_ok (deref_run hn), slot_left_of_cells hn]
    rfl
  | right a =>
    obtain ⟨n, hn⟩ := h a rfl
    rw [refOf, Ref.get, run_bind_of_ok (deref_run hn), slot_right_of_cells hn]
    rfl

theorem Ref.set_run {s : Store T} {sl : Slot Addr} (h : HasSlot s sl) (p : Option Addr) :
    (Ref.set p (refOf sl)).run s = .ok ((), s.setSlot p sl) := by
  cases sl with
  | root => rfl
  | left a =>
    obtain ⟨n, hn⟩ := h a rfl
    exact assign_run hn _
  | right a =>
    obtain ⟨n, hn⟩ := h a rfl
    exact assign_run hn _

/-- A write keeps the set of nodes. -/
theorem exists_cells_upd {s : Store T} {a b : Addr} {n : IvtNode T} (h : s.cells b = some n)
    (f : IvtNode T → IvtNode T) : ∃ n, (s.upd a f).cells b = some n := by
  by_cases hab : b = a
  · subst hab
    exact ⟨_, Store.cells_upd_self h f⟩
  · exact ⟨n, by rw [s.cells_upd_of_ne hab, h]⟩

theorem exists_cells_setSlot {s : Store T} {b : Addr} {n : IvtNode T}
    (h : s.cells b = some n) (p : Option Addr) (sl : Slot Addr) :
    ∃ n, (s.setSlot p sl).cells b = some n := by
  cases sl with
  | root => exact ⟨n, h⟩
  | left a => exact exists_cells_upd h _
  | right a => exact exists_cells_upd h _

theorem exists_cells_transplant {s : Store T} {b : Addr} {n : IvtNode T}
    (h : s.cells b = some n) (sl : Slot Addr) (p par : Option Addr) :
    ∃ n, (s.transplant sl p par).cells b = some n := by
  obtain ⟨n', hn'⟩ := exists_cells_setSlot h p sl
  cases p with
  | none => exact ⟨n', hn'⟩
  | some a => exact exists_cells_upd hn' _

theorem setParent_run {s : Store T} {p : Option Addr}
    (hp : ∀ a, p = some a → ∃ n, s.cells a = some n) (par : Option Addr) :
    (do if p.isSome then assign p fun n => { n with parent := par } : Op T Unit).run s =
      .ok ((), s.setParent par p) := by
  cases p with
  | none => rfl
  | some a =>
    obtain ⟨n, hn⟩ := hp a rfl
    exact assign_run hn _

theorem ivtTransplant_run {s : Store T} {sl : Slot Addr} {p : Option Addr} (h : HasSlot s sl)
    (hp : ∀ a, p = some a → ∃ n, s.cells a = some n) (par : Option Addr) :
    (ivtTransplant (refOf sl) p par).run s = .ok ((), s.transplant sl p par) := by
  rw [ivtTransplant, run_bind_of_ok (Ref.set_run h p)]
  refine setParent_run (fun a ha => ?_) par
  obtain ⟨n, hn⟩ := hp a ha
  exact exists_cells_setSlot hn p sl

/-- The holder of the slot of a path in a represented tree exists. -/
theorem hasSlot_of_pathLinks {s : Store T} {c : Path Addr} (h : PathLinks s.linked c) :
    HasSlot s (slotOf c) := by
  intro a ha
  cases c with
  | top => cases ha
  | left b r up =>
    cases ha
    obtain ⟨_, ⟨k, hk, _⟩, _⟩ := h
    obtain ⟨n, hn, _⟩ := Store.exists_cells hk
    exact ⟨n, hn⟩
  | right b l up =>
    cases ha
    obtain ⟨_, ⟨k, hk, _⟩, _⟩ := h
    obtain ⟨n, hn, _⟩ := Store.exists_cells hk
    exact ⟨n, hn⟩

/-! ## The derived fields -/

section Derived

variable {s : Store T} {par p : Option Addr} {t : BinaryTree Addr}

/-- The root of a represented, cached tree. -/
theorem exists_root {a : Addr} {l r : BinaryTree Addr} (h : Links s.linked par p (.node a l r)) :
    ∃ n, p = some a ∧ s.cells a = some n ∧ n.parent = par ∧
      Links s.linked (some a) n.left l ∧ Links s.linked (some a) n.right r := by
  obtain ⟨hp, k, hk, hpar, hl, hr⟩ := h
  obtain ⟨n, hn, rfl⟩ := Store.exists_cells hk
  exact ⟨n, hp, hn, hpar, hl, hr⟩

theorem exists_cells_of_mem (h : Links s.linked par p t) {a : Addr} (ha : a ∈ inorder t) :
    ∃ n, s.cells a = some n := by
  obtain ⟨k, hk⟩ := h.exists_link ha
  obtain ⟨n, hn, _⟩ := Store.exists_cells hk
  exact ⟨n, hn⟩

theorem cacheOk_root {a : Addr} {n : IvtNode T} {l r : BinaryTree Addr}
    (h : Cached s (.node a l r)) (hn : s.cells a = some n) :
    CacheOk s n.cache (.node a l r) := by
  obtain ⟨⟨k, hk, hok⟩, _, _⟩ := h
  rw [Store.cache, hn] at hk
  cases hk
  exact hok

theorem heightOrZero_run (h : Links s.linked par p t) (hc : Cached s t) :
    (heightOrZero p).run s = .ok (t.height, s) := by
  cases t with
  | nil =>
    cases h
    rfl
  | node a l r =>
    obtain ⟨n, rfl, hn, _⟩ := exists_root h
    have hheight : n.height = (BinaryTree.node a l r).height := (cacheOk_root hc hn).1
    rw [heightOrZero]
    simp only [Option.isNone_some, Bool.false_eq_true, if_false]
    rw [run_bind_of_ok (deref_run hn), run_pure_eq, hheight]

theorem lowerMin_run (h : Links s.linked par p t) (hc : Cached s t) (m : UInt64) :
    ∃ m', (lowerMin p m).run s = .ok (m', s) ∧
      IsLeast {v | v = m ∨ ∃ a ∈ inorder t, s.lo a = v} m' := by
  cases t with
  | nil =>
    cases h
    refine ⟨m, rfl, .inl rfl, ?_⟩
    rintro v (rfl | ⟨a, ha, _⟩)
    · exact UInt64.le_refl _
    · simp at ha
  | node a l r =>
    obtain ⟨n, rfl, hn, _⟩ := exists_root h
    obtain ⟨hmem, hle⟩ := (cacheOk_root hc hn).2.1
    refine ⟨if n.min < m then n.min else m, ?_, ?_⟩
    · rw [lowerMin]
      simp only [Option.isNone_some, Bool.false_eq_true, if_false]
      rw [run_bind_of_ok (deref_run hn), run_pure_eq]
    · split_ifs with hlt
      · refine ⟨.inr hmem, ?_⟩
        rintro v (rfl | hv)
        · exact UInt64.le_of_lt hlt
        · exact hle hv
      · refine ⟨.inl rfl, ?_⟩
        rintro v (rfl | hv)
        · exact UInt64.le_refl _
        · exact UInt64.le_trans (UInt64.not_lt.1 hlt) (hle hv)

theorem raiseMax_run (h : Links s.linked par p t) (hc : Cached s t) (m : UInt64) :
    ∃ m', (raiseMax p m).run s = .ok (m', s) ∧
      IsGreatest {v | v = m ∨ ∃ a ∈ inorder t, s.hi a = v} m' := by
  cases t with
  | nil =>
    cases h
    refine ⟨m, rfl, .inl rfl, ?_⟩
    rintro v (rfl | ⟨a, ha, _⟩)
    · exact UInt64.le_refl _
    · simp at ha
  | node a l r =>
    obtain ⟨n, rfl, hn, _⟩ := exists_root h
    obtain ⟨hmem, hle⟩ := (cacheOk_root hc hn).2.2
    refine ⟨if n.max > m then n.max else m, ?_, ?_⟩
    · rw [raiseMax]
      simp only [Option.isNone_some, Bool.false_eq_true, if_false]
      rw [run_bind_of_ok (deref_run hn), run_pure_eq]
    · split_ifs with hlt
      · refine ⟨.inr hmem, ?_⟩
        rintro v (rfl | hv)
        · exact UInt64.le_of_lt hlt
        · exact hle hv
      · refine ⟨.inl rfl, ?_⟩
        rintro v (rfl | hv)
        · exact UInt64.le_refl _
        · exact UInt64.le_trans (hle hv) (UInt64.not_lt.1 hlt)

end Derived

section Refresh

variable {s : Store T} {a : Addr} {n : IvtNode T} {l r : BinaryTree Addr}

theorem ivtHeight_run (hn : s.cells a = some n) (hl : Links s.linked (some a) n.left l)
    (hr : Links s.linked (some a) n.right r) (hlc : Cached s l) (hrc : Cached s r) :
    (ivtHeight (some a)).run s = .ok ((BinaryTree.node a l r).height, s) := by
  rw [ivtHeight]
  simp only [Option.isNone_some, Bool.false_eq_true, if_false]
  rw [run_bind_of_ok (deref_run hn), run_bind_of_ok (heightOrZero_run hl hlc),
    run_bind_of_ok (deref_run hn), run_bind_of_ok (heightOrZero_run hr hrc), run_pure_eq,
    height, Nat.add_comm]

theorem ivtBalance_run (hn : s.cells a = some n) (hl : Links s.linked (some a) n.left l)
    (hr : Links s.linked (some a) n.right r) (hlc : Cached s l) (hrc : Cached s r) :
    (ivtBalance (some a)).run s = .ok ((l.height : Int) - r.height, s) := by
  rw [ivtBalance]
  simp only [Option.isNone_some, Bool.false_eq_true, if_false]
  rw [run_bind_of_ok (deref_run hn), run_bind_of_ok (heightOrZero_run hl hlc),
    run_bind_of_ok (deref_run hn), run_bind_of_ok (heightOrZero_run hr hrc), run_pure_eq]

/-- The values of a node and its subtrees. -/
theorem mem_values_node {f : Addr → UInt64} {v : UInt64} :
    (∃ b ∈ inorder (.node a l r), f b = v) ↔
      (∃ b ∈ inorder l, f b = v) ∨ f a = v ∨ ∃ b ∈ inorder r, f b = v := by
  simp only [Mwr.CodeLib.AvlTree.inorder_node, List.mem_append, List.mem_cons, or_and_right,
    exists_or, exists_eq_left]

theorem ivtMin_run (hn : s.cells a = some n) (hl : Links s.linked (some a) n.left l)
    (hr : Links s.linked (some a) n.right r) (hlc : Cached s l) (hrc : Cached s r) :
    ∃ m, (ivtMin (some a)).run s = .ok (m, s) ∧
      IsLeast {v | ∃ b ∈ inorder (.node a l r), s.lo b = v} m := by
  obtain ⟨m₁, hrun₁, hmem₁, hle₁⟩ := lowerMin_run hl hlc n.lo
  obtain ⟨m₂, hrun₂, hmem₂, hle₂⟩ := lowerMin_run hr hrc m₁
  have hlo : s.lo a = n.lo := Store.lo_of_cells hn
  refine ⟨m₂, ?_, ?_, ?_⟩
  · rw [ivtMin, run_bind_of_ok (deref_run hn), run_bind_of_ok hrun₁, hrun₂]
  · rcases hmem₂ with rfl | hright
    · rcases hmem₁ with rfl | hleft
      · exact mem_values_node.2 (.inr (.inl hlo))
      · exact mem_values_node.2 (.inl hleft)
    · exact mem_values_node.2 (.inr (.inr hright))
  · intro v hv
    rcases mem_values_node.1 hv with hleft | rfl | hright
    · exact UInt64.le_trans (hle₂ (.inl rfl)) (hle₁ (.inr hleft))
    · exact UInt64.le_trans (hle₂ (.inl rfl)) (hle₁ (.inl hlo))
    · exact hle₂ (.inr hright)

theorem ivtMax_run (hn : s.cells a = some n) (hl : Links s.linked (some a) n.left l)
    (hr : Links s.linked (some a) n.right r) (hlc : Cached s l) (hrc : Cached s r) :
    ∃ m, (ivtMax (some a)).run s = .ok (m, s) ∧
      IsGreatest {v | ∃ b ∈ inorder (.node a l r), s.hi b = v} m := by
  obtain ⟨m₁, hrun₁, hmem₁, hle₁⟩ := raiseMax_run hl hlc n.hi
  obtain ⟨m₂, hrun₂, hmem₂, hle₂⟩ := raiseMax_run hr hrc m₁
  have hhi : s.hi a = n.hi := Store.hi_of_cells hn
  refine ⟨m₂, ?_, ?_, ?_⟩
  · rw [ivtMax, run_bind_of_ok (deref_run hn), run_bind_of_ok hrun₁, hrun₂]
  · rcases hmem₂ with rfl | hright
    · rcases hmem₁ with rfl | hleft
      · exact mem_values_node.2 (.inr (.inl hhi))
      · exact mem_values_node.2 (.inl hleft)
    · exact mem_values_node.2 (.inr (.inr hright))
  · intro v hv
    rcases mem_values_node.1 hv with hleft | rfl | hright
    · exact UInt64.le_trans (hle₁ (.inr hleft)) (hle₂ (.inl rfl))
    · exact UInt64.le_trans (hle₁ (.inl hhi)) (hle₂ (.inl rfl))
    · exact hle₂ (.inr hright)

/-- `ivt_refresh` puts the height and the hull of the subtree into the
caches. -/
theorem ivtRefresh_run (hn : s.cells a = some n) (hl : Links s.linked (some a) n.left l)
    (hr : Links s.linked (some a) n.right r) (hlc : Cached s l) (hrc : Cached s r)
    (hal : a ∉ inorder l) (har : a ∉ inorder r) :
    ∃ k, (ivtRefresh (some a)).run s = .ok ((), s.setCache a k) ∧
      CacheOk s k (.node a l r) := by
  have hheight := ivtHeight_run hn hl hr hlc hrc
  -- the three assignments touch the caches of `a` only, so each read sees the
  -- same subtrees as the first one
  let f₁ : IvtNode T → IvtNode T := fun n =>
    { n with height := (BinaryTree.node a l r).height }
  have hf₁ : ∀ n, (f₁ n).link = n.link ∧ (f₁ n).item = n.item := fun _ => ⟨rfl, rfl⟩
  have hlink₁ : (s.upd a f₁).linked = s.linked := s.linked_upd_of_link a fun n => (hf₁ n).1
  have hitem₁ : (s.upd a f₁).item = s.item := s.item_upd a fun n => (hf₁ n).2
  have hlc₁ : Cached (s.upd a f₁) l := hlc.upd hal fun n => (hf₁ n).2
  have hrc₁ : Cached (s.upd a f₁) r := hrc.upd har fun n => (hf₁ n).2
  have hn₁ : (s.upd a f₁).cells a = some (f₁ n) := Store.cells_upd_self hn f₁
  obtain ⟨m, hmin, hleast⟩ := ivtMin_run hn₁ (by rw [hlink₁]; exact hl)
    (by rw [hlink₁]; exact hr) hlc₁ hrc₁
  let f₂ : IvtNode T → IvtNode T := fun n => { n with min := m }
  have hf₂ : ∀ n, (f₂ n).link = n.link ∧ (f₂ n).item = n.item := fun _ => ⟨rfl, rfl⟩
  have hlink₂ : ((s.upd a f₁).upd a f₂).linked = s.linked :=
    (Store.linked_upd_of_link _ a fun n => (hf₂ n).1).trans hlink₁
  have hitem₂ : ((s.upd a f₁).upd a f₂).item = s.item :=
    (Store.item_upd _ a fun n => (hf₂ n).2).trans hitem₁
  have hn₂ : ((s.upd a f₁).upd a f₂).cells a = some (f₂ (f₁ n)) := Store.cells_upd_self hn₁ f₂
  obtain ⟨m', hmax, hgreatest⟩ := ivtMax_run hn₂ (by rw [hlink₂]; exact hl)
    (by rw [hlink₂]; exact hr) (hlc₁.upd hal fun n => (hf₂ n).2)
    (hrc₁.upd har fun n => (hf₂ n).2)
  refine ⟨⟨(BinaryTree.node a l r).height, m, m'⟩, ?_, rfl, ?_, ?_⟩
  · rw [ivtRefresh]
    simp only [Option.isSome_some, if_true]
    rw [run_bind_of_ok hheight, run_bind_of_ok (assign_run hn _), run_bind_of_ok hmin,
      run_bind_of_ok (assign_run hn₁ _), run_bind_of_ok hmax, assign_run hn₂,
      Store.upd_upd, Store.upd_upd]
    rfl
  · simp only [fun b => Store.lo_congr (congrFun hitem₁ b)] at hleast
    exact hleast
  · simp only [fun b => Store.hi_congr (congrFun hitem₂ b)] at hgreatest
    exact hgreatest

end Refresh

/-- Refreshing the root of a subtree whose own subtrees are cached. -/
theorem exists_ivtRefresh {s : Store T} {par p : Option Addr} {a : Addr}
    {l r : BinaryTree Addr} (h : Links s.linked par p (.node a l r))
    (hnodup : (inorder (.node a l r)).Nodup) (hlc : Cached s l) (hrc : Cached s r) :
    ∃ s', (ivtRefresh (some a)).run s = .ok ((), s') ∧ s'.linked = s.linked ∧
      Cached s' (.node a l r) ∧ ∀ W, Frame s s' [a] W := by
  obtain ⟨n, _, hn, _, hl, hr⟩ := exists_root h
  obtain ⟨hal, har, _⟩ := nodup_inorder_node.1 hnodup
  obtain ⟨k, hrun, hok⟩ := ivtRefresh_run hn hl hr hlc hrc hal har
  have hitem : (s.setCache a k).item = s.item := s.item_setCache a k
  have hok' := hok.congr (fun b _ => Store.lo_congr (congrFun hitem b))
    fun b _ => Store.hi_congr (congrFun hitem b)
  refine ⟨s.setCache a k, hrun, s.linked_setCache a k, ⟨⟨k, ?_, hok'⟩, ?_, ?_⟩,
    fun W => Frame.setCache s k (by simp)⟩
  · exact Store.cache_setCache_self hn k
  · exact hlc.upd hal fun _ => rfl
  · exact hrc.upd har fun _ => rfl

/-! ## Rotations -/

/-- What a change at the end of a path does: the subtree `t'` is in place and
cached, and nothing else moved. -/
structure Placed (s s' : Store T) (c : Path Addr) (t' : BinaryTree Addr) : Prop where
  rep : Rep s'.linked (c.plug t')
  cached : Cached s' t'
  frame : Frame s s' (inorder t') (inorder (c.plug t'))

/-- A change of links before a `Placed` change. -/
theorem Placed.of_frame {s s' s'' : Store T} {c : Path Addr} {t : BinaryTree Addr}
    (hframe : Frame s s' (inorder t) (inorder (c.plug t))) (h : Placed s' s'' c t) :
    Placed s s'' c t :=
  ⟨h.rep, h.cached, hframe.trans h.frame⟩

/-- The two refreshes at the end of a left rotation: first the lower node,
then the upper one. -/
theorem refresh_rotated_left {s : Store T} {c : Path Addr} {x y : Addr}
    {l m r : BinaryTree Addr} (h : Rep s.linked (c.plug (.node y (.node x l m) r)))
    (hnodup : (inorder (c.plug (.node y (.node x l m) r))).Nodup)
    (hl : Cached s l) (hm : Cached s m) (hr : Cached s r) :
    ∃ s', (do ivtRefresh (some x); ivtRefresh (some y) : Op T Unit).run s = .ok ((), s') ∧
      Placed s s' c (.node y (.node x l m) r) := by
  obtain ⟨_, ht⟩ := rep_plug.1 h
  obtain ⟨htn, _, _⟩ := nodup_plug.1 hnodup
  obtain ⟨_, _, hxn, _, hxr⟩ := nodup_inorder_node.1 htn
  obtain ⟨_, _, _, _, hx, _⟩ := exists_root ht
  obtain ⟨s₁, hrun₁, hlinked₁, hcached₁, hframe₁⟩ := exists_ivtRefresh hx hxn hl hm
  have hxr' : ∀ a ∈ inorder r, a ∉ [x] := by
    intro a ha hax
    exact hxr x (by simp) (List.mem_singleton.1 hax ▸ ha)
  have hr₁ : Cached s₁ r :=
    hr.frame (hframe₁ []).item fun a ha => (hframe₁ []).cache a (hxr' a ha)
  rw [← hlinked₁] at ht
  obtain ⟨s₂, hrun₂, hlinked₂, hcached₂, hframe₂⟩ := exists_ivtRefresh ht htn hcached₁ hr₁
  refine ⟨s₂, (run_bind_of_ok hrun₁).trans hrun₂, ?_, hcached₂, ?_⟩
  · rw [hlinked₂, hlinked₁]
    exact h
  · refine ((hframe₁ _).mono ?_ (List.Subset.refl _)).trans
      ((hframe₂ _).mono ?_ (List.Subset.refl _))
    · simp
    · simp

/-- The two refreshes at the end of a right rotation. -/
theorem refresh_rotated_right {s : Store T} {c : Path Addr} {x y : Addr}
    {l m r : BinaryTree Addr} (h : Rep s.linked (c.plug (.node y l (.node x m r))))
    (hnodup : (inorder (c.plug (.node y l (.node x m r)))).Nodup)
    (hl : Cached s l) (hm : Cached s m) (hr : Cached s r) :
    ∃ s', (do ivtRefresh (some x); ivtRefresh (some y) : Op T Unit).run s = .ok ((), s') ∧
      Placed s s' c (.node y l (.node x m r)) := by
  obtain ⟨_, ht⟩ := rep_plug.1 h
  obtain ⟨htn, _, _⟩ := nodup_plug.1 hnodup
  obtain ⟨_, _, _, hxn, hlx⟩ := nodup_inorder_node.1 htn
  obtain ⟨_, _, _, _, _, hx⟩ := exists_root ht
  obtain ⟨s₁, hrun₁, hlinked₁, hcached₁, hframe₁⟩ := exists_ivtRefresh hx hxn hm hr
  have hxl' : ∀ a ∈ inorder l, a ∉ [x] := by
    intro a ha hax
    exact hlx a ha (by simp [List.mem_singleton.1 hax])
  have hl₁ : Cached s₁ l :=
    hl.frame (hframe₁ []).item fun a ha => (hframe₁ []).cache a (hxl' a ha)
  rw [← hlinked₁] at ht
  obtain ⟨s₂, hrun₂, hlinked₂, hcached₂, hframe₂⟩ := exists_ivtRefresh ht htn hl₁ hcached₁
  refine ⟨s₂, (run_bind_of_ok hrun₁).trans hrun₂, ?_, hcached₂, ?_⟩
  · rw [hlinked₂, hlinked₁]
    exact h
  · refine ((hframe₁ _).mono ?_ (List.Subset.refl _)).trans
      ((hframe₂ _).mono ?_ (List.Subset.refl _))
    · simp
    · simp

/-- The three transplants of a rotation, for either direction. -/
theorem rotation_transplants_run {s : Store T} {sl : Slot Addr} (sl₂ sl₃ : Slot Addr)
    {x y : Addr} {nx ny : IvtNode T} {m : Option Addr} (par : Option Addr) (hslot : HasSlot s sl)
    (hx : s.cells x = some nx) (hy : s.cells y = some ny)
    (hm : ∀ a, m = some a → ∃ n, s.cells a = some n)
    (h₂ : sl₂.holder = some y) (h₃ : sl₃.holder = some x) :
    (ivtTransplant (refOf sl) (some y) par).run s =
        .ok ((), s.transplant sl (some y) par) ∧
      (ivtTransplant (refOf sl₂) (some x) (some y)).run (s.transplant sl (some y) par) =
        .ok ((), (s.transplant sl (some y) par).transplant sl₂ (some x) (some y)) ∧
      (ivtTransplant (refOf sl₃) m (some x)).run
          ((s.transplant sl (some y) par).transplant sl₂ (some x) (some y)) =
        .ok ((), ((s.transplant sl (some y) par).transplant sl₂ (some x) (some y)).transplant
          sl₃ m (some x)) := by
  have hdom₁ : ∀ {a n}, s.cells a = some n →
      ∃ n, (s.transplant sl (some y) par).cells a = some n :=
    fun h => exists_cells_transplant h _ _ _
  have hdom₂ : ∀ {a n}, s.cells a = some n →
      ∃ n, ((s.transplant sl (some y) par).transplant sl₂ (some x) (some y)).cells a =
        some n := by
    intro a n h
    obtain ⟨n', h'⟩ := hdom₁ h
    exact exists_cells_transplant h' _ _ _
  refine ⟨ivtTransplant_run hslot ?_ _, ivtTransplant_run ?_ ?_ _, ivtTransplant_run ?_ ?_ _⟩
  · rintro a ⟨⟩
    exact ⟨ny, hy⟩
  · intro a ha
    cases h₂.symm.trans ha
    exact hdom₁ hy
  · rintro a ⟨⟩
    exact hdom₁ hx
  · intro a ha
    cases h₃.symm.trans ha
    exact hdom₂ hx
  · intro a ha
    obtain ⟨n, hn⟩ := hm a ha
    exact hdom₂ hn

/-- The nodes that the three transplants of a rotation touch belong to the
tree. -/
theorem Frame.rotation (s : Store T) (sl₂ sl₃ : Slot Addr) (c : Path Addr) {x y : Addr}
    {m : Option Addr} (par : Option Addr) {S W : List Addr} (hc : c.labels ⊆ W) (hx : x ∈ W)
    (hy : y ∈ W) (hm : ∀ a, m = some a → a ∈ W) (h₂ : sl₂.holder = some y)
    (h₃ : sl₃.holder = some x) :
    Frame s (((s.transplant (slotOf c) (some y) par).transplant sl₂ (some x) (some y)).transplant
      sl₃ m (some x)) S W := by
  refine ((Frame.transplant s ?_ ?_).trans (Frame.transplant _ ?_ ?_)).trans
    (Frame.transplant _ ?_ hm)
  · exact fun a ha => hc (mem_labels_of_holder ha)
  · rintro a ⟨⟩
    exact hy
  · intro a ha
    cases h₂.symm.trans ha
    exact hy
  · rintro a ⟨⟩
    exact hx
  · intro a ha
    cases h₃.symm.trans ha
    exact hx

/-- `ivt_rotate_left` of the subtree at the end of a path. -/
theorem ivtRotateLeft_run {s : Store T} {c : Path Addr} {x y : Addr} {l m r : BinaryTree Addr}
    (h : Rep s.linked (c.plug (.node x l (.node y m r))))
    (hnodup : (inorder (c.plug (.node x l (.node y m r)))).Nodup)
    (hl : Cached s l) (hm : Cached s m) (hr : Cached s r) :
    ∃ s', (ivtRotateLeft (refOf (slotOf c))).run s = .ok ((), s') ∧
      Placed s s' c (.node y (.node x l m) r) := by
  obtain ⟨hc, ht⟩ := rep_plug.1 h
  have hslot := hasSlot_of_pathLinks hc
  have hget := Ref.get_run hslot
  obtain ⟨nx, hroot, hnx, hparent, _, hy⟩ := exists_root ht
  obtain ⟨ny, hright, hny, _, hmy, _⟩ := exists_root hy
  rw [hroot] at hget
  have hmem : ∀ a, ny.left = some a → a ∈ inorder m := fun a ha => hmy.rootLabel_mem ha
  obtain ⟨hrun₁, hrun₂, hrun₃⟩ := rotation_transplants_run (.left y) (.right x) (holder c)
    hslot hnx hny (fun a ha => exists_cells_of_mem hmy (hmem a ha)) rfl rfl
  have hmemt : ∀ a ∈ inorder (BinaryTree.node y (.node x l m) r),
      a ∈ inorder (c.plug (.node y (.node x l m) r)) :=
    fun a ha => mem_inorder_plug.2 (.inl ha)
  have hframe := Frame.rotation s (.left y) (.right x) c (holder c) (m := ny.left)
    (S := inorder (.node y (.node x l m) r)) (fun a ha => mem_inorder_plug.2 (.inr ha))
    (hmemt x (by simp)) (hmemt y (by simp)) (fun a ha => hmemt a (by simp [hmem a ha]))
    rfl rfl
  -- the links are those of the rotated tree, and no cache has changed
  have hrep := rep_rotateLeft h hnodup
  rw [← hmy.eq_rootLabel, Linked.rotateLeft, ← Store.linked_transplant,
    ← Store.linked_transplant, ← Store.linked_transplant] at hrep
  have hcached : ∀ {t}, Cached s t → Cached (((s.transplant (slotOf c) (some y)
      (holder c)).transplant (.left y) (some x) (some y)).transplant (.right x) ny.left
        (some x)) t :=
    fun hct => hct.frame hframe.item fun a _ => by simp only [Store.cache_transplant]
  have hnodup' : (inorder (c.plug (.node y (.node x l m) r))).Nodup := by
    simpa [Path.inorder_plug] using hnodup
  obtain ⟨s', hrun, hplaced⟩ :=
    refresh_rotated_left hrep hnodup' (hcached hl) (hcached hm) (hcached hr)
  refine ⟨s', ?_, hplaced.of_frame hframe⟩
  rw [ivtRotateLeft, run_bind_of_ok hget, run_bind_of_ok (deref_run hnx), hright,
    run_bind_of_ok (deref_run hny), run_bind_of_ok hget, run_bind_of_ok (deref_run hnx),
    hparent, run_bind_of_ok hrun₁]
  exact (run_bind_of_ok hrun₂).trans ((run_bind_of_ok hrun₃).trans hrun)

/-- `ivt_rotate_right` of the subtree at the end of a path. -/
theorem ivtRotateRight_run {s : Store T} {c : Path Addr} {x y : Addr}
    {l m r : BinaryTree Addr} (h : Rep s.linked (c.plug (.node x (.node y l m) r)))
    (hnodup : (inorder (c.plug (.node x (.node y l m) r))).Nodup)
    (hl : Cached s l) (hm : Cached s m) (hr : Cached s r) :
    ∃ s', (ivtRotateRight (refOf (slotOf c))).run s = .ok ((), s') ∧
      Placed s s' c (.node y l (.node x m r)) := by
  obtain ⟨hc, ht⟩ := rep_plug.1 h
  have hslot := hasSlot_of_pathLinks hc
  have hget := Ref.get_run hslot
  obtain ⟨nx, hroot, hnx, hparent, hy, _⟩ := exists_root ht
  obtain ⟨ny, hleft, hny, _, _, hmy⟩ := exists_root hy
  rw [hroot] at hget
  have hmem : ∀ a, ny.right = some a → a ∈ inorder m := fun a ha => hmy.rootLabel_mem ha
  obtain ⟨hrun₁, hrun₂, hrun₃⟩ := rotation_transplants_run (.right y) (.left x) (holder c)
    hslot hnx hny (fun a ha => exists_cells_of_mem hmy (hmem a ha)) rfl rfl
  have hmemt : ∀ a ∈ inorder (BinaryTree.node y l (.node x m r)),
      a ∈ inorder (c.plug (.node y l (.node x m r))) :=
    fun a ha => mem_inorder_plug.2 (.inl ha)
  have hframe := Frame.rotation s (.right y) (.left x) c (holder c) (m := ny.right)
    (S := inorder (.node y l (.node x m r))) (fun a ha => mem_inorder_plug.2 (.inr ha))
    (hmemt x (by simp)) (hmemt y (by simp)) (fun a ha => hmemt a (by simp [hmem a ha]))
    rfl rfl
  have hrep := rep_rotateRight h hnodup
  rw [← hmy.eq_rootLabel, Linked.rotateRight, ← Store.linked_transplant,
    ← Store.linked_transplant, ← Store.linked_transplant] at hrep
  have hcached : ∀ {t}, Cached s t → Cached (((s.transplant (slotOf c) (some y)
      (holder c)).transplant (.right y) (some x) (some y)).transplant (.left x) ny.right
        (some x)) t :=
    fun hct => hct.frame hframe.item fun a _ => by simp only [Store.cache_transplant]
  have hnodup' : (inorder (c.plug (.node y l (.node x m r)))).Nodup := by
    simpa [Path.inorder_plug] using hnodup
  obtain ⟨s', hrun, hplaced⟩ :=
    refresh_rotated_right hrep hnodup' (hcached hl) (hcached hm) (hcached hr)
  refine ⟨s', ?_, hplaced.of_frame hframe⟩
  rw [ivtRotateRight, run_bind_of_ok hget, run_bind_of_ok (deref_run hnx), hleft,
    run_bind_of_ok (deref_run hny), run_bind_of_ok hget, run_bind_of_ok (deref_run hnx),
    hparent, run_bind_of_ok hrun₁]
  exact (run_bind_of_ok hrun₂).trans ((run_bind_of_ok hrun₃).trans hrun)

/-- Two changes in a row, the first one below the second one. -/
theorem Placed.trans {s s' s'' : Store T} {c d : Path Addr} {t u : BinaryTree Addr}
    (h : Placed s s' (d.append c) t) (h' : Placed s' s'' c u)
    (hmem : ∀ a, a ∈ inorder u ↔ a ∈ inorder (d.plug t)) : Placed s s'' c u where
  rep := h'.rep
  cached := h'.cached
  frame := by
    refine (h.frame.mono ?_ ?_).trans h'.frame
    · intro a ha
      exact (hmem a).2 (mem_inorder_plug.2 (.inl ha))
    · intro a ha
      rw [Path.plug_append] at ha
      exact mem_inorder_plug.2 ((mem_inorder_plug.1 ha).imp_left (hmem a).2)

/-- `ivt_rotate_left_right` of the subtree at the end of a path. -/
theorem ivtRotateLeftRight_run {s : Store T} {c : Path Addr} {x y z : Addr}
    {l m m' r : BinaryTree Addr}
    (h : Rep s.linked (c.plug (.node x (.node y l (.node z m m')) r)))
    (hnodup : (inorder (c.plug (.node x (.node y l (.node z m m')) r))).Nodup)
    (hl : Cached s l) (hm : Cached s m) (hm' : Cached s m') (hr : Cached s r) :
    ∃ s', (ivtRotateLeftRight (refOf (slotOf c))).run s = .ok ((), s') ∧
      Placed s s' c (.node z (.node y l m) (.node x m' r)) := by
  obtain ⟨hc, ht⟩ := rep_plug.1 h
  obtain ⟨htn, _, _⟩ := nodup_plug.1 hnodup
  obtain ⟨_, _, _, _, hlr⟩ := nodup_inorder_node.1 htn
  have hget := Ref.get_run (hasSlot_of_pathLinks hc)
  obtain ⟨_, hroot, _⟩ := exists_root ht
  rw [hroot] at hget
  obtain ⟨s₁, hrun₁, hplaced₁⟩ := ivtRotateLeft_run (c := .left x r c) h hnodup hl hm hm'
  have hr₁ : Cached s₁ r := hr.frame hplaced₁.frame.item fun a ha =>
    hplaced₁.frame.cache a fun hat => hlr a (by simpa using hat) ha
  obtain ⟨_, hy₁, hm₁⟩ := hplaced₁.cached
  have hnodup₁ : (inorder (c.plug (.node x (.node z (.node y l m) m') r))).Nodup := by
    simpa [Path.inorder_plug] using hnodup
  obtain ⟨s₂, hrun₂, hplaced₂⟩ := ivtRotateRight_run (c := c) hplaced₁.rep hnodup₁ hy₁ hm₁ hr₁
  refine ⟨s₂, ?_, Placed.trans (d := .left x r .top) hplaced₁ hplaced₂ (by simp [Path.plug])⟩
  rw [ivtRotateLeftRight, run_bind_of_ok hget]
  exact (run_bind_of_ok hrun₁).trans hrun₂

/-- `ivt_rotate_right_left` of the subtree at the end of a path. -/
theorem ivtRotateRightLeft_run {s : Store T} {c : Path Addr} {x y z : Addr}
    {l m m' r : BinaryTree Addr}
    (h : Rep s.linked (c.plug (.node x l (.node y (.node z m m') r))))
    (hnodup : (inorder (c.plug (.node x l (.node y (.node z m m') r)))).Nodup)
    (hl : Cached s l) (hm : Cached s m) (hm' : Cached s m') (hr : Cached s r) :
    ∃ s', (ivtRotateRightLeft (refOf (slotOf c))).run s = .ok ((), s') ∧
      Placed s s' c (.node z (.node x l m) (.node y m' r)) := by
  obtain ⟨hc, ht⟩ := rep_plug.1 h
  obtain ⟨htn, _, _⟩ := nodup_plug.1 hnodup
  obtain ⟨_, _, _, _, hlr⟩ := nodup_inorder_node.1 htn
  have hget := Ref.get_run (hasSlot_of_pathLinks hc)
  obtain ⟨_, hroot, _⟩ := exists_root ht
  rw [hroot] at hget
  obtain ⟨s₁, hrun₁, hplaced₁⟩ := ivtRotateRight_run (c := .right x l c) h hnodup hm hm' hr
  have hl₁ : Cached s₁ l := hl.frame hplaced₁.frame.item fun a ha =>
    hplaced₁.frame.cache a fun hat => hlr a ha (by simpa using hat)
  obtain ⟨_, hm₁, hy₁⟩ := hplaced₁.cached
  have hnodup₁ : (inorder (c.plug (.node x l (.node z m (.node y m' r))))).Nodup := by
    simpa [Path.inorder_plug] using hnodup
  obtain ⟨s₂, hrun₂, hplaced₂⟩ := ivtRotateLeft_run (c := c) hplaced₁.rep hnodup₁ hl₁ hm₁ hy₁
  refine ⟨s₂, ?_, Placed.trans (d := .right x l .top) hplaced₁ hplaced₂ (by simp [Path.plug])⟩
  rw [ivtRotateRightLeft, run_bind_of_ok hget]
  exact (run_bind_of_ok hrun₁).trans hrun₂

/-! ## Rebalancing -/

/-- `ivt_balance` of a pointer to a cached tree, which may be null. -/
theorem ivtBalance_run_of_links {s : Store T} {par p : Option Addr} {t : BinaryTree Addr}
    (h : Links s.linked par p t) (hc : Cached s t) :
    (ivtBalance p).run s = .ok ((t.left.height : Int) - t.right.height, s) := by
  cases t with
  | nil =>
    cases h
    rfl
  | node a l r =>
    obtain ⟨n, rfl, hn, _, hl, hr⟩ := exists_root h
    exact ivtBalance_run hn hl hr hc.2.1 hc.2.2

/-- The rotation that the code picks when the left subtree is too high. -/
theorem rotate_left_heavy_run {s : Store T} {c : Path Addr} {a : Addr} {l r : BinaryTree Addr}
    (h : Rep s.linked (c.plug (.node a l r)))
    (hnodup : (inorder (c.plug (.node a l r))).Nodup) (hl : Cached s l) (hr : Cached s r)
    (hlt : r.height + 1 < l.height) :
    ∃ s', (if (l.left.height : Int) - l.right.height < 0
        then ivtRotateLeftRight (refOf (slotOf c))
        else ivtRotateRight (refOf (slotOf c))).run s = .ok ((), s') ∧
      Placed s s' c (rebalance (.node a l r)) := by
  rw [rebalance, if_pos hlt]
  by_cases hlean : l.left.height < l.right.height
  · rw [if_pos (by omega), if_pos hlean]
    cases l with
    | nil => simp at hlt
    | node y ll lr =>
      cases lr with
      | nil => simp at hlean
      | node z m m' => exact ivtRotateLeftRight_run h hnodup hl.2.1 hl.2.2.2.1 hl.2.2.2.2 hr
  · rw [if_neg (by omega), if_neg hlean]
    cases l with
    | nil => simp at hlt
    | node y ll lr => exact ivtRotateRight_run h hnodup hl.2.1 hl.2.2 hr

/-- The rotation that the code picks when the right subtree is too high. -/
theorem rotate_right_heavy_run {s : Store T} {c : Path Addr} {a : Addr}
    {l r : BinaryTree Addr} (h : Rep s.linked (c.plug (.node a l r)))
    (hnodup : (inorder (c.plug (.node a l r))).Nodup) (hl : Cached s l) (hr : Cached s r)
    (hlt : l.height + 1 < r.height) :
    ∃ s', (if (r.left.height : Int) - r.right.height > 0
        then ivtRotateRightLeft (refOf (slotOf c))
        else ivtRotateLeft (refOf (slotOf c))).run s = .ok ((), s') ∧
      Placed s s' c (rebalance (.node a l r)) := by
  have hge : ¬ r.height + 1 < l.height := by omega
  rw [rebalance, if_neg hge, if_pos hlt]
  by_cases hlean : r.right.height < r.left.height
  · rw [if_pos (by omega), if_pos hlean]
    cases r with
    | nil => simp at hlt
    | node y rl rr =>
      cases rl with
      | nil => simp at hlean
      | node z m m' => exact ivtRotateRightLeft_run h hnodup hl hr.2.1.2.1 hr.2.1.2.2 hr.2.2
  · rw [if_neg (by omega), if_neg hlean]
    cases r with
    | nil => simp at hlt
    | node y rl rr => exact ivtRotateLeft_run h hnodup hl hr.2.1 hr.2.2

/-- `ivt_rebalance` of the subtree at the end of a path. -/
theorem ivtRebalance_run {s : Store T} {c : Path Addr} {a : Addr} {l r : BinaryTree Addr}
    (h : Rep s.linked (c.plug (.node a l r)))
    (hnodup : (inorder (c.plug (.node a l r))).Nodup) (hl : Cached s l) (hr : Cached s r) :
    ∃ s', (ivtRebalance (refOf (slotOf c))).run s = .ok ((), s') ∧
      Placed s s' c (rebalance (.node a l r)) := by
  obtain ⟨hc, ht⟩ := rep_plug.1 h
  obtain ⟨htn, _, _⟩ := nodup_plug.1 hnodup
  obtain ⟨_, hroot, _⟩ := exists_root ht
  have hget := Ref.get_run (hasSlot_of_pathLinks hc)
  rw [hroot] at hget
  obtain ⟨s₁, hrun₁, hlinked₁, hcached₁, hframe₁⟩ := exists_ivtRefresh ht htn hl hr
  rw [← hlinked₁] at h hc ht
  have hget₁ := Ref.get_run (hasSlot_of_pathLinks hc)
  obtain ⟨n, hroot₁, hn, _, hleft, hright⟩ := exists_root ht
  rw [hroot₁] at hget₁
  obtain ⟨_, hl₁, hr₁⟩ := id hcached₁
  have hplace : ∀ {s'}, Placed s₁ s' c (rebalance (.node a l r)) →
      Placed s s' c (rebalance (.node a l r)) := by
    intro s' h
    refine h.of_frame ((hframe₁ _).mono ?_ (List.Subset.refl _))
    simp
  rw [ivtRebalance, run_bind_of_ok hget]
  simp only [Option.isNone_some, Bool.false_eq_true, if_false]
  rw [run_bind_of_ok hget, run_bind_of_ok hrun₁, run_bind_of_ok hget₁,
    run_bind_of_ok (ivtBalance_run hn hleft hright hl₁ hr₁)]
  by_cases hlh : r.height + 1 < l.height
  · obtain ⟨s', hrun, hplaced⟩ := rotate_left_heavy_run h hnodup hl₁ hr₁ hlh
    refine ⟨s', ?_, hplace hplaced⟩
    have hgt : (l.height : Int) - r.height > 1 := by omega
    have hge : ¬ (l.height : Int) - r.height < -1 := by omega
    simp only [hgt, hge, if_true, if_false]
    rw [run_bind_of_ok hget₁, run_bind_of_ok (deref_run hn),
      run_bind_of_ok (ivtBalance_run_of_links hleft hl₁)]
    split_ifs at hrun ⊢ with hlean
    · exact run_bind_of_ok hrun
    · exact run_bind_of_ok hrun
  · have hle : ¬ (l.height : Int) - r.height > 1 := by omega
    by_cases hrh : l.height + 1 < r.height
    · obtain ⟨s', hrun, hplaced⟩ := rotate_right_heavy_run h hnodup hl₁ hr₁ hrh
      refine ⟨s', ?_, hplace hplaced⟩
      have hlt : (l.height : Int) - r.height < -1 := by omega
      simp only [hle, hlt, if_true, if_false]
      rw [run_bind_of_ok hget₁, run_bind_of_ok (deref_run hn),
        run_bind_of_ok (ivtBalance_run_of_links hright hr₁)]
      exact hrun
    · have hge : ¬ (l.height : Int) - r.height < -1 := by omega
      have hkeep : rebalance (.node a l r) = .node a l r := by
        rw [rebalance, if_neg hlh, if_neg hrh]
      rw [hkeep]
      simp only [hle, hge, if_false]
      refine ⟨s₁, rfl, h, hcached₁, (hframe₁ _).mono ?_ (List.Subset.refl _)⟩
      simp

end Mwr.Interval
