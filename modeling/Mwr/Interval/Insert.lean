import Mwr.Interval.Rebalance

/-!
# Insertion

`ivtInsert_run` runs the recursion of `ivt_insert` at any place of a tree: it
is `AvlTree.insert` by the starts of the intervals.  `insert_run` is the method
of the tree object, which keeps the invariant.
-/

namespace Mwr.Interval

open BinaryTree
open Mwr.CodeLib
open Mwr.CodeLib.AvlTree (Path inorder inorder_insert_perm mem_inorder_insert inorder_insert
  balanced_insert)
open Mwr.CodeLib.LinkedTree
open Mwr.CodeLib.Exec

variable {T : Type}

/-- The two writes to a fresh node and to a place may be swapped. -/
theorem setSlot_setParent {s : Store T} {a : Addr} {sl : Slot Addr} (h : sl.holder ≠ some a)
    (p par : Option Addr) :
    (s.setParent par (some a)).setSlot p sl = (s.setSlot p sl).setParent par (some a) := by
  cases sl with
  | root => rfl
  | left b =>
    have hab : b ≠ a := fun hba => h (by rw [hba]; rfl)
    simp [Store.setSlot, Store.setParent, Store.upd, Function.update_comm hab, hab, hab.symm]
  | right b =>
    have hab : b ≠ a := fun hba => h (by rw [hba]; rfl)
    simp [Store.setSlot, Store.setParent, Store.upd, Function.update_comm hab, hab, hab.symm]

/-- An empty place takes the fresh node. -/
theorem placed_fresh {s : Store T} {c : Path Addr} {a : Addr} {n : IvtNode T}
    (hn : s.cells a = some n) (hleft : n.left = none) (hright : n.right = none)
    (hfresh : Cached s (.node a .nil .nil)) (h : Rep s.linked (c.plug .nil))
    (hnodup : (inorder (c.plug .nil)).Nodup) (ha : a ∉ inorder (c.plug .nil)) :
    Placed s (s.transplant (slotOf c) (some a) (holder c)) c (.node a .nil .nil) where
  rep := by
    have hlink : Links s.linked n.parent (some a) (.node a .nil .nil) := by
      refine ⟨rfl, n.link, ?_, rfl, hleft, hright⟩
      simp [Store.linked, hn]
    rw [Store.linked_transplant]
    exact rep_transplant (rep_plug.1 h).1 hlink (nodup_plug_of_perm_cons hnodup ha (.refl _))
  cached := hfresh.frame (s.item_transplant _ _ _) fun _ _ => by rw [Store.cache_transplant]
  frame := by
    refine Frame.transplant s (fun b hb => ?_) (fun b hb => ?_)
    · exact mem_inorder_plug.2 (.inr (mem_labels_of_holder hb))
    · cases hb
      exact mem_inorder_plug.2 (.inl (by simp))

/-- Rebalancing after the insertion into the left subtree. -/
theorem rebalance_left_run {s s₁ : Store T} {c : Path Addr} {a b : Addr}
    {l l' r : BinaryTree Addr} (hnodup : (inorder (c.plug (.node b l r))).Nodup)
    (ha : a ∉ inorder (c.plug (.node b l r))) (hr : Cached s r)
    (hperm : (inorder l').Perm (a :: inorder l)) (hplaced : Placed s s₁ (.left b r c) l') :
    ∃ s', (ivtRebalance (refOf (slotOf c))).run s₁ = .ok ((), s') ∧
      Placed s s' c (AvlTree.rebalance (.node b l' r)) := by
  obtain ⟨_, _, _, _, hlr⟩ := AvlTree.nodup_inorder_node.1 (nodup_plug.1 hnodup).1
  have har : a ∉ inorder r := fun har => ha (mem_inorder_plug.2 (.inl (by simp [har])))
  have hr₁ : Cached s₁ r := by
    refine hr.frame hplaced.frame.item fun q hq => hplaced.frame.cache q fun hql => ?_
    rcases List.mem_cons.1 (hperm.mem_iff.1 hql) with rfl | hql
    · exact har hq
    · exact hlr q hql hq
  have hperm' : (inorder (.node b l' r)).Perm (a :: inorder (.node b l r)) := by
    rw [AvlTree.inorder_node, AvlTree.inorder_node, ← List.cons_append]
    exact hperm.append_right _
  obtain ⟨s', hrun, hplaced'⟩ := ivtRebalance_run (c := c) hplaced.rep
    (nodup_plug_of_perm_cons hnodup ha hperm') hplaced.cached hr₁
  exact ⟨s', hrun, Placed.trans (d := .left b r .top) hplaced hplaced' (by simp [Path.plug])⟩

/-- Rebalancing after the insertion into the right subtree. -/
theorem rebalance_right_run {s s₁ : Store T} {c : Path Addr} {a b : Addr}
    {l r r' : BinaryTree Addr} (hnodup : (inorder (c.plug (.node b l r))).Nodup)
    (ha : a ∉ inorder (c.plug (.node b l r))) (hl : Cached s l)
    (hperm : (inorder r').Perm (a :: inorder r)) (hplaced : Placed s s₁ (.right b l c) r') :
    ∃ s', (ivtRebalance (refOf (slotOf c))).run s₁ = .ok ((), s') ∧
      Placed s s' c (AvlTree.rebalance (.node b l r')) := by
  obtain ⟨_, _, _, _, hlr⟩ := AvlTree.nodup_inorder_node.1 (nodup_plug.1 hnodup).1
  have hal : a ∉ inorder l := fun hal => ha (mem_inorder_plug.2 (.inl (by simp [hal])))
  have hl₁ : Cached s₁ l := by
    refine hl.frame hplaced.frame.item fun q hq => hplaced.frame.cache q fun hqr => ?_
    rcases List.mem_cons.1 (hperm.mem_iff.1 hqr) with rfl | hqr
    · exact hal hq
    · exact hlr q hq hqr
  have hperm' : (inorder (.node b l r')).Perm (a :: inorder (.node b l r)) := by
    rw [AvlTree.inorder_node, AvlTree.inorder_node]
    refine ((hperm.cons b).append_left _).trans ?_
    exact ((List.Perm.swap a b _).append_left _).trans List.perm_middle
  obtain ⟨s', hrun, hplaced'⟩ := ivtRebalance_run (c := c) hplaced.rep
    (nodup_plug_of_perm_cons hnodup ha hperm') hl₁ hplaced.cached
  exact ⟨s', hrun, Placed.trans (d := .right b l .top) hplaced hplaced' (by simp [Path.plug])⟩

/-- The recursion of `ivt_insert`, for a fresh node `a` and the subtree `t` at
the end of the path `c`. -/
theorem ivtInsert_run {s : Store T} {a : Addr} {n : IvtNode T} (hn : s.cells a = some n)
    (hleft : n.left = none) (hright : n.right = none) (hfresh : Cached s (.node a .nil .nil)) :
    ∀ (fuel : Nat) {t : BinaryTree Addr} {c : Path Addr}, Rep s.linked (c.plug t) →
      (inorder (c.plug t)).Nodup → Cached s t → a ∉ inorder (c.plug t) → t.height < fuel →
      ∃ s', (ivtInsert fuel (refOf (slotOf c)) (some a) (holder c)).run s = .ok ((), s') ∧
        Placed s s' c (AvlTree.insert s.le a t)
  | 0, _, _, _, _, _, _, hfuel => absurd hfuel (Nat.not_lt_zero _)
  | fuel + 1, .nil, c, h, hnodup, _, ha, _ => by
    obtain ⟨hc, hroot⟩ := rep_plug.1 h
    have hget := Ref.get_run (hasSlot_of_pathLinks hc)
    have hac : a ∉ c.labels := fun hac => ha (mem_inorder_plug.2 (.inr hac))
    have hholder : (slotOf c).holder ≠ some a := fun h => hac (mem_labels_of_holder h)
    have hslot : HasSlot (s.setParent (holder c) (some a)) (slotOf c) := by
      intro b hb
      obtain ⟨m, hm⟩ := hasSlot_of_pathLinks hc b hb
      exact exists_cells_upd hm _
    refine ⟨_, ?_, placed_fresh hn hleft hright hfresh h hnodup ha⟩
    rw [ivtInsert]
    simp only [Option.isNone_some, Bool.false_eq_true, if_false]
    rw [run_bind_of_ok hget, hroot]
    simp only [Option.isNone_none, if_true]
    rw [run_bind_of_ok (assign_run hn _)]
    refine (run_bind_of_ok (Ref.set_run hslot _)).trans ?_
    exact congrArg (fun s => Except.ok ((), s)) (setSlot_setParent hholder _ _)
  | fuel + 1, .node b l r, c, h, hnodup, hcached, ha, hfuel => by
    obtain ⟨hc, ht⟩ := rep_plug.1 h
    have hget := Ref.get_run (hasSlot_of_pathLinks hc)
    obtain ⟨m, hroot, hm, _, _, _⟩ := exists_root ht
    rw [hroot] at hget
    obtain ⟨_, hl, hr⟩ := hcached
    rw [height] at hfuel
    have hle : (n.lo ≤ m.lo) ↔ s.le a b := by
      rw [Store.le, Store.lo_of_cells hn, Store.lo_of_cells hm]
    rw [ivtInsert]
    simp only [Option.isNone_some, Bool.false_eq_true, if_false]
    rw [run_bind_of_ok hget]
    simp only [Option.isNone_some, Bool.false_eq_true, if_false]
    rw [run_bind_of_ok (deref_run hn), run_bind_of_ok hget, run_bind_of_ok (deref_run hm)]
    by_cases hlo : s.le a b
    · obtain ⟨s₁, hrun₁, hplaced₁⟩ := ivtInsert_run hn hleft hright hfresh fuel
        (t := l) (c := .left b r c) h hnodup hl ha (by omega)
      obtain ⟨s₂, hrun₂, hplaced₂⟩ :=
        rebalance_left_run hnodup ha hr (inorder_insert_perm s.le a l) hplaced₁
      rw [if_pos (hle.2 hlo), AvlTree.insert, if_pos hlo, run_bind_of_ok hget,
        run_bind_of_ok hget]
      exact ⟨s₂, (run_bind_of_ok hrun₁).trans hrun₂, hplaced₂⟩
    · obtain ⟨s₁, hrun₁, hplaced₁⟩ := ivtInsert_run hn hleft hright hfresh fuel
        (t := r) (c := .right b l c) h hnodup hr ha (by omega)
      obtain ⟨s₂, hrun₂, hplaced₂⟩ :=
        rebalance_right_run hnodup ha hl (inorder_insert_perm s.le a r) hplaced₁
      rw [if_neg fun h => hlo (hle.1 h), AvlTree.insert, if_neg hlo, run_bind_of_ok hget,
        run_bind_of_ok hget]
      exact ⟨s₂, (run_bind_of_ok hrun₁).trans hrun₂, hplaced₂⟩

/-! ## The method -/

/-- A new node caches its own interval. -/
theorem cached_new {s : Store T} {a : Addr} {start stop : UInt64} {data : T}
    (h : s.cells a = some (IvtNode.new start stop data)) : Cached s (.node a .nil .nil) := by
  have hlo : s.lo a = start := Store.lo_of_cells h
  have hhi : s.hi a = stop := Store.hi_of_cells h
  refine ⟨⟨⟨1, start, stop⟩, ?_, rfl, ⟨⟨a, by simp, hlo⟩, ?_⟩, ⟨a, by simp, hhi⟩, ?_⟩,
    trivial, trivial⟩
  · rw [Store.cache, h]
    rfl
  · rintro v ⟨b, hb, rfl⟩
    have hba : b = a := by simpa using hb
    rw [hba, hlo]
    exact UInt64.le_refl _
  · rintro v ⟨b, hb, rfl⟩
    have hba : b = a := by simpa using hb
    rw [hba, hhi]
    exact UInt64.le_refl _

/-- What a successful `insert` of a fresh node does. -/
structure Inserted (s s' : Store T) (t : BinaryTree Addr) (a : Addr) (start stop : UInt64)
    (data : T) : Prop where
  wf : Wf s' (AvlTree.insert s'.le a t)
  order : AvlTree.inorder (AvlTree.insert s'.le a t) =
    (AvlTree.inorder t).orderedInsert s'.le a
  item : s'.item = Function.update s.item a (some ⟨start, stop, data⟩)
  frame : ∀ b, b ∉ AvlTree.inorder t → b ≠ a → s'.cells b = s.cells b

/-- `new` puts a fresh node beside a tree. -/
theorem Wf.alloc {s : Store T} {t : BinaryTree Addr} (h : Wf s t) {a : Addr}
    (ha : s.cells a = none) (n : IvtNode T) : a ∉ inorder t ∧ Wf (s.put a n) t := by
  have hat : a ∉ inorder t := by
    intro hat
    obtain ⟨m, hm⟩ := exists_cells_of_mem h.rep hat
    rw [ha] at hm
    cases hm
  refine ⟨hat, h.congr_cells rfl rfl fun b hb => ?_⟩
  exact Function.update_of_ne (ne_of_mem_of_not_mem hb hat) _ _

/-- `insert` of an interval that is not empty succeeds on every tree. -/
theorem insert_run {s : Store T} {t : BinaryTree Addr} (h : Wf s t) {a : Addr}
    (ha : s.cells a = none) {start stop : UInt64} (hle : start ≤ stop) (data : T) :
    ∃ s', (insert a start stop data).run s = .ok (some a, s') ∧
      Inserted s s' t a start stop data := by
  obtain ⟨hat, h₁⟩ := h.alloc ha (IvtNode.new start stop data)
  generalize hs₁ : s.put a (IvtNode.new start stop data) = s₁ at h₁
  have hn₁ : s₁.cells a = some (IvtNode.new start stop data) := by
    rw [← hs₁]
    exact Function.update_self _ _ _
  have halloc : (alloc a (IvtNode.new start stop data)).run s = .ok ((), s₁) := by
    rw [alloc, run_bind_of_ok (run_get_eq s), ← hs₁]
    simp only [ha, run_set_eq]
  have hitem₁ : s₁.item = Function.update s.item a (some ⟨start, stop, data⟩) := by
    funext b
    rw [← hs₁]
    by_cases hb : b = a
    · simp [Store.item, Store.put, hb, IvtNode.new, IvtNode.item]
    · simp [Store.item, Store.put, hb]
  obtain ⟨s₂, hrun₂, hplaced⟩ := ivtInsert_run hn₁ rfl rfl (cached_new hn₁) s₁.bound
    (c := .top) h₁.rep h₁.nodup h₁.cached hat h₁.height_lt_bound
  -- the count is no part of the tree
  let s' : Store T := { s₂ with size := s₂.size + 1 }
  have hitem : s'.item = s₁.item := hplaced.frame.item
  have hle' : s'.le = s₁.le := Store.le_congr hitem
  have hinsert : AvlTree.insert s'.le a t = AvlTree.insert s₁.le a t :=
    AvlTree.insert_congr (fun _ _ => by rw [hle']) a t
  have hsorted : (inorder t).Pairwise s'.le := hle' ▸ h₁.sorted
  have hinorder : inorder (AvlTree.insert s'.le a t) = (inorder t).orderedInsert s'.le a :=
    inorder_insert s'.le (fun h h' => UInt64.le_trans h h') a hsorted
  have hperm := inorder_insert_perm s'.le a t
  refine ⟨s', ?_, ⟨?_, ?_, ?_, ?_, ?_, ?_, ?_⟩, hinorder, hitem.trans hitem₁, ?_⟩
  · rw [insert, run_bind_of_ok (checkInterval_run hle), run_bind_of_ok halloc,
      run_bind_of_ok (run_get_eq s₁)]
    exact (run_bind_of_ok hrun₂).trans rfl
  · rw [hinsert]
    exact hplaced.rep
  · rw [hperm.nodup_iff, List.nodup_cons]
    exact ⟨hat, h₁.nodup⟩
  · rw [hinsert]
    exact hplaced.cached.frame rfl fun _ _ => rfl
  · exact (balanced_insert s'.le a h₁.balanced).1
  · rw [hinorder]
    exact hsorted.orderedInsert a (inorder t)
  · intro b hb
    rw [Store.lo_congr (congrFun hitem b), Store.hi_congr (congrFun hitem b)]
    rcases (mem_inorder_insert s'.le).1 hb with rfl | hb
    · rw [Store.lo_of_cells hn₁, Store.hi_of_cells hn₁]
      exact hle
    · exact h₁.proper b hb
  · have hlen := hperm.length_eq
    rw [AvlTree.length_inorder, List.length_cons, AvlTree.length_inorder] at hlen
    rw [hlen, ← h₁.size, ← hplaced.frame.size]
  · intro b hbt hba
    have hb : b ∉ inorder (AvlTree.insert s₁.le a t) := fun h =>
      ((mem_inorder_insert s₁.le).1 h).elim hba hbt
    rw [← Function.update_of_ne hba (some (IvtNode.new start stop data)) s.cells]
    exact (hplaced.frame.cells hb hb).trans (by rw [← hs₁]; rfl)

end Mwr.Interval
