import Mwr.Interval.Rebalance

/-!
# Removal

`unlink_run` runs the part of `ivt_remove` that takes a node out of the tree.
A node with two subtrees is replaced by its predecessor, and the two shapes of
this, the predecessor being the left child or not, are separate lemmas.
`rebalanceUp_run` is `AvlTree.ascend`, and `remove_run` is the method of the
tree object.
-/

namespace Mwr.Interval

open BinaryTree
open Mwr.CodeLib
open Mwr.CodeLib.AvlTree (Path inorder ascend rightmost removeAt)
open Mwr.CodeLib.LinkedTree
open Mwr.CodeLib.Exec

variable {T : Type}

/-! ## Finding a node and its predecessor -/

/-- `ivt_ref` finds the slot that points to a node of the tree. -/
theorem ivtRef_run {s : Store T} {c : Path Addr} {a : Addr} {n : IvtNode T}
    (hc : PathLinks s.linked c) (hslot : s.linked.slot (slotOf c) = some a)
    (hn : s.cells a = some n) (hpar : n.parent = holder c) (hac : a ∉ c.labels) :
    (ivtRef .rootField (some a)).run s = .ok (refOf (slotOf c), s) := by
  rw [ivtRef, run_bind_of_ok (deref_run hn), hpar]
  cases c with
  | top => rfl
  | left b r up =>
    obtain ⟨m, hm⟩ := hasSlot_of_pathLinks hc b rfl
    have hleft : m.left = some a := (slot_left_of_cells hm).symm.trans hslot
    simp only [holder, slotOf, Slot.holder, Option.isNone_some, Bool.false_eq_true, if_false]
    rw [run_bind_of_ok (deref_run hm), hleft]
    simp [refOf]
  | right b l up =>
    obtain ⟨_, ⟨k, hk, _, hl⟩, _⟩ := hc
    obtain ⟨m, hm, rfl⟩ := Store.exists_cells hk
    have hleft : ¬ (some a == m.left) = true := by
      intro heq
      exact hac (mem_labels_right.2 (.inr (.inl (hl.rootLabel_mem (beq_iff_eq.1 heq).symm))))
    simp only [holder, slotOf, Slot.holder, Option.isNone_some, Bool.false_eq_true, if_false]
    rw [run_bind_of_ok (deref_run hm), if_neg hleft]
    rfl

/-- `ivt_last` walks to the last node of a subtree. -/
theorem ivtLast_run {s : Store T} {r : BinaryTree Addr} :
    ∀ {fuel : Nat} {c : Path Addr} {b : Addr} {l : BinaryTree Addr} {par : Option Addr},
      Links s.linked par (some b) (.node b l r) → r.height < fuel →
      (ivtLast fuel (some b)).run s = .ok (some (rightmost c b l r).2.1, s) := by
  induction r with
  | nil =>
    intro fuel c b l par h hfuel
    obtain ⟨n, _, hn, _, _, hr⟩ := exists_root h
    cases fuel with
    | zero => exact absurd hfuel (Nat.not_lt_zero _)
    | succ fuel =>
      rw [ivtLast]
      simp only [Option.isNone_some, Bool.false_eq_true, if_false]
      rw [run_bind_of_ok (deref_run hn), show n.right = none from hr]
      rfl
  | node b' l' r' _ ih =>
    intro fuel c b l par h hfuel
    obtain ⟨n, _, hn, _, _, hr⟩ := exists_root h
    cases fuel with
    | zero => exact absurd hfuel (Nat.not_lt_zero _)
    | succ fuel =>
      have hright : n.right = some b' := hr.eq_rootLabel
      rw [hright] at hr
      rw [ivtLast]
      simp only [Option.isNone_some, Bool.false_eq_true, if_false]
      rw [run_bind_of_ok (deref_run hn), hright]
      simp only [Option.isNone_some, Bool.false_eq_true, if_false]
      rw [height] at hfuel
      exact ih hr (by omega)

/-- The predecessor of a node with a left subtree is the last node of that
subtree. -/
theorem ivtPrev_run {s : Store T} (fuel : Nat) {a b : Addr} {n : IvtNode T}
    {l r : BinaryTree Addr} (c : Path Addr) (hn : s.cells a = some n)
    (hleft : Links s.linked (some a) n.left (.node b l r)) (hfuel : r.height < fuel) :
    (ivtPrev fuel (some a)).run s = .ok (some (rightmost c b l r).2.1, s) := by
  have hb : n.left = some b := hleft.eq_rootLabel
  rw [hb] at hleft
  rw [ivtPrev]
  simp only [Option.isNone_some, Bool.false_eq_true, if_false]
  rw [run_bind_of_ok (deref_run hn), hb]
  simp only [Option.isSome_some, if_true]
  exact ivtLast_run hleft hfuel

/-! ## Rebalancing up to the root -/

/-- One turn of the loop: the node `a` at the end of a path is rebalanced, and
the loop goes on with its parent. -/
theorem rebalanceUp_step {s : Store T} {c : Path Addr} {a : Addr} {l r : BinaryTree Addr}
    (fuel : Nat) (h : Rep s.linked (c.plug (.node a l r)))
    (hnodup : (inorder (c.plug (.node a l r))).Nodup) (hc : PathCached s c) (hl : Cached s l)
    (hr : Cached s r) :
    ∃ s', (rebalanceUp (fuel + 1) .rootField (some a)).run s =
        (rebalanceUp fuel .rootField (holder c)).run s' ∧
      Rep s'.linked (c.plug (AvlTree.rebalance (.node a l r))) ∧ PathCached s' c ∧
      Cached s' (AvlTree.rebalance (.node a l r)) ∧
      Frame s s' (inorder (c.plug (.node a l r))) (inorder (c.plug (.node a l r))) := by
  obtain ⟨hpath, ht⟩ := rep_plug.1 h
  obtain ⟨_, _, hdisj⟩ := nodup_plug.1 hnodup
  obtain ⟨n, hslot, hn, hpar, _, _⟩ := exists_root ht
  have href := ivtRef_run hpath hslot hn hpar (hdisj a (by simp))
  obtain ⟨s', hrun, hplaced⟩ := ivtRebalance_run h hnodup hl hr
  have hlabels := Path.inorder_plug_rebalance c (.node a l r)
  refine ⟨s', ?_, hplaced.rep, ?_, hplaced.cached, ?_⟩
  · rw [rebalanceUp]
    simp only [Option.isNone_some, Bool.false_eq_true, if_false]
    rw [run_bind_of_ok (deref_run hn), run_bind_of_ok href, run_bind_of_ok hrun, hpar]
  · refine hc.frame hplaced.frame.item fun b hb => hplaced.frame.cache b fun hbt => ?_
    rw [AvlTree.inorder_rebalance] at hbt
    exact hdisj b hbt hb
  · rw [← hlabels]
    exact hplaced.frame.mono (fun b hb => mem_inorder_plug.2 (.inl hb)) (List.Subset.refl _)

/-- `while (rebalance) { ... }`, from the holder of the hole to the root. -/
theorem rebalanceUp_run {c : Path Addr} :
    ∀ {s : Store T} {t : BinaryTree Addr} {fuel : Nat}, Rep s.linked (c.plug t) →
      (inorder (c.plug t)).Nodup → PathCached s c → Cached s t → c.depth < fuel →
      ∃ s', (rebalanceUp fuel .rootField (holder c)).run s = .ok ((), s') ∧
        Rep s'.linked (ascend c t) ∧ Cached s' (ascend c t) ∧
        Frame s s' (inorder (c.plug t)) (inorder (c.plug t)) := by
  induction c with
  | top =>
    intro s t fuel h _ _ ht hfuel
    cases fuel with
    | zero => exact absurd hfuel (Nat.not_lt_zero _)
    | succ fuel => exact ⟨s, rfl, h, ht, Frame.refl s _ _⟩
  | left a r up ih =>
    intro s t fuel h hnodup hc ht hfuel
    cases fuel with
    | zero => exact absurd hfuel (Nat.not_lt_zero _)
    | succ fuel =>
      obtain ⟨s₁, hrun₁, hrep₁, hup₁, ht₁, hframe₁⟩ :=
        rebalanceUp_step fuel (c := up) h hnodup hc.2 ht hc.1
      have hlabels := Path.inorder_plug_rebalance up (.node a t r)
      obtain ⟨s₂, hrun₂, hrep₂, ht₂, hframe₂⟩ :=
        ih hrep₁ (hlabels ▸ hnodup) hup₁ ht₁ (Nat.lt_of_succ_lt_succ hfuel)
      rw [hlabels] at hframe₂
      exact ⟨s₂, hrun₁.trans hrun₂, hrep₂, ht₂, hframe₁.trans hframe₂⟩
  | right a l up ih =>
    intro s t fuel h hnodup hc ht hfuel
    cases fuel with
    | zero => exact absurd hfuel (Nat.not_lt_zero _)
    | succ fuel =>
      obtain ⟨s₁, hrun₁, hrep₁, hup₁, ht₁, hframe₁⟩ :=
        rebalanceUp_step fuel (c := up) h hnodup hc.2 hc.1 ht
      have hlabels := Path.inorder_plug_rebalance up (.node a l t)
      obtain ⟨s₂, hrun₂, hrep₂, ht₂, hframe₂⟩ :=
        ih hrep₁ (hlabels ▸ hnodup) hup₁ ht₁ (Nat.lt_of_succ_lt_succ hfuel)
      rw [hlabels] at hframe₂
      exact ⟨s₂, hrun₁.trans hrun₂, hrep₂, ht₂, hframe₁.trans hframe₂⟩

/-! ## Unlinking a node -/

/-- What unlinking the node `a` at the end of the path `c` leaves: a tree with
the rest of the nodes, and a path from where the rebalancing starts. -/
structure Unlinked (s s' : Store T) (c : Path Addr) (t : BinaryTree Addr) (d : Path Addr)
    (u : BinaryTree Addr) : Prop where
  rep : Rep s'.linked (d.plug u)
  removal : removeAt c t = ascend d u
  pathCached : PathCached s' d
  cached : Cached s' u
  frame : Frame s s' [] (inorder (c.plug t))

/-- A node with at most one subtree `u` makes way for it. -/
theorem makeWay_run {s : Store T} {c : Path Addr} {a : Addr} {n : IvtNode T}
    {l r u : BinaryTree Addr} {p : Option Addr} (h : Rep s.linked (c.plug (.node a l r)))
    (hnodup : (inorder (c.plug (.node a l r))).Nodup) (hn : s.cells a = some n)
    (hu : Links s.linked (some a) p u) (hun : (inorder u).Nodup)
    (hsub : ∀ b ∈ inorder u, b ∈ inorder (.node a l r)) (hau : a ∉ inorder u) :
    ∃ s', (ivtRef .rootField (some a)).run s = .ok (refOf (slotOf c), s) ∧
      (ivtTransplant (refOf (slotOf c)) p n.parent).run s = .ok ((), s') ∧
      n.parent = holder c ∧ s'.cells a = some n ∧ Rep s'.linked (c.plug u) ∧
      (inorder (c.plug u)).Nodup ∧ a ∉ inorder (c.plug u) ∧ s'.cache = s.cache ∧
      Frame s s' [] (inorder (c.plug (.node a l r))) := by
  obtain ⟨hc, ht⟩ := rep_plug.1 h
  obtain ⟨m, hslot, hm, hpar, _⟩ := exists_root ht
  cases hn.symm.trans hm
  have hac : a ∉ c.labels := (nodup_plug.1 hnodup).2.2 a (by simp)
  have hnodup' := nodup_plug_of_subset hnodup hun hsub
  have htransplant := ivtTransplant_run (hasSlot_of_pathLinks hc)
    (fun b hb => exists_cells_of_mem hu (hu.rootLabel_mem hb)) (holder c)
  refine ⟨s.transplant (slotOf c) p (holder c), ivtRef_run hc hslot hn hpar hac, ?_, hpar, ?_,
    ?_, hnodup', ?_, s.cache_transplant _ _ _, ?_⟩
  · rw [hpar, htransplant]
  · rw [s.cells_transplant_of_ne (fun h => hac (mem_labels_of_holder h.symm))
      (fun h => hau (hu.rootLabel_mem h.symm)), hn]
  · rw [Store.linked_transplant]
    exact rep_transplant hc hu hnodup'
  · rw [mem_inorder_plug]
    exact fun h => h.elim hau hac
  · refine Frame.transplant s (fun b hb => ?_) (fun b hb => ?_)
    · exact mem_inorder_plug.2 (.inr (mem_labels_of_holder hb))
    · exact mem_inorder_plug.2 (.inl (hsub b (hu.rootLabel_mem hb)))

/-- The state in which `takePlace` is called: the detached node `p` has the
left subtree `l` already, and `a` is still in place with the right subtree `r`. -/
structure ReadyToReplace (s : Store T) (c : Path Addr) (a p : Addr) (l r : BinaryTree Addr) :
    Prop where
  path : PathLinks s.linked c
  slot : s.linked.slot (slotOf c) = some a
  node : ∃ n, s.cells a = some n ∧ n.parent = holder c ∧ Links s.linked (some a) n.right r
  prev : ∃ m, s.cells p = some m ∧ Links s.linked (some p) m.left l

/-- `prev`, which has its left subtree already, takes the place of `node` and
its right subtree. -/
theorem takePlace_run {s : Store T} {c : Path Addr} {a p : Addr} {l r : BinaryTree Addr}
    (h : ReadyToReplace s c a p l r) (hac : a ∉ c.labels) (hap : a ≠ p)
    (hnodup : (inorder (c.plug (.node p l r))).Nodup) :
    ∃ s', (takePlace .rootField (some a) (some p)).run s = .ok ((), s') ∧
      Rep s'.linked (c.plug (.node p l r)) ∧ s'.cache = s.cache ∧
      Frame s s' [] (inorder (c.plug (.node p l r))) := by
  obtain ⟨hc, hslot, ⟨n, hn, hpar, hr⟩, m, hm, hl⟩ := h
  have href := ivtRef_run hc hslot hn hpar hac
  have htransplant := ivtTransplant_run (hasSlot_of_pathLinks hc)
    (p := some p) (by rintro b ⟨⟩; exact ⟨m, hm⟩) (holder c)
  let s₁ := s.transplant (slotOf c) (some p) (holder c)
  have hn₁ : s₁.cells a = some n := by
    rw [s.cells_transplant_of_ne (fun h => hac (mem_labels_of_holder h.symm))
      (fun h => hap (Option.some.inj h)), hn]
  obtain ⟨m₁, hm₁⟩ : ∃ m₁, s₁.cells p = some m₁ := exists_cells_transplant hm _ _ _
  have hrun₂ := assign_run hm₁ fun m => { m with right := n.right }
  refine ⟨s₁.transplant (.right p) n.right (some p), ?_, ?_, ?_, ?_⟩
  · rw [takePlace, run_bind_of_ok href, run_bind_of_ok (deref_run hn), hpar,
      run_bind_of_ok htransplant, run_bind_of_ok (deref_run hn₁), run_bind_of_ok hrun₂,
      run_bind_of_ok (deref_run (Store.cells_upd_self hm₁ _))]
    refine setParent_run (fun b hb => ?_) (some p)
    obtain ⟨k, hk⟩ := exists_cells_of_mem hr (hr.rootLabel_mem hb)
    obtain ⟨k₁, hk₁⟩ := exists_cells_transplant hk (slotOf c) (some p) (holder c)
    exact exists_cells_upd hk₁ _
  · rw [Store.linked_transplant, Store.linked_transplant]
    refine rep_replace (k := m.link) hc ?_ hl hr hnodup
    simp [Store.linked, hm]
  · simp [s₁]
  · have hframe₁ : Frame s s₁ [] (inorder (c.plug (.node p l r))) := by
      refine Frame.transplant s (fun b hb => ?_) (fun b hb => ?_)
      · exact mem_inorder_plug.2 (.inr (mem_labels_of_holder hb))
      · cases hb
        exact mem_inorder_plug.2 (.inl (by simp))
    refine hframe₁.trans (Frame.transplant s₁ (fun b hb => ?_) (fun b hb => ?_))
    · cases hb
      exact mem_inorder_plug.2 (.inl (by simp))
    · exact mem_inorder_plug.2 (.inl (by simp [hr.rootLabel_mem hb]))

/-- The detached node `p` takes over the left subtree of `a`. -/
theorem adopt_left_run {s : Store T} {c : Path Addr} {a p b : Addr} {m : IvtNode T}
    {l' r' r : BinaryTree Addr} (h : Rep s.linked (c.plug (.node a (.node b l' r') r)))
    (hnodup : (inorder (c.plug (.node a (.node b l' r') r))).Nodup)
    (hp : p ∉ inorder (c.plug (.node a (.node b l' r') r))) (hm : s.cells p = some m) :
    ∃ s', (do
        let left := (← deref (some a)).left
        assign (some p) fun p => { p with left := left }
        assign (← deref (some p)).left fun l => { l with parent := some p } :
          Op T Unit).run s = .ok ((), s') ∧
      ReadyToReplace s' c a p (.node b l' r') r ∧ s'.cache = s.cache ∧
      Frame s s' [] (p :: inorder (c.plug (.node a (.node b l' r') r))) := by
  obtain ⟨hc, ht⟩ := rep_plug.1 h
  obtain ⟨n, hslot, hn, hpar, hl, hr⟩ := exists_root ht
  obtain ⟨k, hleft, hk, _⟩ := exists_root hl
  obtain ⟨htn, _, hdisj⟩ := nodup_plug.1 hnodup
  obtain ⟨hal, har, hln, _, hlr⟩ := AvlTree.nodup_inorder_node.1 htn
  simp only [mem_inorder_plug, AvlTree.inorder_node, List.mem_append, List.mem_cons,
    not_or] at hp hdisj hal hlr
  obtain ⟨⟨⟨hpl', hpb, hpr'⟩, hpa, hpr⟩, hpc⟩ := hp
  have hbr : b ∉ inorder r := hlr b (by simp)
  have hbc : b ∉ c.labels := hdisj b (by simp)
  have hkeep : ∀ q, q ≠ p → q ≠ b →
      (s.transplant (.left p) (some b) (some p)).linked.link q = s.linked.link q := by
    intro q hqp hqb
    rw [Store.linked_transplant]
    exact s.linked.link_transplant_of_ne (fun h => hqp (Option.some.inj h))
      fun h => hqb (Option.some.inj h)
  have hcpath : ∀ q ∈ c.labels,
      (s.transplant (.left p) (some b) (some p)).linked.link q = s.linked.link q :=
    fun q hq => hkeep q (ne_of_mem_of_not_mem hq hpc) (ne_of_mem_of_not_mem hq hbc)
  have hroot : (s.transplant (.left p) (some b) (some p)).linked.root = s.linked.root := rfl
  have hcells : (s.transplant (.left p) (some b) (some p)).cells p =
      some { m with left := some b } := by
    refine (Store.cells_upd_of_ne _ hpb _).trans ?_
    exact Store.cells_upd_self hm _
  refine ⟨s.transplant (.left p) (some b) (some p), ?_,
    ⟨?_, ?_, ⟨n, ?_, hpar, ?_⟩, ⟨_, hcells, ?_⟩⟩, s.cache_transplant _ _ _, ?_⟩
  · rw [run_bind_of_ok (deref_run hn), hleft, run_bind_of_ok (assign_run hm _),
      run_bind_of_ok (deref_run (Store.cells_upd_self hm _))]
    obtain ⟨k₁, hk₁⟩ := exists_cells_upd hk fun p => { p with left := some b }
    exact assign_run hk₁ _
  · exact hc.frame hroot hcpath
  · rw [slot_congr hroot hcpath, hslot]
  · rw [s.cells_transplant_of_ne (fun h => hpa (Option.some.inj h).symm)
      (fun h => hal.2.1 (Option.some.inj h)), hn]
  · exact hr.frame fun q hq => hkeep q (ne_of_mem_of_not_mem hq hpr) (ne_of_mem_of_not_mem hq hbr)
  · rw [Store.linked_transplant, ← hleft]
    exact Links.adopt hl hln (.inl rfl) (by simp [hpl', hpb, hpr'])
  · refine Frame.transplant s (fun q hq => ?_) (fun q hq => ?_)
    · cases hq
      exact List.mem_cons_self
    · cases hq
      exact List.mem_cons_of_mem _ (mem_inorder_plug.2 (.inl (by simp)))

/-- `prev` leaves its place, deeper in the left subtree of `node`, and takes
what is left of that subtree. -/
theorem detachPrev_run {s : Store T} {c spine : Path Addr} {a p : Addr}
    {r pl : BinaryTree Addr}
    (h : Rep s.linked ((spine.append (.left a r c)).plug (.node p pl .nil)))
    (hnodup : (inorder ((spine.append (.left a r c)).plug (.node p pl .nil))).Nodup)
    (hspine : spine ≠ .top) :
    ∃ s', (detachPrev .rootField (some a) (some p)).run s = .ok (holder spine, s') ∧
      ReadyToReplace s' c a p (spine.plug pl) r ∧ s'.cache = s.cache ∧
      Frame s s' [] (inorder ((spine.append (.left a r c)).plug (.node p pl .nil))) := by
  obtain ⟨_, hplace⟩ := rep_plug.1 h
  obtain ⟨m, _, hm, _, hpl, _⟩ := exists_root hplace
  obtain ⟨hppl, _, hpln, _, _⟩ := AvlTree.nodup_inorder_node.1 (nodup_plug.1 hnodup).1
  obtain ⟨s₁, href, hrun₁, hpar, hm₁, hrep₁, hnodup₁, hp₁, hcache₁, hframe₁⟩ :=
    makeWay_run h hnodup hm hpl hpln (fun q hq => by simp [hq]) hppl
  obtain ⟨b, l', r', hrest⟩ := Path.exists_plug_eq_node (t := pl) (.inl hspine)
  simp only [Path.plug_append, Path.plug, hrest] at hrep₁ hnodup₁ hp₁
  obtain ⟨s₂, hrun₂, hready, hcache₂, hframe₂⟩ := adopt_left_run hrep₁ hnodup₁ hp₁ hm₁
  rw [holder_append hspine] at hpar
  refine ⟨s₂, ?_, hrest ▸ hready, hcache₂.trans hcache₁, hframe₁.trans (hframe₂.mono ?_ ?_)⟩
  · rw [detachPrev, run_bind_of_ok (deref_run hm), run_bind_of_ok href,
      run_bind_of_ok (deref_run hm), run_bind_of_ok (deref_run hm), run_bind_of_ok hrun₁, ← hpar]
    have hrun := run_bind_of_ok (f := fun _ => pure m.parent) hrun₂
    simp only [bind_assoc] at hrun
    exact hrun
  · exact List.Subset.refl _
  · intro q hq
    rcases List.mem_cons.1 hq with rfl | hq
    · exact mem_inorder_plug.2 (.inl (by simp))
    · have hq' : q ∈ inorder ((spine.append (.left a r c)).plug pl) := by
        rw [Path.plug_append, hrest]
        exact hq
      exact mem_inorder_plug.2 ((mem_inorder_plug.1 hq').imp_left fun h => by simp [h])

/-- A subtree alone in the place of a node. -/
theorem Unlinked.single {s s' : Store T} {c : Path Addr} {t u : BinaryTree Addr}
    (hrep : Rep s'.linked (c.plug u)) (hremove : removeAt c t = ascend c u)
    (hpath : PathCached s c) (hu : Cached s u) (hcache : s'.cache = s.cache)
    (hframe : Frame s s' [] (inorder (c.plug t))) : Unlinked s s' c t c u where
  rep := hrep
  removal := hremove
  pathCached := hpath.frame hframe.item fun _ _ => by rw [hcache]
  cached := hu.frame hframe.item fun _ _ => by rw [hcache]
  frame := hframe

/-- A node with two subtrees whose left child is its predecessor. -/
theorem unlink_direct_run {s : Store T} {c : Path Addr} {a b : Addr} {ll r : BinaryTree Addr}
    (h : Rep s.linked (c.plug (.node a (.node b ll .nil) r)))
    (hnodup : (inorder (c.plug (.node a (.node b ll .nil) r))).Nodup)
    (hcached : Cached s (c.plug (.node a (.node b ll .nil) r))) :
    ∃ s', (takePlace .rootField (some a) (some b)).run s = .ok ((), s') ∧
      Rep s'.linked (c.plug (.node b ll r)) ∧ PathCached s' (.left b r c) ∧ Cached s' ll ∧
      Frame s s' [] (inorder (c.plug (.node a (.node b ll .nil) r))) := by
  obtain ⟨hc, ht⟩ := rep_plug.1 h
  obtain ⟨n, hslot, hn, hpar, hl, hr⟩ := exists_root ht
  obtain ⟨m, _, hm, _, hll, _⟩ := exists_root hl
  obtain ⟨hpath, _, hlc, hrc⟩ := hcached.of_plug
  obtain ⟨hac, hab, hnodup', hsub⟩ := nodup_hoist .top hnodup
  obtain ⟨s', hrun, hrep, hcache, hframe⟩ := takePlace_run
    ⟨hc, hslot, ⟨n, hn, hpar, hr⟩, m, hm, hll⟩ hac hab hnodup'
  refine ⟨s', hrun, hrep, ⟨?_, ?_⟩, ?_, hframe.mono (List.Subset.refl _) hsub⟩
  · exact hrc.frame hframe.item fun _ _ => by rw [hcache]
  · exact hpath.frame hframe.item fun _ _ => by rw [hcache]
  · exact hlc.2.1.frame hframe.item fun _ _ => by rw [hcache]

/-- A node with two subtrees whose predecessor is deeper in the left one. -/
theorem unlink_deep_run {s : Store T} {c spine : Path Addr} {a p : Addr}
    {r pl : BinaryTree Addr} (hspine : spine ≠ .top)
    (h : Rep s.linked (c.plug (.node a (spine.plug (.node p pl .nil)) r)))
    (hnodup : (inorder (c.plug (.node a (spine.plug (.node p pl .nil)) r))).Nodup)
    (hcached : Cached s (c.plug (.node a (spine.plug (.node p pl .nil)) r))) :
    ∃ s₁ s', (detachPrev .rootField (some a) (some p)).run s =
        .ok (holder (spine.append (.left p r c)), s₁) ∧
      (takePlace .rootField (some a) (some p)).run s₁ = .ok ((), s') ∧
      Rep s'.linked ((spine.append (.left p r c)).plug pl) ∧
      PathCached s' (spine.append (.left p r c)) ∧ Cached s' pl ∧
      Frame s s' [] (inorder (c.plug (.node a (spine.plug (.node p pl .nil)) r))) := by
  obtain ⟨hac, hap, hnodup', hsub⟩ := nodup_hoist spine hnodup
  obtain ⟨hpath, _, hlc, hrc⟩ := hcached.of_plug
  obtain ⟨hspinec, _, hplc, _⟩ := hlc.of_plug
  have hplug : (spine.append (.left a r c)).plug (.node p pl .nil) =
      c.plug (.node a (spine.plug (.node p pl .nil)) r) := Path.plug_append _ _ _
  rw [← hplug] at h hnodup
  obtain ⟨s₁, hrun₁, hready, hcache₁, hframe₁⟩ := detachPrev_run h hnodup hspine
  obtain ⟨s', hrun, hrep, hcache, hframe⟩ := takePlace_run hready hac hap hnodup'
  rw [hplug] at hframe₁
  have hframe' := hframe₁.trans (hframe.mono (List.Subset.refl _) hsub)
  have hcache' : ∀ q, s'.cache q = s.cache q := fun q => by rw [hcache, hcache₁]
  refine ⟨s₁, s', ?_, hrun, ?_, pathCached_append.2 ⟨?_, ?_, ?_⟩, ?_, hframe'⟩
  · rw [hrun₁, holder_append hspine]
  · rw [Path.plug_append]
    exact hrep
  · exact hspinec.frame hframe'.item fun q _ => hcache' q
  · exact hrc.frame hframe'.item fun q _ => hcache' q
  · exact hpath.frame hframe'.item fun q _ => hcache' q
  · exact hplc.frame hframe'.item fun q _ => hcache' q

/-- Unlinking a node of a represented tree. -/
theorem unlink_run {s : Store T} {c : Path Addr} {a : Addr} {l r : BinaryTree Addr}
    (fuel : Nat) (h : Rep s.linked (c.plug (.node a l r)))
    (hnodup : (inorder (c.plug (.node a l r))).Nodup)
    (hcached : Cached s (c.plug (.node a l r))) (hfuel : l.height ≤ fuel) :
    ∃ s' d u, (unlink fuel .rootField (some a)).run s = .ok (holder d, s') ∧
      Unlinked s s' c (.node a l r) d u := by
  obtain ⟨hc, ht⟩ := rep_plug.1 h
  obtain ⟨htn, _, _⟩ := nodup_plug.1 hnodup
  obtain ⟨hal, har, hln, hrn, _⟩ := AvlTree.nodup_inorder_node.1 htn
  obtain ⟨n, hslot, hn, hpar, hl, hr⟩ := exists_root ht
  obtain ⟨hpath, _, hlc, hrc⟩ := hcached.of_plug
  rw [unlink]
  cases l with
  | nil =>
    -- no left subtree: the right one takes the place
    obtain ⟨s', href, hrun, _, _, hrep, _, _, hcache, hframe⟩ :=
      makeWay_run h hnodup hn hr hrn (fun b hb => by simp [hb]) har
    refine ⟨s', c, r, ?_, Unlinked.single hrep rfl hpath hrc hcache hframe⟩
    rw [run_bind_of_ok (deref_run hn), show n.left = none from hl]
    simp only [Option.isNone_none, if_true]
    rw [run_bind_of_ok href, run_bind_of_ok hrun, hpar, run_pure_eq]
  | node b ll lr =>
    have hleft : n.left = some b := hl.eq_rootLabel
    cases r with
    | nil =>
      -- no right subtree: the left one takes the place
      obtain ⟨s', href, hrun, _, _, hrep, _, _, hcache, hframe⟩ :=
        makeWay_run h hnodup hn hl hln (fun _ hb => List.mem_append_left _ hb) hal
      refine ⟨s', c, .node b ll lr, ?_, Unlinked.single hrep rfl hpath hlc hcache hframe⟩
      rw [run_bind_of_ok (deref_run hn), hleft, show n.right = none from hr]
      simp only [Option.isNone_some, Bool.false_eq_true, if_false, Option.isNone_none, if_true]
      rw [← hleft, run_bind_of_ok href, run_bind_of_ok hrun, hpar, run_pure_eq]
    | node e rl rr =>
      have hright : n.right = some e := hr.eq_rootLabel
      have hprev := ivtPrev_run fuel .top hn hl (by rw [height] at hfuel; omega)
      rw [run_bind_of_ok (deref_run hn), hleft, hright]
      simp only [Option.isNone_some, Bool.false_eq_true, if_false]
      rw [run_bind_of_ok hprev]
      cases lr with
      | nil =>
        obtain ⟨s', hrun, hrep, hpathc, hllc, hframe⟩ := unlink_direct_run h hnodup hcached
        refine ⟨s', .left b (.node e rl rr) c, ll, ?_, hrep, rfl, hpathc, hllc, hframe⟩
        simp only [rightmost, bne_self_eq_false, Bool.false_eq_true, if_false, pure_bind]
        exact run_bind_of_ok hrun
      | node d m r' =>
        have hremoval : removeAt c (.node a (.node b ll (.node d m r')) (.node e rl rr)) =
          ascend ((rightmost .top b ll (.node d m r')).1.append
            (.left (rightmost .top b ll (.node d m r')).2.1 (.node e rl rr) c))
            (rightmost .top b ll (.node d m r')).2.2 := rfl
        have hplug := AvlTree.plug_rightmost .top b ll (.node d m r')
        have hmem := AvlTree.rightmost_label_mem (.right b ll .top) d m r'
        obtain ⟨_, hbr, _, _, _⟩ := AvlTree.nodup_inorder_node.1 hln
        rw [rightmost] at hplug hremoval ⊢
        generalize rightmost (.right b ll .top) d m r' = walk at *
        obtain ⟨spine, p, pl⟩ := walk
        have hpb : p ≠ b := by
          rintro rfl
          exact hbr (List.mem_append_right _ hmem)
        have hspine : spine ≠ .top := by
          rintro rfl
          simp [Path.plug] at hplug
        simp only [Path.plug] at hplug
        rw [← hplug] at h hnodup hcached hremoval ⊢
        obtain ⟨s₁, s', hrun₁, hrun, hrep, hpathc, hplc, hframe⟩ :=
          unlink_deep_run hspine h hnodup hcached
        refine ⟨s', _, pl, ?_, hrep, hremoval, hpathc, hplc, hframe⟩
        have hne : (some p != some b) = true := by simpa using hpb
        simp only [hne, if_true]
        rw [run_bind_of_ok hrun₁, run_bind_of_ok hrun, run_pure_eq]

/-! ## The method -/

/-- What a successful `remove` does. -/
structure Removed (s s' : Store T) (t t' : BinaryTree Addr) (a : Addr) : Prop where
  wf : Wf s' t'
  order : AvlTree.inorder t' = (AvlTree.inorder t).erase a
  item : s'.item = Function.update s.item a none
  frame : ∀ b ∉ AvlTree.inorder t, s'.cells b = s.cells b

/-- `ivt_remove` of a node of the tree. -/
theorem ivtRemove_run {s : Store T} {c : Path Addr} {a : Addr} {l r : BinaryTree Addr}
    (h : Wf s (c.plug (.node a l r))) :
    ∃ s', (ivtRemove s.bound .rootField (some a)).run s = .ok ((), s') ∧
      Rep s'.linked (removeAt c (.node a l r)) ∧ Cached s' (removeAt c (.node a l r)) ∧
      Frame s s' (inorder (c.plug (.node a l r))) (inorder (c.plug (.node a l r))) := by
  have hnum := AvlTree.length_inorder (c.plug (.node a l r))
  have hlen : (inorder (c.plug (.node a l r))).length =
      (inorder l).length + (inorder r).length + c.labels.length + 1 := by
    simp only [Path.inorder_plug, Path.labels, AvlTree.inorder_node, List.length_append,
      List.length_cons]
    omega
  have hheight := l.height_le_numNodes
  rw [← AvlTree.length_inorder] at hheight
  obtain ⟨s₁, d, u, hrun₁, hrep₁, hremoval, hpathc, huc, hframe₁⟩ :=
    unlink_run s.bound h.rep h.nodup h.cached (by rw [Store.bound, h.size]; omega)
  have hinorder : inorder (d.plug u) = (inorder (c.plug (.node a l r))).erase a := by
    rw [← AvlTree.inorder_ascend, ← hremoval, AvlTree.inorder_removeAt_erase h.nodup]
  have hdepth : d.depth < s.bound := by
    have hle := d.depth_le_length_labels
    have hsum : (inorder (d.plug u)).length = (inorder u).length + d.labels.length := by
      simp only [Path.inorder_plug, Path.labels, List.length_append]
      omega
    have herase := (inorder (c.plug (.node a l r))).length_erase_le (a := a)
    rw [hinorder] at hsum
    rw [Store.bound, h.size]
    omega
  obtain ⟨s₂, hrun₂, hrep₂, hcached₂, hframe₂⟩ :=
    rebalanceUp_run hrep₁ (hinorder ▸ h.nodup.erase a) hpathc huc hdepth
  have hsub : inorder (d.plug u) ⊆ inorder (c.plug (.node a l r)) :=
    hinorder ▸ List.erase_subset
  refine ⟨s₂, ?_, hremoval ▸ hrep₂, hremoval ▸ hcached₂,
    (hframe₁.mono (List.nil_subset _) (List.Subset.refl _)).trans (hframe₂.mono hsub hsub)⟩
  rw [ivtRemove]
  simp only [Option.isNone_some, Bool.false_eq_true, if_false]
  rw [run_bind_of_ok hrun₁, hrun₂]

/-- `remove` of a node of the tree succeeds. -/
theorem remove_run {s : Store T} {t : BinaryTree Addr} (h : Wf s t) {a : Addr}
    (ha : a ∈ inorder t) :
    ∃ s' t', (remove (some a)).run s = .ok (true, s') ∧ Removed s s' t t' a := by
  obtain ⟨c, l, r, rfl⟩ := Path.exists_plug_of_mem ha
  obtain ⟨s₁, hrun₁, hrep₁, hcached₁, hframe₁⟩ := ivtRemove_run h
  have hinorder := AvlTree.inorder_removeAt_erase h.nodup
  have hbalanced := AvlTree.balanced_removeAt h.balanced
  generalize removeAt c (.node a l r) = t' at *
  have hsub : ∀ b ∈ inorder t', b ≠ a ∧ b ∈ inorder (c.plug (.node a l r)) := by
    intro b hb
    rw [hinorder] at hb
    exact (h.nodup.mem_erase_iff).1 hb
  -- the tree is in place before the node is freed
  have hwf : Wf { s₁ with size := s₁.size - 1 } t' := by
    have hitem : Store.item { s₁ with size := s₁.size - 1 } = s.item := hframe₁.item
    have hle : Store.le { s₁ with size := s₁.size - 1 } = s.le := Store.le_congr hitem
    refine ⟨hrep₁, ?_, hcached₁.frame rfl fun _ _ => rfl, hbalanced, ?_, ?_, ?_⟩
    · rw [hinorder]
      exact h.nodup.erase a
    · rw [hinorder, hle]
      exact h.sorted.sublist List.erase_sublist
    · intro b hb
      rw [Store.lo_congr (congrFun hitem b), Store.hi_congr (congrFun hitem b)]
      exact h.proper b (hsub b hb).2
    · have hlen := List.length_erase_of_mem ha
      rw [← hinorder, AvlTree.length_inorder, AvlTree.length_inorder, ← h.size,
        ← hframe₁.size] at hlen
      exact hlen.symm
  obtain ⟨n, hn⟩ := exists_cells_of_mem h.rep ha
  obtain ⟨n₁, hn₁⟩ : ∃ n₁, s₁.cells a = some n₁ := by
    have hitem := congrFun hframe₁.item a
    simp only [Store.item, hn, Option.map_some, Option.map_eq_some_iff] at hitem
    obtain ⟨n₁, hn₁, _⟩ := hitem
    exact ⟨n₁, hn₁⟩
  refine ⟨{ s₁ with size := s₁.size - 1, cells := Function.update s₁.cells a none }, t', ?_,
    hwf.congr_cells rfl rfl fun b hb => ?_, hinorder, ?_, fun b hb => ?_⟩
  · rw [remove]
    simp only [Option.isNone_some, Bool.false_eq_true, if_false]
    rw [run_bind_of_ok (run_get_eq s), run_bind_of_ok hrun₁, run_bind_of_ok (free_run hn₁)]
    rfl
  · exact Function.update_of_ne (hsub b hb).1 _ _
  · funext b
    by_cases hb : b = a
    · simp [Store.item, hb]
    · simp only [Store.item, Function.update_of_ne hb]
      exact congrFun hframe₁.item b
  · have hba : b ≠ a := fun hba => hb (hba ▸ ha)
    exact (Function.update_of_ne hba _ _).trans (hframe₁.cells hb hb)

/-! ## Clearing -/

/-- `ivt_clear` at a slot: the nodes of the subtree are freed, and the slot is
null. -/
structure Freed (s s' : Store T) (sl : Slot Addr) (t : BinaryTree Addr) : Prop where
  cells_of_mem : ∀ b ∈ inorder t, s'.cells b = none
  cells_of_not_mem : ∀ b ∉ inorder t, s'.cells b = (s.setSlot none sl).cells b
  root : s'.root = (s.setSlot none sl).root
  size : s'.size = s.size

theorem Freed.cells_of_ne {s s' : Store T} {sl : Slot Addr} {t : BinaryTree Addr}
    (h : Freed s s' sl t) {b : Addr} (hb : b ∉ inorder t) (hsl : sl.holder ≠ some b) :
    s'.cells b = s.cells b := by
  rw [h.cells_of_not_mem b hb, s.cells_setSlot_of_ne hsl]

/-- A slot reads its own holder only. -/
theorem slot_of_cells {s s' : Store T} {sl : Slot Addr} (hroot : s'.root = s.root)
    (hcells : ∀ b, sl.holder = some b → s'.cells b = s.cells b) :
    s'.linked.slot sl = s.linked.slot sl := by
  cases sl with
  | root => exact hroot
  | left a => simp only [Linked.slot, Store.linked, hcells a rfl]
  | right a => simp only [Linked.slot, Store.linked, hcells a rfl]

theorem hasSlot_of_cells {s s' : Store T} {sl : Slot Addr} (h : HasSlot s sl)
    (hcells : ∀ b, sl.holder = some b → s'.cells b = s.cells b) : HasSlot s' sl := by
  intro b hb
  rw [hcells b hb]
  exact h b hb

/-- A place is read as before, where the cell that holds it is as before. -/
theorem Ref.get_run_of_cells {s s' : Store T} {sl : Slot Addr} (h : HasSlot s sl)
    (hroot : s'.root = s.root) (hcells : ∀ b, sl.holder = some b → s'.cells b = s.cells b) :
    (refOf sl).get.run s' = .ok (s.linked.slot sl, s') := by
  rw [Ref.get_run (hasSlot_of_cells h hcells), slot_of_cells hroot hcells]

/-- Writing null to a slot that is null changes nothing. -/
theorem setSlot_none_of_slot {s : Store T} {sl : Slot Addr} (h : HasSlot s sl)
    (hslot : s.linked.slot sl = none) : s.setSlot none sl = s := by
  cases sl with
  | root =>
    cases s
    cases hslot
    rfl
  | left a =>
    obtain ⟨n, hn⟩ := h a rfl
    have hleft : n.left = none := (slot_left_of_cells hn).symm.trans hslot
    cases n
    cases hleft
    simp only [Store.setSlot, Store.upd, hn, Option.map_some]
    rw [← hn, Function.update_eq_self]
  | right a =>
    obtain ⟨n, hn⟩ := h a rfl
    have hright : n.right = none := (slot_right_of_cells hn).symm.trans hslot
    cases n
    cases hright
    simp only [Store.setSlot, Store.upd, hn, Option.map_some]
    rw [← hn, Function.update_eq_self]

/-- What the calls for the two subtrees of `a` leave alone. -/
theorem Freed.keep {s s₁ s₂ : Store T} {a : Addr} {l r : BinaryTree Addr}
    (h₁ : Freed s s₁ (.left a) l) (h₂ : Freed s₁ s₂ (.right a) r) {b : Addr}
    (hb : b ∉ inorder (.node a l r)) : s₂.cells b = s.cells b := by
  simp only [AvlTree.inorder_node, List.mem_append, List.mem_cons, not_or] at hb
  have hne : ∀ sl : Slot Addr, sl.holder = some a → sl.holder ≠ some b := fun sl hsl h =>
    hb.2.1 (Option.some.inj (h.symm.trans hsl))
  exact (h₂.cells_of_ne hb.2.2 (hne _ rfl)).trans (h₁.cells_of_ne hb.1 (hne _ rfl))

/-- The two calls for the subtrees of `a`, and then freeing `a` itself and
clearing its place, free the whole subtree. -/
theorem Freed.node {s s₁ s₂ : Store T} {sl : Slot Addr} {a : Addr} {l r : BinaryTree Addr}
    (hnodup : (inorder (.node a l r)).Nodup)
    (hholder : ∀ b, sl.holder = some b → b ∉ inorder (.node a l r))
    (h₁ : Freed s s₁ (.left a) l) (h₂ : Freed s₁ s₂ (.right a) r) :
    Freed s (Store.setSlot { s₂ with cells := Function.update s₂.cells a none } none sl) sl
      (.node a l r) := by
  obtain ⟨_, _, _, _, hlr⟩ := AvlTree.nodup_inorder_node.1 hnodup
  have hfreed : ∀ b ∈ inorder (.node a l r), Function.update s₂.cells a none b = none := by
    intro b hb
    by_cases hba : b = a
    · rw [hba]
      exact Function.update_self _ _ _
    · rw [Function.update_of_ne hba]
      rw [AvlTree.inorder_node, List.mem_append, List.mem_cons] at hb
      rcases hb with hb | hb | hb
      · have hbr : (Slot.right a).holder ≠ some b := fun h => hba (Option.some.inj h).symm
        rw [h₂.cells_of_ne (hlr b hb) hbr, h₁.cells_of_mem b hb]
      · exact absurd hb hba
      · exact h₂.cells_of_mem b hb
  constructor
  · intro b hb
    have hsl : sl.holder ≠ some b := fun hsl => hholder b hsl hb
    rw [Store.cells_setSlot_of_ne _ hsl]
    exact hfreed b hb
  · intro b hb
    have hba : b ≠ a := fun hba => hb (by simp [hba])
    refine Store.cells_setSlot_congr ?_ none sl
    exact (Function.update_of_ne hba _ _).trans (h₁.keep h₂ hb)
  · refine Store.root_setSlot_congr ?_ none sl
    exact (h₂.root.trans h₁.root : s₂.root = s.root)
  · rw [Store.size_setSlot]
    exact h₂.size.trans h₁.size

/-- The recursion of `ivt_clear`, for the subtree at any place. -/
theorem ivtClear_run {t : BinaryTree Addr} :
    ∀ {s : Store T} (sl : Slot Addr) {par : Option Addr} (fuel : Nat), HasSlot s sl →
      Links s.linked par (s.linked.slot sl) t → (inorder t).Nodup →
      (∀ b, sl.holder = some b → b ∉ inorder t) → t.height < fuel →
      ∃ s', (ivtClear fuel (refOf sl)).run s = .ok ((), s') ∧ Freed s s' sl t := by
  induction t with
  | nil =>
    intro s sl par fuel hslot h _ _ hfuel
    cases fuel with
    | zero => exact absurd hfuel (Nat.not_lt_zero _)
    | succ fuel =>
      have hnone : s.linked.slot sl = none := h
      refine ⟨s, ?_, fun b hb => by simp at hb, fun b _ => ?_, ?_, rfl⟩
      · rw [ivtClear, run_bind_of_ok (Ref.get_run hslot), hnone]
        rfl
      · rw [setSlot_none_of_slot hslot hnone]
      · rw [setSlot_none_of_slot hslot hnone]
  | node a l r ihl ihr =>
    intro s sl par fuel hslot h hnodup hholder hfuel
    cases fuel with
    | zero => exact absurd hfuel (Nat.not_lt_zero _)
    | succ fuel =>
      rw [height] at hfuel
      obtain ⟨hal, har, hln, hrn, hlr⟩ := AvlTree.nodup_inorder_node.1 hnodup
      have hget := Ref.get_run hslot
      obtain ⟨n, hroot, hn, _, hl, hr⟩ := exists_root h
      rw [hroot] at hget
      -- the left subtree
      have hslotl : HasSlot s (.left a) := by
        rintro b ⟨⟩
        exact ⟨n, hn⟩
      obtain ⟨s₁, hrun₁, hfreed₁⟩ := ihl _ fuel hslotl (slot_left_of_cells hn ▸ hl) hln
        (by rintro b ⟨⟩; exact hal) (by omega)
      have hkeep₁ : ∀ b, b ≠ a → b ∉ inorder l → s₁.cells b = s.cells b :=
        fun b hba hbl => hfreed₁.cells_of_ne hbl fun h => hba (Option.some.inj h).symm
      have hn₁ : s₁.cells a = some { n with left := none } := by
        rw [hfreed₁.cells_of_not_mem a hal]
        exact Store.cells_upd_self hn _
      have hcells₁ : ∀ b, sl.holder = some b → s₁.cells b = s.cells b := by
        intro b hb
        have hnot := hholder b hb
        simp only [AvlTree.inorder_node, List.mem_append, List.mem_cons, not_or] at hnot
        exact hkeep₁ b hnot.2.1 hnot.1
      have hget₁ := Ref.get_run_of_cells hslot hfreed₁.root hcells₁
      rw [hroot] at hget₁
      -- the right subtree
      have hslotr : HasSlot s₁ (.right a) := by
        rintro b ⟨⟩
        exact ⟨_, hn₁⟩
      have hr₁ : Links s₁.linked (some a) n.right r := by
        refine hr.frame fun b hb => ?_
        simp only [Store.linked, hkeep₁ b (ne_of_mem_of_not_mem hb har) fun hbl => hlr b hbl hb]
      obtain ⟨s₂, hrun₂, hfreed₂⟩ := ihr _ fuel hslotr (slot_right_of_cells hn₁ ▸ hr₁) hrn
        (by rintro b ⟨⟩; exact har) (by omega)
      have hn₂ : s₂.cells a = some { n with left := none, right := none } := by
        rw [hfreed₂.cells_of_not_mem a har]
        exact Store.cells_upd_self hn₁ _
      have hcells₂ : ∀ b, sl.holder = some b → s₂.cells b = s.cells b := fun b hb =>
        hfreed₁.keep hfreed₂ (hholder b hb)
      have hget₂ := Ref.get_run_of_cells hslot (hfreed₂.root.trans hfreed₁.root) hcells₂
      rw [hroot] at hget₂
      -- the node itself
      have hcells₃ : ∀ b, sl.holder = some b →
          Function.update s₂.cells a none b = s.cells b := by
        intro b hb
        have hba : b ≠ a := fun hba => hholder b hb (by simp [hba])
        exact (Function.update_of_ne hba _ _).trans (hcells₂ b hb)
      have hset := Ref.set_run (s := { s₂ with cells := Function.update s₂.cells a none })
        (hasSlot_of_cells hslot hcells₃) none
      refine ⟨_, ?_, Freed.node hnodup hholder hfreed₁ hfreed₂⟩
      rw [ivtClear, run_bind_of_ok hget]
      simp only [Option.isNone_some, Bool.false_eq_true, if_false]
      rw [run_bind_of_ok hget]
      refine (run_bind_of_ok hrun₁).trans ((run_bind_of_ok hget₁).trans ?_)
      refine (run_bind_of_ok hrun₂).trans ((run_bind_of_ok hget₂).trans ?_)
      exact (run_bind_of_ok (free_run hn₂)).trans hset

/-- `clear` frees every node of the tree and leaves an empty tree. -/
theorem clear_run {s : Store T} {t : BinaryTree Addr} (h : Wf s t) :
    ∃ s', clear.run s = .ok ((), s') ∧ s'.root = none ∧ Wf s' .nil ∧
      (∀ b ∈ inorder t, s'.cells b = none) ∧ ∀ b ∉ inorder t, s'.cells b = s.cells b := by
  obtain ⟨s₁, hrun, hfreed⟩ := ivtClear_run .root s.bound (by rintro b ⟨⟩) h.rep h.nodup
    (by rintro b ⟨⟩) h.height_lt_bound
  refine ⟨{ s₁ with size := 0 }, ?_, hfreed.root, ?_, hfreed.cells_of_mem,
    fun b hb => hfreed.cells_of_not_mem b hb⟩
  · rw [clear, run_bind_of_ok (run_get_eq s)]
    exact (run_bind_of_ok hrun).trans rfl
  · exact ⟨hfreed.root, List.nodup_nil, trivial, trivial, List.Pairwise.nil, by simp, rfl⟩

end Mwr.Interval
