import Mwr.Interval.Rebalance

/-!
# Queries

The searches of the tree prune a subtree when the query misses its cached hull.
`hits` is the answer that they have to give, the nodes whose interval overlaps
the query, in the order of the visits, and none of them sees the pruning.

`validate_run` says that the self-test of the tree never reports.
-/

namespace Mwr.Interval

open BinaryTree
open Mwr.CodeLib
open Mwr.CodeLib.AvlTree (Path inorder)
open Mwr.CodeLib.LinkedTree
open Mwr.CodeLib.Exec

variable {T : Type}

/-! ## The answer to a query -/

/-- The nodes of a tree, each one before its subtrees. -/
def preorder : BinaryTree Addr → List Addr
  | .nil => []
  | .node a l r => a :: (preorder l ++ preorder r)

theorem preorder_perm_inorder (t : BinaryTree Addr) : (preorder t).Perm (inorder t) := by
  induction t with
  | nil => exact List.Perm.refl _
  | node a l r ihl ihr =>
    rw [preorder, AvlTree.inorder_node]
    exact ((ihl.append ihr).cons a).trans List.perm_middle.symm

/-- The interval at `a` overlaps the query. -/
def Store.hit (s : Store T) (start stop : UInt64) (a : Addr) : Bool :=
  overlaps (s.lo a) (s.hi a) start stop

theorem Store.hit_of_cells {s : Store T} {start stop : UInt64} {a : Addr} {n : IvtNode T}
    (h : s.cells a = some n) : s.hit start stop a = overlaps n.lo n.hi start stop := by
  rw [Store.hit, Store.lo_of_cells h, Store.hi_of_cells h]

/-- The nodes whose interval overlaps the query. -/
def hits (s : Store T) (start stop : UInt64) (t : BinaryTree Addr) : List Addr :=
  (preorder t).filter (s.hit start stop)

theorem mem_hits {s : Store T} {start stop : UInt64} {t : BinaryTree Addr} {a : Addr} :
    a ∈ hits s start stop t ↔ a ∈ inorder t ∧ s.hit start stop a = true := by
  rw [hits, List.mem_filter, (preorder_perm_inorder t).mem_iff]

theorem nodup_hits {s : Store T} {start stop : UInt64} {t : BinaryTree Addr}
    (h : (inorder t).Nodup) : (hits s start stop t).Nodup :=
  ((preorder_perm_inorder t).nodup_iff.2 h).filter _

/-- Two closed intervals that are not empty overlap when they have a common
point. -/
theorem overlaps_iff {s0 e0 s1 e1 : UInt64} (h0 : s0 ≤ e0) (h1 : s1 ≤ e1) :
    overlaps s0 e0 s1 e1 = true ↔ ∃ x, (s0 ≤ x ∧ x ≤ e0) ∧ s1 ≤ x ∧ x ≤ e1 := by
  simp only [overlaps, Bool.and_eq_true, decide_eq_true_eq]
  constructor
  · rintro ⟨h01, h10⟩
    by_cases h : s0 ≤ s1
    · exact ⟨s1, ⟨h, h10⟩, UInt64.le_refl _, h1⟩
    · exact ⟨s0, ⟨UInt64.le_refl _, h0⟩, UInt64.le_of_lt (UInt64.not_le.1 h), h01⟩
  · rintro ⟨x, ⟨h0x, hx0⟩, h1x, hx1⟩
    exact ⟨UInt64.le_trans h0x hx1, UInt64.le_trans h1x hx0⟩

/-- A subtree whose hull misses the query has no hit. -/
theorem hits_eq_nil_of_hull {s : Store T} {k : Cache} {t : BinaryTree Addr}
    (hk : CacheOk s k t) {start stop : UInt64} (h : ¬ overlaps k.min k.max start stop = true) :
    hits s start stop t = [] := by
  rw [List.eq_nil_iff_forall_not_mem]
  intro a ha
  obtain ⟨hat, hhit⟩ := mem_hits.1 ha
  simp only [Store.hit, overlaps, Bool.and_eq_true, decide_eq_true_eq] at h hhit
  exact h ⟨UInt64.le_trans (hk.2.1.2 ⟨a, hat, rfl⟩) hhit.1,
    UInt64.le_trans hhit.2 (hk.2.2.2 ⟨a, hat, rfl⟩)⟩

/-! ## `overlaps` -/

theorem ivtOverlaps_run {s : Store T} {start stop : UInt64} {t : BinaryTree Addr} :
    ∀ {par p : Option Addr} {fuel : Nat}, Links s.linked par p t → Cached s t →
      t.height < fuel →
      (ivtOverlaps fuel p start stop).run s = .ok (!(hits s start stop t).isEmpty, s) := by
  induction t with
  | nil =>
    intro par p fuel h _ hfuel
    cases fuel with
    | zero => exact absurd hfuel (Nat.not_lt_zero _)
    | succ fuel =>
      cases h
      rfl
  | node a l r ihl ihr =>
    intro par p fuel h hc hfuel
    cases fuel with
    | zero => exact absurd hfuel (Nat.not_lt_zero _)
    | succ fuel =>
      rw [height] at hfuel
      obtain ⟨n, rfl, hn, _, hl, hr⟩ := exists_root h
      have hroot := cacheOk_root hc hn
      obtain ⟨_, hlc, hrc⟩ := hc
      have hhit : s.hit start stop a = overlaps n.lo n.hi start stop := Store.hit_of_cells hn
      rw [ivtOverlaps]
      simp only [Option.isNone_some, Bool.false_eq_true, if_false]
      rw [run_bind_of_ok (deref_run hn)]
      by_cases hhull : overlaps n.min n.max start stop = true
      · simp only [hhull, Bool.not_true, Bool.false_eq_true, if_false]
        by_cases ha : overlaps n.lo n.hi start stop = true
        · simp [ha, hits, preorder, hhit]
        · simp only [ha, Bool.false_eq_true, if_false]
          rw [run_bind_of_ok (ihl hl hlc (by omega))]
          have hsplit : hits s start stop (.node a l r) =
              hits s start stop l ++ hits s start stop r := by
            simp [hits, preorder, hhit, ha]
          by_cases hempty : hits s start stop l = []
          · rw [hsplit, hempty]
            simp only [List.isEmpty_nil, Bool.not_true, Bool.false_eq_true, if_false,
              List.nil_append]
            exact ihr hr hrc (by omega)
          · simp [hsplit, hempty]
      · rw [hits_eq_nil_of_hull hroot hhull]
        simp [hhull]

/-! ## `for_each` -/

/-- Only the data of nodes may differ. -/
structure OnlyData (s s' : Store T) : Prop where
  size : s'.size = s.size
  linked : s'.linked = s.linked
  cache : s'.cache = s.cache
  lo : s'.lo = s.lo
  hi : s'.hi = s.hi

theorem OnlyData.refl (s : Store T) : OnlyData s s := ⟨rfl, rfl, rfl, rfl, rfl⟩

theorem OnlyData.trans {s s' s'' : Store T} (h : OnlyData s s') (h' : OnlyData s' s'') :
    OnlyData s s'' :=
  ⟨h'.size.trans h.size, h'.linked.trans h.linked, h'.cache.trans h.cache, h'.lo.trans h.lo,
    h'.hi.trans h.hi⟩

theorem OnlyData.cached {s s' : Store T} (h : OnlyData s s') {t : BinaryTree Addr}
    (hc : Cached s t) : Cached s' t :=
  hc.congr (fun a _ => congrFun h.lo a) (fun a _ => congrFun h.hi a)
    fun a _ => congrFun h.cache a

theorem OnlyData.hits {s s' : Store T} (h : OnlyData s s') (start stop : UInt64)
    (t : BinaryTree Addr) : hits s' start stop t = hits s start stop t := by
  have hhit : s'.hit start stop = s.hit start stop := by
    funext a
    rw [Store.hit, Store.hit, h.lo, h.hi]
  rw [Interval.hits, Interval.hits, hhit]

theorem OnlyData.upd (s : Store T) (a : Addr) {f : IvtNode T → IvtNode T}
    (hlink : ∀ n, (f n).link = n.link) (hcache : ∀ n, (f n).cache = n.cache)
    (hlo : ∀ n, (f n).lo = n.lo) (hhi : ∀ n, (f n).hi = n.hi) : OnlyData s (s.upd a f) where
  size := rfl
  linked := s.linked_upd_of_link a hlink
  cache := s.cache_upd a hcache
  lo := by
    funext b
    have hview := s.view_upd IvtNode.lo a hlo b
    simpa [Store.lo, Store.item, Function.comp_def, IvtNode.item] using congrArg (·.getD 0) hview
  hi := by
    funext b
    have hview := s.view_upd IvtNode.hi a hhi b
    simpa [Store.hi, Store.item, Function.comp_def, IvtNode.item] using congrArg (·.getD 0) hview

/-- The links of a node survive. -/
theorem OnlyData.exists_cells {s s' : Store T} (h : OnlyData s s') {a : Addr} {n : IvtNode T}
    (hn : s.cells a = some n) : ∃ n', s'.cells a = some n' ∧ n'.link = n.link := by
  refine Store.exists_cells ?_
  rw [h.linked]
  simp [Store.linked, hn]

/-- One call of the callback, for the node at `a`. -/
def visit {σ : Type} (fn : Callback T σ) (p : σ × Store T) (a : Addr) : σ × Store T :=
  match p.2.cells a with
  | some n =>
    let (data, acc) := fn n.lo n.hi a n.data p.1
    (acc, p.2.upd a fun n => { n with data := data })
  | none => p

theorem visit_onlyData {σ : Type} (fn : Callback T σ) (p : σ × Store T) (a : Addr) :
    OnlyData p.2 (visit fn p a).2 := by
  rw [visit]
  split
  · exact OnlyData.upd _ a (fun _ => rfl) (fun _ => rfl) (fun _ => rfl) fun _ => rfl
  · exact OnlyData.refl _

theorem foldl_visit_onlyData {σ : Type} (fn : Callback T σ) (as : List Addr) :
    ∀ p : σ × Store T, OnlyData p.2 (as.foldl (visit fn) p).2 := by
  induction as with
  | nil => exact fun p => OnlyData.refl p.2
  | cons a as ih => exact fun p => (visit_onlyData fn p a).trans (ih (visit fn p a))

/-- `ivt_for_each` calls the callback once for each hit. -/
theorem ivtForEach_run {σ : Type} (fn : Callback T σ) {start stop : UInt64}
    {t : BinaryTree Addr} :
    ∀ {s : Store T} {par p : Option Addr} {fuel : Nat} (acc : σ), Links s.linked par p t →
      Cached s t → t.height < fuel →
      (ivtForEach start stop fn fuel p acc).run s =
        .ok ((hits s start stop t).foldl (visit fn) (acc, s)) := by
  induction t with
  | nil =>
    intro s par p fuel acc h _ hfuel
    cases fuel with
    | zero => exact absurd hfuel (Nat.not_lt_zero _)
    | succ fuel =>
      cases h
      rfl
  | node a l r ihl ihr =>
    intro s par p fuel acc h hc hfuel
    cases fuel with
    | zero => exact absurd hfuel (Nat.not_lt_zero _)
    | succ fuel =>
      rw [height] at hfuel
      obtain ⟨n, rfl, hn, _, hl, hr⟩ := exists_root h
      have hroot := cacheOk_root hc hn
      obtain ⟨_, hlc, hrc⟩ := hc
      have hhit : s.hit start stop a = overlaps n.lo n.hi start stop := Store.hit_of_cells hn
      rw [ivtForEach]
      simp only
      rw [run_bind_of_ok (deref_run hn)]
      by_cases hhull : overlaps n.min n.max start stop = true
      · simp only [hhull, Bool.not_true, Bool.false_eq_true, if_false]
        -- the visits of the two subtrees, after the node itself
        have hrest : ∀ (acc₁ : σ) (s₁ : Store T), OnlyData s s₁ →
            (do
              let acc ← ivtForEach start stop fn fuel (← deref (some a)).left acc₁
              ivtForEach start stop fn fuel (← deref (some a)).right acc : Op T σ).run s₁ =
              .ok ((hits s start stop r).foldl (visit fn)
                ((hits s start stop l).foldl (visit fn) (acc₁, s₁))) := by
          intro acc₁ s₁ hdata₁
          obtain ⟨n₁, hn₁, hlink₁⟩ := hdata₁.exists_cells hn
          have hleft : n₁.left = n.left := congrArg Link.left hlink₁
          have hrunl := ihl (s := s₁) acc₁ (hdata₁.linked ▸ hl) (hdata₁.cached hlc)
            (by omega : l.height < fuel)
          rw [hdata₁.hits] at hrunl
          have hdata₂ := hdata₁.trans
            (foldl_visit_onlyData fn (hits s start stop l) (acc₁, s₁))
          rw [run_bind_of_ok (deref_run hn₁), hleft]
          generalize (hits s start stop l).foldl (visit fn) (acc₁, s₁) = p₂ at hrunl hdata₂ ⊢
          obtain ⟨acc₂, s₂⟩ := p₂
          obtain ⟨n₂, hn₂, hlink₂⟩ := hdata₂.exists_cells hn
          have hright : n₂.right = n.right := congrArg Link.right hlink₂
          rw [run_bind_of_ok hrunl, run_bind_of_ok (deref_run hn₂), hright,
            ihr acc₂ (hdata₂.linked ▸ hr) (hdata₂.cached hrc) (by omega), hdata₂.hits]
        by_cases ha : overlaps n.lo n.hi start stop = true
        · simp only [ha, if_true]
          rw [run_bind_of_ok (assign_run hn _), pure_bind]
          refine (hrest _ _ ?_).trans ?_
          · exact OnlyData.upd s a (fun _ => rfl) (fun _ => rfl) (fun _ => rfl) fun _ => rfl
          · simp [hits, preorder, hhit, ha, visit, hn]
        · simp only [ha, Bool.false_eq_true, if_false, pure_bind]
          rw [hrest acc s (OnlyData.refl s)]
          simp [hits, preorder, hhit, ha]
      · rw [hits_eq_nil_of_hull hroot hhull]
        simp [hhull]

/-! ## The methods -/

section Methods

variable {s : Store T} {t : BinaryTree Addr} {start stop : UInt64}

theorem overlapsAny_run (h : Wf s t) (hle : start ≤ stop) :
    (overlapsAny start stop).run s = .ok (!(hits s start stop t).isEmpty, s) := by
  rw [overlapsAny, run_bind_of_ok (checkInterval_run hle), run_bind_of_ok (run_get_eq s),
    run_bind_of_ok (run_get_eq s)]
  exact ivtOverlaps_run h.rep h.cached h.height_lt_bound

theorem forEach_run {σ : Type} (fn : Callback T σ) (acc : σ) (h : Wf s t)
    (hle : start ≤ stop) :
    (forEach start stop fn acc).run s =
      .ok ((hits s start stop t).foldl (visit fn) (acc, s)) := by
  rw [forEach, run_bind_of_ok (checkInterval_run hle), run_bind_of_ok (run_get_eq s),
    run_bind_of_ok (run_get_eq s)]
  exact ivtForEach_run fn acc h.rep h.cached h.height_lt_bound

/-- The callback of `find_overlaps` collects the nodes and leaves the tree as it
is. -/
theorem foldl_visit_collect {as : List Addr} (has : ∀ a ∈ as, ∃ n, s.cells a = some n)
    (result : List Addr) :
    as.foldl (visit fun _ _ it data result => (data, result ++ [it])) (result, s) =
      (result ++ as, s) := by
  induction as generalizing result with
  | nil => simp
  | cons a as ih =>
    obtain ⟨n, hn⟩ := has a List.mem_cons_self
    have hsame : (s.upd a fun m => { m with data := n.data }) = s := by
      simp only [Store.upd, hn, Option.map_some]
      rw [← hn, Function.update_eq_self]
    rw [List.foldl_cons, visit]
    simp only [hn, hsame]
    rw [ih fun b hb => has b (List.mem_cons_of_mem a hb)]
    simp

theorem findOverlaps_run (h : Wf s t) (hle : start ≤ stop) :
    (findOverlaps start stop).run s = .ok (hits s start stop t, s) := by
  rw [findOverlaps, run_bind_of_ok (checkInterval_run hle), forEach_run _ _ h hle,
    foldl_visit_collect fun a ha => exists_cells_of_mem h.rep (mem_hits.1 ha).1]
  rfl

end Methods

/-! ## `validate` -/

/-- The self-test of a subtree passes, and counts its nodes. -/
theorem ivtValidate_run {s : Store T} {t : BinaryTree Addr} :
    ∀ {par p : Option Addr} {fuel : Nat} (count : Nat), Links s.linked par p t → Cached s t →
      AvlTree.Balanced t → t.height < fuel →
      (ivtValidate fuel p par count).run s = .ok (count + t.numNodes, s) := by
  induction t with
  | nil =>
    intro par p fuel count h _ _ hfuel
    cases fuel with
    | zero => exact absurd hfuel (Nat.not_lt_zero _)
    | succ fuel =>
      cases h
      rfl
  | node a l r ihl ihr =>
    intro par p fuel count h hc hbal hfuel
    cases fuel with
    | zero => exact absurd hfuel (Nat.not_lt_zero _)
    | succ fuel =>
      rw [height] at hfuel
      obtain ⟨n, rfl, hn, hpar, hl, hr⟩ := exists_root h
      obtain ⟨_, hleast, hgreatest⟩ := cacheOk_root hc hn
      obtain ⟨_, hlc, hrc⟩ := hc
      obtain ⟨hlb, hrb, hlr, hrl⟩ := hbal
      obtain ⟨m, hmin, hm⟩ := ivtMin_run hn hl hr hlc hrc
      obtain ⟨m', hmax, hm'⟩ := ivtMax_run hn hl hr hlc hrc
      have hminEq : n.min = m := UInt64.le_antisymm (hleast.2 hm.1) (hm.2 hleast.1)
      have hmaxEq : n.max = m' := UInt64.le_antisymm (hm'.2 hgreatest.1) (hgreatest.2 hm'.1)
      rw [ivtValidate]
      simp only [Option.isNone_some, Bool.false_eq_true, if_false]
      rw [run_bind_of_ok (deref_run hn), run_bind_of_ok (ihl count hl hlc hlb (by omega)),
        run_bind_of_ok (ihr _ hr hrc hrb (by omega)), hpar]
      simp only [bne_self_eq_false, Bool.false_eq_true, if_false]
      rw [run_bind_of_ok hmin, hminEq]
      simp only [bne_self_eq_false, Bool.false_eq_true, if_false]
      rw [run_bind_of_ok hmax, hmaxEq]
      simp only [bne_self_eq_false, Bool.false_eq_true, if_false]
      rw [run_bind_of_ok (ivtBalance_run hn hl hr hlc hrc)]
      have hlow : ¬ (l.height : Int) - r.height < -1 := by omega
      have hhigh : ¬ (l.height : Int) - r.height > 1 := by omega
      simp only [hlow, hhigh, decide_false, Bool.or_self, Bool.false_eq_true, if_false,
        run_pure_eq, numNodes]
      congr 2
      omega

/-- `validate` passes on every tree that satisfies the invariant. -/
theorem validate_run {s : Store T} {t : BinaryTree Addr} (h : Wf s t) :
    validate.run s = .ok ((), s) := by
  have hrun := ivtValidate_run 0 h.rep h.cached h.balanced h.height_lt_bound
  rw [validate, run_bind_of_ok (run_get_eq s), run_bind_of_ok (run_get_eq s)]
  refine (run_bind_of_ok hrun).trans ?_
  rw [run_bind_of_ok (run_get_eq s), h.size]
  simp

end Mwr.Interval
