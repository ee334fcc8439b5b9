import Mathlib.Data.List.TakeWhile
import Mwr.Interval.World

/-!
# Iteration

The iterators of `interval_tree` go from node to node with `ivt_next`, which climbs the
parent pointers.  `iterate` is a loop over all entries.

* `ivtNext_run` and `ivtPrev_run_of_mem` give the neighbours of a node in the order of the
  tree, and `iterate_run` what the loop visits.
* `History` records when the entries of a program were inserted, and `Ordered` says how the
  entries of a tree are ordered by it.
* `reachable_iterate` is the result for every program.
-/

namespace Mwr.Interval

open BinaryTree
open Mwr.CodeLib
open Mwr.CodeLib.AvlTree (Path inorder rightmost)
open Mwr.CodeLib.LinkedTree
open Mwr.CodeLib.Exec
open Mwr.CodeLib.Transition

variable {T : Type}

/-! ## The code -/

/-- `begin()`. -/
def iterBegin : Op T (Option Addr) := do
  ivtFirst (← get).bound (← get).root

/-- `end()`. -/
def iterEnd : Option Addr := none

/-- `operator++`. -/
def iterNext (it : Option Addr) : Op T (Option Addr) := do
  ivtNext (← get).bound it

/-- `for (; it != end(); it++)`, with the nodes that it visits. -/
def iterateFrom : Nat → Option Addr → Op T (List (Option Addr))
  | 0, _ => throw .fuel
  | fuel + 1, it => do
    if it == iterEnd then
      return []
    let next ← iterNext it
    return it :: (← iterateFrom fuel next)

/-- `for (auto it = begin(); it != end(); it++)`. -/
def iterate : Op T (List (Option Addr)) := do
  iterateFrom (← get).bound (← iterBegin)

/-! ## The neighbours of a node -/

section Neighbours

variable {s : Store T}

theorem ivtFirst_run {t : BinaryTree Addr} :
    ∀ {fuel : Nat} {par p : Option Addr}, Links s.linked par p t → t.height < fuel →
      (ivtFirst fuel p).run s = .ok ((inorder t).head?, s) := by
  induction t with
  | nil =>
    intro fuel par p h hfuel
    cases h
    cases fuel with
    | zero => exact absurd hfuel (Nat.not_lt_zero _)
    | succ fuel => rfl
  | node a l r ihl _ =>
    intro fuel par p h hfuel
    obtain ⟨n, rfl, hn, _, hl, _⟩ := exists_root h
    cases fuel with
    | zero => exact absurd hfuel (Nat.not_lt_zero _)
    | succ fuel =>
      rw [height] at hfuel
      rw [ivtFirst]
      simp only [Option.isNone_some, Bool.false_eq_true, if_false]
      rw [run_bind_of_ok (deref_run hn)]
      cases l with
      | nil =>
        rw [show n.left = none from hl]
        rfl
      | node b ll lr =>
        have hleft : n.left = some b := hl.eq_rootLabel
        have hlt : (node b ll lr).height < fuel := by omega
        have hrun := ihl hl hlt
        rw [hleft] at hrun ⊢
        simp only [Option.isNone_some, Bool.false_eq_true, if_false]
        rw [hrun, AvlTree.inorder_node a, List.head?_append_of_ne_nil _ (by simp)]

/-- A node of the heap that a path leads to. -/
structure At (s : Store T) (c : Path Addr) (a : Addr) (n : IvtNode T) : Prop where
  path : PathLinks s.linked c
  nodup : c.labels.Nodup
  slot : s.linked.slot (slotOf c) = some a
  cells : s.cells a = some n
  parent : n.parent = holder c
  fresh : a ∉ c.labels

/-- The holder of a left slot. -/
theorem At.left {up : Path Addr} {a b : Addr} {r : BinaryTree Addr} {n : IvtNode T}
    (h : At s (.left b r up) a n) :
    ∃ m, At s up b m ∧ n.parent = some b ∧ m.left = some a ∧ m.right ≠ some a := by
  obtain ⟨hslot, ⟨k, hk, hpar, hr⟩, hup⟩ := h.path
  obtain ⟨m, hm, rfl⟩ := Store.exists_cells hk
  obtain ⟨_, hbup, hnodup⟩ := nodup_labels_left h.nodup
  refine ⟨m, ⟨hup, hnodup, hslot, hm, hpar, hbup⟩, h.parent, ?_, ?_⟩
  · exact (slot_left_of_cells hm).symm.trans h.slot
  · exact fun hright => h.fresh (mem_labels_left.2 (.inr (.inl (hr.rootLabel_mem hright))))

/-- The holder of a right slot. -/
theorem At.right {up : Path Addr} {a b : Addr} {l : BinaryTree Addr} {n : IvtNode T}
    (h : At s (.right b l up) a n) :
    ∃ m, At s up b m ∧ n.parent = some b ∧ m.right = some a ∧ m.left ≠ some a := by
  obtain ⟨hslot, ⟨k, hk, hpar, hl⟩, hup⟩ := h.path
  obtain ⟨m, hm, rfl⟩ := Store.exists_cells hk
  obtain ⟨_, hbup, hnodup⟩ := nodup_labels_right h.nodup
  refine ⟨m, ⟨hup, hnodup, hslot, hm, hpar, hbup⟩, h.parent, ?_, ?_⟩
  · exact (slot_right_of_cells hm).symm.trans h.slot
  · exact fun hleft => h.fresh (mem_labels_right.2 (.inr (.inl (hl.rootLabel_mem hleft))))

theorem ivtIsLeft_run {a b : Addr} {n m : IvtNode T} (hn : s.cells a = some n)
    (hpar : n.parent = some b) (hm : s.cells b = some m) :
    (ivtIsLeft (some a)).run s = .ok (some a == m.left, s) := by
  rw [ivtIsLeft, run_bind_of_ok (deref_run hn), hpar, run_bind_of_ok (deref_run hm)]
  rfl

theorem ivtIsRight_run {a b : Addr} {n m : IvtNode T} (hn : s.cells a = some n)
    (hpar : n.parent = some b) (hm : s.cells b = some m) :
    (ivtIsRight (some a)).run s = .ok (some a == m.right, s) := by
  rw [ivtIsRight, run_bind_of_ok (deref_run hn), hpar, run_bind_of_ok (deref_run hm)]
  rfl

/-- One level of the climb. -/
theorem climbRight_succ_run {c : Path Addr} {a b : Addr} {n m : IvtNode T} (h : At s c a n)
    (hpar : n.parent = some b) (hm : s.cells b = some m) (fuel : Nat) :
    (climbRight (fuel + 1) (some a)).run s =
      (if some a == m.right then climbRight fuel (some b) else pure (some b) :
        Op T (Option Addr)).run s := by
  rw [climbRight, run_bind_of_ok (deref_run h.cells), hpar]
  simp only [Option.isNone_some, Bool.false_eq_true, if_false]
  rw [run_bind_of_ok (ivtIsRight_run h.cells hpar hm)]

theorem climbLeft_succ_run {c : Path Addr} {a b : Addr} {n m : IvtNode T} (h : At s c a n)
    (hpar : n.parent = some b) (hm : s.cells b = some m) (fuel : Nat) :
    (climbLeft (fuel + 1) (some a)).run s =
      (if some a == m.left then climbLeft fuel (some b) else pure (some b) :
        Op T (Option Addr)).run s := by
  rw [climbLeft, run_bind_of_ok (deref_run h.cells), hpar]
  simp only [Option.isNone_some, Bool.false_eq_true, if_false]
  rw [run_bind_of_ok (ivtIsLeft_run h.cells hpar hm)]

/-- The climb out of right subtrees ends at the first label behind the hole. -/
theorem climbRight_run {c : Path Addr} :
    ∀ {fuel : Nat} {a : Addr} {n : IvtNode T}, At s c a n → c.depth < fuel →
      (climbRight fuel (some a)).run s = .ok (c.after.head?, s) := by
  induction c with
  | top =>
    intro fuel a n h hfuel
    cases fuel with
    | zero => exact absurd hfuel (Nat.not_lt_zero _)
    | succ fuel =>
      rw [climbRight, run_bind_of_ok (deref_run h.cells), show n.parent = none from h.parent]
      rfl
  | left b r up _ =>
    intro fuel a n h hfuel
    obtain ⟨m, hm, hpar, _, hright⟩ := h.left
    cases fuel with
    | zero => exact absurd hfuel (Nat.not_lt_zero _)
    | succ fuel =>
      rw [climbRight_succ_run h hpar hm.cells, beq_false_of_ne (Ne.symm hright)]
      rfl
  | right b l up ih =>
    intro fuel a n h hfuel
    obtain ⟨m, hm, hpar, hright, _⟩ := h.right
    cases fuel with
    | zero => exact absurd hfuel (Nat.not_lt_zero _)
    | succ fuel =>
      rw [climbRight_succ_run h hpar hm.cells, hright, beq_self_eq_true, if_pos rfl]
      exact ih hm (Nat.lt_of_succ_lt_succ hfuel)

/-- The climb out of left subtrees ends at the last label before the hole. -/
theorem climbLeft_run {c : Path Addr} :
    ∀ {fuel : Nat} {a : Addr} {n : IvtNode T}, At s c a n → c.depth < fuel →
      (climbLeft fuel (some a)).run s = .ok (c.before.getLast?, s) := by
  induction c with
  | top =>
    intro fuel a n h hfuel
    cases fuel with
    | zero => exact absurd hfuel (Nat.not_lt_zero _)
    | succ fuel =>
      rw [climbLeft, run_bind_of_ok (deref_run h.cells), show n.parent = none from h.parent]
      rfl
  | left b r up ih =>
    intro fuel a n h hfuel
    obtain ⟨m, hm, hpar, hleft, _⟩ := h.left
    cases fuel with
    | zero => exact absurd hfuel (Nat.not_lt_zero _)
    | succ fuel =>
      rw [climbLeft_succ_run h hpar hm.cells, hleft, beq_self_eq_true, if_pos rfl]
      exact ih hm (Nat.lt_of_succ_lt_succ hfuel)
  | right b l up _ =>
    intro fuel a n h hfuel
    obtain ⟨m, hm, hpar, _, hleft⟩ := h.right
    cases fuel with
    | zero => exact absurd hfuel (Nat.not_lt_zero _)
    | succ fuel =>
      rw [climbLeft_succ_run h hpar hm.cells, beq_false_of_ne (Ne.symm hleft), Path.before,
        ← List.append_assoc, List.getLast?_concat]
      rfl

/-- A node of a represented tree. -/
theorem exists_at {c : Path Addr} {a : Addr} {l r : BinaryTree Addr}
    (h : Rep s.linked (c.plug (.node a l r))) (hnodup : (inorder (c.plug (.node a l r))).Nodup) :
    ∃ n, At s c a n ∧ Links s.linked (some a) n.left l ∧ Links s.linked (some a) n.right r := by
  obtain ⟨hc, ht⟩ := rep_plug.1 h
  obtain ⟨_, hcn, hdisj⟩ := nodup_plug.1 hnodup
  obtain ⟨n, hslot, hn, hpar, hl, hr⟩ := exists_root ht
  exact ⟨n, ⟨hc, hcn, hslot, hn, hpar, hdisj a (by simp)⟩, hl, hr⟩

/-- The next node is the first one of the right subtree and of what is behind it. -/
theorem ivtNext_run {c : Path Addr} {a : Addr} {l r : BinaryTree Addr} {fuel : Nat}
    (h : Rep s.linked (c.plug (.node a l r))) (hnodup : (inorder (c.plug (.node a l r))).Nodup)
    (hr : r.height < fuel) (hc : c.depth < fuel) :
    (ivtNext fuel (some a)).run s = .ok ((inorder r ++ c.after).head?, s) := by
  obtain ⟨n, hat, _, hright⟩ := exists_at h hnodup
  rw [ivtNext]
  simp only [Option.isNone_some, Bool.false_eq_true, if_false]
  rw [run_bind_of_ok (deref_run hat.cells)]
  cases r with
  | nil =>
    rw [show n.right = none from hright]
    exact climbRight_run hat hc
  | node b rl rr =>
    have hsome : n.right = some b := hright.eq_rootLabel
    rw [hsome] at hright ⊢
    rw [List.head?_append_of_ne_nil _ (by simp)]
    exact ivtFirst_run hright hr

/-- The previous node is the last one of the left subtree and of what is before it. -/
theorem ivtPrev_run_of_rep {c : Path Addr} {a : Addr} {l r : BinaryTree Addr} {fuel : Nat}
    (h : Rep s.linked (c.plug (.node a l r))) (hnodup : (inorder (c.plug (.node a l r))).Nodup)
    (hl : l.height < fuel) (hc : c.depth < fuel) :
    (ivtPrev fuel (some a)).run s = .ok ((c.before ++ inorder l).getLast?, s) := by
  obtain ⟨n, hat, hleft, _⟩ := exists_at h hnodup
  cases l with
  | nil =>
    rw [ivtPrev]
    simp only [Option.isNone_some, Bool.false_eq_true, if_false]
    rw [run_bind_of_ok (deref_run hat.cells), show n.left = none from hleft,
      AvlTree.inorder_nil, List.append_nil]
    exact climbLeft_run hat hc
  | node b ll lr =>
    rw [height] at hl
    rw [List.getLast?_append_of_ne_nil _ (by simp), AvlTree.getLast?_inorder c]
    exact ivtPrev_run fuel c hat.cells hleft (by omega)

end Neighbours

/-! ## A loop over the entries -/

section Loop

variable {s : Store T} {t : BinaryTree Addr} {before behind : List Addr} {a : Addr}

/-- A node of a tree object, with room for its subtrees and its path in the bound. -/
theorem Wf.exists_plug (h : Wf s t) (ht : inorder t = before ++ a :: behind) :
    ∃ (c : Path Addr) (l r : BinaryTree Addr), t = c.plug (.node a l r) ∧
      before = c.before ++ inorder l ∧ behind = inorder r ++ c.after ∧ l.height < s.bound ∧
      r.height < s.bound ∧ c.depth < s.bound := by
  have ha : a ∈ inorder t := ht ▸ List.mem_append_right _ List.mem_cons_self
  obtain ⟨c, l, r, rfl⟩ := Path.exists_plug_of_mem ha
  have hsplit : inorder (c.plug (.node a l r)) =
      (c.before ++ inorder l) ++ a :: (inorder r ++ c.after) := by
    simp [Path.inorder_plug]
  have hnodup := h.nodup
  rw [hsplit, List.nodup_middle, List.nodup_cons, List.mem_append, not_or] at hnodup
  obtain ⟨hbefore, -, hbehind⟩ :=
    (List.append_cons_inj_of_notMem hnodup.1.1 hnodup.1.2).1 (hsplit.symm.trans ht)
  have hbound : s.bound = (c.before ++ inorder l).length + (inorder r ++ c.after).length + 2 := by
    rw [Store.bound, h.size, ← AvlTree.length_inorder, hsplit, List.length_append, List.length_cons]
    omega
  rw [List.length_append, List.length_append, AvlTree.length_inorder,
    AvlTree.length_inorder] at hbound
  have hl := l.height_le_numNodes
  have hr := r.height_le_numNodes
  have hc := c.depth_le_length_labels
  rw [Path.labels, List.length_append] at hc
  exact ⟨c, l, r, rfl, hbefore.symm, hbehind.symm, by omega, by omega, by omega⟩

theorem ivtNext_run_of_mem (h : Wf s t) (ht : inorder t = before ++ a :: behind) :
    (ivtNext s.bound (some a)).run s = .ok (behind.head?, s) := by
  obtain ⟨c, l, r, rfl, -, rfl, -, hr, hc⟩ := h.exists_plug ht
  exact ivtNext_run h.rep h.nodup hr hc

theorem ivtPrev_run_of_mem (h : Wf s t) (ht : inorder t = before ++ a :: behind) :
    (ivtPrev s.bound (some a)).run s = .ok (before.getLast?, s) := by
  obtain ⟨c, l, r, rfl, rfl, -, hl, -, hc⟩ := h.exists_plug ht
  exact ivtPrev_run_of_rep h.rep h.nodup hl hc

/-- The loop visits the nodes from where it is. -/
theorem iterateFrom_run (h : Wf s t) :
    ∀ {fuel : Nat} {before behind : List Addr}, inorder t = before ++ behind →
      behind.length < fuel →
      (iterateFrom fuel behind.head?).run s = .ok (behind.map some, s) := by
  intro fuel
  induction fuel with
  | zero => exact fun _ hfuel => absurd hfuel (Nat.not_lt_zero _)
  | succ fuel ih =>
    intro before behind ht hfuel
    cases behind with
    | nil => rfl
    | cons a behind =>
      have ht' : inorder t = (before ++ [a]) ++ behind := by
        rw [ht, List.append_assoc, List.singleton_append]
      have hnext : (iterNext (some a)).run s = .ok (behind.head?, s) := ivtNext_run_of_mem h ht
      rw [List.head?_cons, iterateFrom, if_neg (by simp [iterEnd]), run_bind_of_ok hnext,
        run_bind_of_ok (ih ht' (Nat.lt_of_succ_lt_succ hfuel))]
      rfl

theorem iterate_run (h : Wf s t) : iterate.run s = .ok ((inorder t).map some, s) := by
  have hbegin : iterBegin.run s = .ok ((inorder t).head?, s) :=
    ivtFirst_run h.rep h.height_lt_bound
  have hlen : (inorder t).length < s.bound := by
    rw [AvlTree.length_inorder, Store.bound, h.size]
    exact Nat.lt_succ_self _
  rw [iterate, run_bind_of_ok (run_get_eq s), run_bind_of_ok hbegin]
  exact iterateFrom_run h (List.nil_append _).symm hlen

end Loop

/-! ## The order of the insertions -/

/-- The number of insertions so far, and for every node the number of those before its own. -/
structure History where
  clock : Nat
  time : Addr → Nat

/-- A new node at `a`. -/
def History.insert (hist : History) (a : Addr) : History where
  clock := hist.clock + 1
  time := Function.update hist.time a hist.clock

theorem History.time_insert_self (hist : History) (a : Addr) :
    (hist.insert a).time a = hist.clock := Function.update_self _ _ _

theorem History.time_insert_of_ne (hist : History) {a b : Addr} (h : b ≠ a) :
    (hist.insert a).time b = hist.time b := Function.update_of_ne h _ _

/-- What an operation adds to the history. -/
def note : Act T → History → History
  | .insert _ a _ _ _, hist => hist.insert a
  | _, hist => hist

/-- All runs of all programs, with their histories. -/
def observed (T : Type) : System (World T × History) (Act T) :=
  (system T).withHistory ⟨0, fun _ => 0⟩ note

/-- Entries are ordered by their starts.  Of two that start together the later insertion
comes first. -/
def Precedes (hist : History) (e e' : Entry T) : Prop :=
  e.lo < e'.lo ∨ e.lo = e'.lo ∧ hist.time e'.id < hist.time e.id

/-- The entries of a tree. -/
structure Ordered (hist : History) (es : List (Entry T)) : Prop where
  past : ∀ e ∈ es, hist.time e.id < hist.clock
  pairwise : es.Pairwise (Precedes hist)

section Ordered

variable {hist : History} {es es' : List (Entry T)}

theorem Precedes.lo_le {e e' : Entry T} (h : Precedes hist e e') : e.lo ≤ e'.lo := by
  rcases h with hlt | ⟨heq, _⟩
  · exact UInt64.le_of_lt hlt
  · exact UInt64.le_of_eq heq

theorem ordered_nil (hist : History) : Ordered hist ([] : List (Entry T)) :=
  ⟨fun _ he => absurd he List.not_mem_nil, .nil⟩

theorem Ordered.sublist (h : Ordered hist es) (hsub : es'.Sublist es) : Ordered hist es' :=
  ⟨fun e he => h.past e (hsub.subset he), h.pairwise.sublist hsub⟩

/-- A new node changes nothing for the others. -/
theorem Ordered.insert (h : Ordered hist es) {a : Addr} (ha : ∀ e ∈ es, e.id ≠ a) :
    Ordered (hist.insert a) es := by
  have htime : ∀ e ∈ es, (hist.insert a).time e.id = hist.time e.id :=
    fun e he => hist.time_insert_of_ne (ha e he)
  refine ⟨fun e he => ?_, h.pairwise.imp_of_mem fun he he' hle => ?_⟩
  · rw [htime e he]
    exact Nat.lt_succ_of_lt (h.past e he)
  · rw [Precedes, htime _ he, htime _ he']
    exact hle

/-- The entries behind the place of an insertion. -/
theorem Ordered.le_of_mem_dropWhile (h : Ordered hist es) {x : UInt64} {e : Entry T}
    (he : e ∈ es.dropWhile fun e' => e'.lo < x) : x ≤ e.lo := by
  obtain ⟨-, hpair⟩ := h
  induction es with
  | nil => exact absurd he List.not_mem_nil
  | cons e₀ es ih =>
    obtain ⟨hhead, htail⟩ := List.pairwise_cons.1 hpair
    rw [List.dropWhile_cons] at he
    split at he
    next => exact ih he htail
    next hge =>
      have hx : x ≤ e₀.lo := UInt64.not_lt.1 (by simpa using hge)
      rcases List.mem_cons.1 he with rfl | he
      · exact hx
      · exact UInt64.le_trans hx (hhead e he).lo_le

/-- The new entry comes before the ones that start with it, which are older. -/
theorem Ordered.insertEntry (h : Ordered hist es) (e : Entry T) (he : ∀ e' ∈ es, e'.id ≠ e.id) :
    Ordered (hist.insert e.id) (insertEntry e es) := by
  have hold := h.insert he
  have htake := hold.sublist (List.takeWhile_sublist fun e' => decide (e'.lo < e.lo))
  have hdrop := hold.sublist (List.dropWhile_sublist fun e' => decide (e'.lo < e.lo))
  have hbehind : ∀ e' ∈ es.dropWhile (fun e' => decide (e'.lo < e.lo)),
      Precedes (hist.insert e.id) e e' := by
    intro e' he'
    have hmem : e' ∈ es := (List.dropWhile_sublist _).subset he'
    rcases UInt64.lt_or_eq_of_le (h.le_of_mem_dropWhile he') with hlt | heq
    · exact .inl hlt
    · refine .inr ⟨heq, ?_⟩
      rw [hist.time_insert_self, hist.time_insert_of_ne (he e' hmem)]
      exact h.past e' hmem
  rw [Interval.insertEntry]
  refine ⟨fun e' he' => ?_, List.pairwise_append.2 ⟨htake.pairwise,
    List.pairwise_cons.2 ⟨hbehind, hdrop.pairwise⟩, fun e₁ he₁ e₂ he₂ => ?_⟩⟩
  · rcases List.mem_append.1 he' with he' | he'
    · exact htake.past e' he'
    · rcases List.mem_cons.1 he' with rfl | he'
      · rw [hist.time_insert_self]
        exact Nat.lt_succ_self _
      · exact hdrop.past e' he'
  · have hlt : e₁.lo < e.lo := by simpa using List.mem_takeWhile_imp he₁
    rcases List.mem_cons.1 he₂ with rfl | he₂
    · exact .inl hlt
    · exact .inl (UInt64.lt_of_lt_of_le hlt (h.le_of_mem_dropWhile he₂))

end Ordered

/-- The entries of every tree of a program are ordered by its history. -/
def Recorded (p : World T × History) : Prop :=
  ∀ i es, p.1.meaning i = some es → Ordered p.2 es

/-- A change of one list. -/
theorem ordered_update {hist : History} {g : Meaning T} {i : Nat} {o : Option (List (Entry T))}
    (hg : ∀ j es, g j = some es → Ordered hist es) (ho : ∀ es, o = some es → Ordered hist es)
    (j : Nat) (es : List (Entry T)) (hes : Function.update g i o j = some es) :
    Ordered hist es := by
  by_cases hji : j = i
  · rw [hji, Function.update_self] at hes
    exact ho es hes
  · rw [Function.update_of_ne hji] at hes
    exact hg j es hes

theorem recorded_apply {w : World T} (h : (system T).Reachable w) {hist : History}
    (hw : Recorded (w, hist)) {act : Act T} (he : Enabled w act) (i : Nat) (es : List (Entry T))
    (hes : act.apply w.meaning i = some es) : Ordered (note act hist) es := by
  have hnil : ∀ es, some ([] : List (Entry T)) = some es → Ordered hist es := by
    intro es hes
    cases hes
    exact ordered_nil hist
  cases act with
  | construct j => exact ordered_update hw hnil i es hes
  | insert j a start stop data =>
    have hfresh : ∀ (k : Nat) (es : List (Entry T)), w.meaning k = some es →
        ∀ e ∈ es, e.id ≠ a := ((enabled_iff_admits h).1 he).2.1
    refine ordered_update (fun k es hk => (hw k es hk).insert (hfresh k es hk)) ?_ i es hes
    intro es hes
    rw [Option.map_eq_some_iff] at hes
    obtain ⟨es₀, hj, rfl⟩ := hes
    exact (hw j es₀ hj).insertEntry ⟨a, start, stop, data⟩ (hfresh j es₀ hj)
  | remove j it =>
    cases it with
    | none => exact hw i es hes
    | some a =>
      refine ordered_update hw ?_ i es hes
      intro es hes
      rw [Option.map_eq_some_iff] at hes
      obtain ⟨es₀, hj, rfl⟩ := hes
      exact (hw j es₀ hj).sublist List.filter_sublist
  | clear j => exact ordered_update hw hnil i es hes
  | moveConstruct j k => exact ordered_update (ordered_update hw (hw k)) hnil i es hes
  | moveAssign j k =>
    rw [Act.apply] at hes
    split at hes
    next => exact hw i es hes
    next => exact ordered_update (ordered_update hw (hw k)) hnil i es hes
  | destroy j =>
    refine ordered_update hw ?_ i es hes
    intro es hes
    cases hes

theorem reachable_recorded {p : World T × History} (h : (observed T).Reachable p) :
    Recorded p := by
  refine h.invariant ?_ ?_
  · rintro ⟨w, hist⟩ ⟨rfl, rfl⟩ i es hes
    cases hes
  · rintro p act q hp hrec ⟨⟨he, hexec⟩, hnote⟩ i es hes
    rw [exec_meaning hp.fst he hexec] at hes
    rw [hnote]
    exact recorded_apply hp.fst hrec he i es hes

/-! ## What a program sees -/

/-- A loop over a tree visits each of its nodes once, in their order, and `ivt_next` and
`ivt_prev` go from one to the next and back. -/
structure Iterates (s : Store T) (hist : History) : Prop where
  visits : iterate.run s = .ok (s.nodes.map some, s)
  nodup : s.nodes.Nodup
  size : s.nodes.length = s.size
  nodes : s.entries.map Entry.id = s.nodes
  ordered : s.entries.Pairwise (Precedes hist)
  neighbours : ∀ before a behind, s.nodes = before ++ a :: behind →
    (ivtNext s.bound (some a)).run s = .ok (behind.head?, s) ∧
      (ivtPrev s.bound (some a)).run s = .ok (before.getLast?, s)
  inverse : ∀ a ∈ s.nodes, ∀ b ∈ s.nodes,
    (ivtNext s.bound (some a)).run s = .ok (some b, s) ↔
      (ivtPrev s.bound (some b)).run s = .ok (some a, s)

/-- Two nodes one after the other. -/
theorem Wf.ivtNext_iff_ivtPrev {s : Store T} {t : BinaryTree Addr} (h : Wf s t) {a b : Addr}
    (ha : a ∈ inorder t) (hb : b ∈ inorder t) :
    (ivtNext s.bound (some a)).run s = .ok (some b, s) ↔
      (ivtPrev s.bound (some b)).run s = .ok (some a, s) := by
  constructor
  · intro hnext
    obtain ⟨before, behind, ht⟩ := List.append_of_mem ha
    rw [ivtNext_run_of_mem h ht] at hnext
    cases behind with
    | nil => cases hnext
    | cons c behind =>
      cases hnext
      have ht' : inorder t = (before ++ [a]) ++ b :: behind := by
        rw [ht, List.append_assoc, List.singleton_append]
      rw [ivtPrev_run_of_mem h ht', List.getLast?_concat]
  · intro hprev
    obtain ⟨before, behind, ht⟩ := List.append_of_mem hb
    rw [ivtPrev_run_of_mem h ht] at hprev
    rcases List.eq_nil_or_concat before with rfl | ⟨before, c, rfl⟩
    · cases hprev
    · rw [List.concat_eq_append, List.getLast?_concat] at hprev
      cases hprev
      rw [List.concat_eq_append, List.append_assoc, List.singleton_append] at ht
      rw [ivtNext_run_of_mem h ht, List.head?_cons]

/-- Iteration is right for every tree of every program.  Entries that start together come in
the reverse order of their insertion. -/
theorem reachable_iterate {p : World T × History} (h : (observed T).Reachable p) {i : Nat}
    {s : Store T} (hs : p.1.tree i = some s) : Iterates s p.2 := by
  obtain ⟨shape, hholds⟩ := reachable_holds h.fst
  have hwf := hholds.wf i s hs
  have hmeaning : p.1.meaning i = some s.entries := by rw [World.meaning, hs, Option.map_some]
  refine ⟨?_, ?_, ?_, ?_, (reachable_recorded h i _ hmeaning).pairwise, ?_, ?_⟩
  · rw [hwf.nodes_eq]
    exact iterate_run hwf
  · rw [hwf.nodes_eq]
    exact hwf.nodup
  · rw [hwf.nodes_eq, AvlTree.length_inorder, hwf.size]
  · rw [hwf.nodes_eq]
    exact hwf.map_id_entries
  · intro before a behind ht
    rw [hwf.nodes_eq] at ht
    exact ⟨ivtNext_run_of_mem hwf ht, ivtPrev_run_of_mem hwf ht⟩
  · intro a ha b hb
    rw [hwf.nodes_eq] at ha hb
    exact hwf.ivtNext_iff_ivtPrev ha hb

theorem reachable_iterate_sample :
    ∃ w s hist, sample.foldlM exec World.empty = .ok w ∧ w.tree 0 = some s ∧
      iterate.run s = .ok ([some 4, some 1, some 5, some 2], s) ∧ Iterates s hist := by
  obtain ⟨w, s, hrun, hreach, hs, hentries⟩ := reachable_sample
  obtain ⟨hist, h⟩ : ∃ hist, (observed Unit).Reachable (w, hist) := hreach.exists_history
  have hiterates := reachable_iterate h hs
  have hvisits := hiterates.visits
  rw [← hiterates.nodes, hentries] at hvisits
  exact ⟨w, s, hist, hrun, hs, hvisits, hiterates⟩

end Mwr.Interval
