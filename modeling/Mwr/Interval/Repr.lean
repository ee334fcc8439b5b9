import Mathlib.Order.Bounds.Basic
import Mwr.CodeLib.Exec
import Mwr.CodeLib.LinkedTree
import Mwr.Interval.Model

/-!
# What a heap of interval nodes represents

The fields of a node fall into three groups, and each function of the tree
touches only some of them: the links `parent`, `left` and `right`, the caches
`height`, `min` and `max`, and the item `lo`, `hi` and `data`.  `Store.linked`,
`Store.cache` and `Store.item` are the three views of the heap.

* The shape is a `BinaryTree Addr`, and `LinkedTree.Rep s.linked t` says that
  the links of the heap are those of `t`.
* `Cached s t` says that every node of `t` caches the height and the hull of
  its own subtree.
* `Frame s s' S W` says what a call leaves alone: every item, the caches off
  `S`, and the links off `W`.

The rest of the module runs the primitive operations in these terms.
-/

namespace Mwr.Interval

open BinaryTree
open Mwr.CodeLib.AvlTree (Path inorder Balanced)
open Mwr.CodeLib.LinkedTree
open Mwr.CodeLib.Exec

variable {T : Type}

/-! ## The three views of a node -/

/-- The fields that `ivt_refresh` derives. -/
structure Cache where
  height : Nat
  min : UInt64
  max : UInt64

/-- The fields that `insert` sets and nothing in the tree changes. -/
structure Item (T : Type) where
  lo : UInt64
  hi : UInt64
  data : T

def IvtNode.link (n : IvtNode T) : Link Addr := ⟨n.parent, n.left, n.right⟩

def IvtNode.cache (n : IvtNode T) : Cache := ⟨n.height, n.min, n.max⟩

def IvtNode.item (n : IvtNode T) : Item T := ⟨n.lo, n.hi, n.data⟩

def Store.linked (s : Store T) : Linked Addr where
  root := s.root
  link := fun a => (s.cells a).map IvtNode.link

def Store.cache (s : Store T) (a : Addr) : Option Cache := (s.cells a).map IvtNode.cache

def Store.item (s : Store T) (a : Addr) : Option (Item T) := (s.cells a).map IvtNode.item

/-- The start of the interval at `a`. -/
def Store.lo (s : Store T) (a : Addr) : UInt64 := ((s.item a).map Item.lo).getD 0

/-- The end of the interval at `a`. -/
def Store.hi (s : Store T) (a : Addr) : UInt64 := ((s.item a).map Item.hi).getD 0

theorem Store.lo_congr {s s' : Store T} {a : Addr} (h : s'.item a = s.item a) :
    s'.lo a = s.lo a := by
  rw [Store.lo, Store.lo, h]

theorem Store.hi_congr {s s' : Store T} {a : Addr} (h : s'.item a = s.item a) :
    s'.hi a = s.hi a := by
  rw [Store.hi, Store.hi, h]

theorem Store.lo_of_cells {s : Store T} {a : Addr} {n : IvtNode T} (h : s.cells a = some n) :
    s.lo a = n.lo := by
  simp [Store.lo, Store.item, h, IvtNode.item]

theorem Store.hi_of_cells {s : Store T} {a : Addr} {n : IvtNode T} (h : s.cells a = some n) :
    s.hi a = n.hi := by
  simp [Store.hi, Store.item, h, IvtNode.item]

/-- The node at `a` comes before the node at `b` when it is inserted. -/
def Store.le (s : Store T) (a b : Addr) : Prop := s.lo a ≤ s.lo b

instance (s : Store T) : DecidableRel s.le := fun a b =>
  inferInstanceAs (Decidable (s.lo a ≤ s.lo b))

theorem Store.le_congr {s s' : Store T} (h : s'.item = s.item) : s'.le = s.le := by
  funext a b
  rw [Store.le, Store.le, Store.lo_congr (congrFun h a), Store.lo_congr (congrFun h b)]

instance (s : Store T) : Std.Total s.le :=
  ⟨fun _ _ => by simpa only [Store.le, UInt64.le_iff_toNat_le] using Nat.le_total _ _⟩

instance (s : Store T) : IsTrans Addr s.le :=
  ⟨fun _ _ _ => UInt64.le_trans⟩

/-- A node is determined by the three views. -/
theorem Store.cells_congr {s s' : Store T} {a : Addr}
    (hl : s'.linked.link a = s.linked.link a) (hc : s'.cache a = s.cache a)
    (hi : s'.item a = s.item a) : s'.cells a = s.cells a := by
  simp only [Store.linked, Store.cache, Store.item] at hl hc hi
  cases h : s.cells a with
  | none => simpa [h] using hl
  | some n =>
    cases h' : s'.cells a with
    | none => simp [h, h'] at hl
    | some n' =>
      simp only [h, h', Option.map_some, Option.some.injEq, IvtNode.link, IvtNode.cache,
        IvtNode.item, Link.mk.injEq, Cache.mk.injEq, Item.mk.injEq] at hl hc hi
      cases n
      cases n'
      simp_all

/-- The node behind a link. -/
theorem Store.exists_cells {s : Store T} {a : Addr} {k : Link Addr}
    (h : s.linked.link a = some k) : ∃ n, s.cells a = some n ∧ n.link = k := by
  simpa [Store.linked, Option.map_eq_some_iff] using h

/-! ## Cached heights and hulls -/

/-- `k` holds the height of `t`, its smallest start and its largest end. -/
def CacheOk (s : Store T) (k : Cache) (t : BinaryTree Addr) : Prop :=
  k.height = t.height ∧
    IsLeast {v | ∃ a ∈ inorder t, s.lo a = v} k.min ∧
    IsGreatest {v | ∃ a ∈ inorder t, s.hi a = v} k.max

/-- Every node of the tree caches the height and the hull of its subtree. -/
def Cached (s : Store T) : BinaryTree Addr → Prop
  | .nil => True
  | .node a l r =>
    (∃ k, s.cache a = some k ∧ CacheOk s k (.node a l r)) ∧ Cached s l ∧ Cached s r

/-- The subtrees beside a path are cached. -/
def PathCached (s : Store T) : Path Addr → Prop
  | .top => True
  | .left _ r up => Cached s r ∧ PathCached s up
  | .right _ l up => Cached s l ∧ PathCached s up

theorem CacheOk.congr {s s' : Store T} {k : Cache} {t : BinaryTree Addr}
    (h : CacheOk s k t) (hlo : ∀ a ∈ inorder t, s'.lo a = s.lo a)
    (hhi : ∀ a ∈ inorder t, s'.hi a = s.hi a) : CacheOk s' k t := by
  have hlo' : ∀ v, (∃ a ∈ inorder t, s'.lo a = v) ↔ ∃ a ∈ inorder t, s.lo a = v :=
    fun v => exists_congr fun a => and_congr_right fun ha => by rw [hlo a ha]
  have hhi' : ∀ v, (∃ a ∈ inorder t, s'.hi a = v) ↔ ∃ a ∈ inorder t, s.hi a = v :=
    fun v => exists_congr fun a => and_congr_right fun ha => by rw [hhi a ha]
  simp only [CacheOk, hlo', hhi']
  exact h

/-- A cached tree stays cached when its nodes keep their intervals and their
caches. -/
theorem Cached.congr {s s' : Store T} {t : BinaryTree Addr} (h : Cached s t)
    (hlo : ∀ a ∈ inorder t, s'.lo a = s.lo a) (hhi : ∀ a ∈ inorder t, s'.hi a = s.hi a)
    (hcache : ∀ a ∈ inorder t, s'.cache a = s.cache a) : Cached s' t := by
  induction t with
  | nil => trivial
  | node b l r ihl ihr =>
    obtain ⟨⟨k, hk, hok⟩, hl, hr⟩ := h
    have hleft : ∀ a ∈ inorder l, a ∈ inorder (.node b l r) := fun a ha => by simp [ha]
    have hright : ∀ a ∈ inorder r, a ∈ inorder (.node b l r) := fun a ha => by simp [ha]
    refine ⟨⟨k, ?_, hok.congr hlo hhi⟩, ?_, ?_⟩
    · rw [hcache b (by simp), hk]
    · exact ihl hl (fun a ha => hlo a (hleft a ha)) (fun a ha => hhi a (hleft a ha))
        fun a ha => hcache a (hleft a ha)
    · exact ihr hr (fun a ha => hlo a (hright a ha)) (fun a ha => hhi a (hright a ha))
        fun a ha => hcache a (hright a ha)

theorem Cached.frame {s s' : Store T} {t : BinaryTree Addr} (h : Cached s t)
    (hitem : s'.item = s.item) (hcache : ∀ a ∈ inorder t, s'.cache a = s.cache a) :
    Cached s' t :=
  h.congr (fun a _ => Store.lo_congr (congrFun hitem a))
    (fun a _ => Store.hi_congr (congrFun hitem a)) hcache

theorem PathCached.frame {s s' : Store T} {c : Path Addr} (h : PathCached s c)
    (hitem : s'.item = s.item) (heq : ∀ a ∈ c.labels, s'.cache a = s.cache a) :
    PathCached s' c := by
  induction c with
  | top => trivial
  | left b r up ih =>
    refine ⟨h.1.frame hitem fun a ha => heq a ?_, ih h.2 fun a ha => heq a ?_⟩
    · exact mem_labels_left.2 (.inr (.inl ha))
    · exact mem_labels_left.2 (.inr (.inr ha))
  | right b l up ih =>
    refine ⟨h.1.frame hitem fun a ha => heq a ?_, ih h.2 fun a ha => heq a ?_⟩
    · exact mem_labels_right.2 (.inr (.inl ha))
    · exact mem_labels_right.2 (.inr (.inr ha))

/-- A cached tree splits at a path into a cached subtree and cached subtrees
beside the path. -/
theorem Cached.of_plug {s : Store T} {c : Path Addr} {t : BinaryTree Addr}
    (h : Cached s (c.plug t)) : PathCached s c ∧ Cached s t := by
  induction c generalizing t with
  | top => exact ⟨trivial, h⟩
  | left a r up ih =>
    obtain ⟨hup, _, ht, hr⟩ := ih h
    exact ⟨⟨hr, hup⟩, ht⟩
  | right a l up ih =>
    obtain ⟨hup, _, hl, ht⟩ := ih h
    exact ⟨⟨hl, hup⟩, ht⟩

theorem pathCached_append {s : Store T} {c d : Path Addr} :
    PathCached s (c.append d) ↔ PathCached s c ∧ PathCached s d := by
  induction c with
  | top => simp [Path.append, PathCached]
  | left a r up ih => simp only [Path.append, PathCached, ih, and_assoc]
  | right a l up ih => simp only [Path.append, PathCached, ih, and_assoc]

/-! ## The invariant -/

/-- The representation invariant of a tree object: the heap holds the tree `t`
of nodes, which is balanced, sorted and fully cached, and `m_size` counts it. -/
structure Wf (s : Store T) (t : BinaryTree Addr) : Prop where
  rep : Rep s.linked t
  nodup : (inorder t).Nodup
  cached : Cached s t
  balanced : Balanced t
  sorted : (inorder t).Pairwise s.le
  proper : ∀ a ∈ inorder t, s.lo a ≤ s.hi a
  size : s.size = t.numNodes

/-- The invariant reads the links, the caches and the intervals of the nodes of
the tree, and nothing else. -/
theorem Wf.congr {s s' : Store T} {t : BinaryTree Addr} (h : Wf s t) (hroot : s'.root = s.root)
    (hsize : s'.size = s.size)
    (hlink : ∀ a ∈ inorder t, s'.linked.link a = s.linked.link a)
    (hlo : ∀ a ∈ inorder t, s'.lo a = s.lo a) (hhi : ∀ a ∈ inorder t, s'.hi a = s.hi a)
    (hcache : ∀ a ∈ inorder t, s'.cache a = s.cache a) : Wf s' t := by
  refine ⟨?_, h.nodup, h.cached.congr hlo hhi hcache, h.balanced, ?_, ?_, hsize.trans h.size⟩
  · rw [CodeLib.LinkedTree.Rep, Store.linked, hroot]
    exact h.rep.frame hlink
  · refine h.sorted.imp_of_mem fun ha hb hab => ?_
    rw [Store.le, hlo _ ha, hlo _ hb]
    exact hab
  · intro a ha
    rw [hlo a ha, hhi a ha]
    exact h.proper a ha

/-- The invariant holds in every state with the same tree object and nodes. -/
theorem Wf.congr_cells {s s' : Store T} {t : BinaryTree Addr} (h : Wf s t)
    (hroot : s'.root = s.root) (hsize : s'.size = s.size)
    (hcells : ∀ a ∈ inorder t, s'.cells a = s.cells a) : Wf s' t := by
  have hitem : ∀ a ∈ inorder t, s'.item a = s.item a := by
    intro a ha
    rw [Store.item, Store.item, hcells a ha]
  refine h.congr hroot hsize ?_ (fun a ha => Store.lo_congr (hitem a ha))
    (fun a ha => Store.hi_congr (hitem a ha)) ?_
  · intro a ha
    simp only [Store.linked, hcells a ha]
  · intro a ha
    rw [Store.cache, Store.cache, hcells a ha]

/-- The bound on loops and recursions exceeds the height. -/
theorem Wf.height_lt_bound {s : Store T} {t : BinaryTree Addr} (h : Wf s t) :
    t.height < s.bound := by
  rw [Store.bound, h.size]
  exact Nat.lt_succ_of_le t.height_le_numNodes

/-! ## What a call leaves alone -/

/-- A call keeps every item, the caches off `S` and the links off `W`. -/
structure Frame (s s' : Store T) (S W : List Addr) : Prop where
  size : s'.size = s.size
  item : s'.item = s.item
  cache : ∀ a ∉ S, s'.cache a = s.cache a
  link : ∀ a ∉ W, s'.linked.link a = s.linked.link a

theorem Frame.refl (s : Store T) (S W : List Addr) : Frame s s S W :=
  ⟨rfl, rfl, fun _ _ => rfl, fun _ _ => rfl⟩

theorem Frame.trans {s s' s'' : Store T} {S W : List Addr} (h : Frame s s' S W)
    (h' : Frame s' s'' S W) : Frame s s'' S W where
  size := h'.size.trans h.size
  item := h'.item.trans h.item
  cache := fun a ha => (h'.cache a ha).trans (h.cache a ha)
  link := fun a ha => (h'.link a ha).trans (h.link a ha)

theorem Frame.mono {s s' : Store T} {S W S' W' : List Addr} (h : Frame s s' S W)
    (hS : S ⊆ S') (hW : W ⊆ W') : Frame s s' S' W' where
  size := h.size
  item := h.item
  cache := fun a ha => h.cache a fun hS' => ha (hS hS')
  link := fun a ha => h.link a fun hW' => ha (hW hW')

/-- A node off both lists is unchanged. -/
theorem Frame.cells {s s' : Store T} {S W : List Addr} (h : Frame s s' S W) {a : Addr}
    (hS : a ∉ S) (hW : a ∉ W) : s'.cells a = s.cells a :=
  Store.cells_congr (h.link a hW) (h.cache a hS) (congrFun h.item a)

/-! ## Writes in the three views -/

/-- Change one node. -/
def Store.upd (s : Store T) (a : Addr) (f : IvtNode T → IvtNode T) : Store T :=
  { s with cells := Function.update s.cells a ((s.cells a).map f) }

def Store.setSlot (s : Store T) (p : Option Addr) : Slot Addr → Store T
  | .root => { s with root := p }
  | .left a => s.upd a fun n => { n with left := p }
  | .right a => s.upd a fun n => { n with right := p }

def Store.setParent (s : Store T) (par : Option Addr) : Option Addr → Store T
  | none => s
  | some a => s.upd a fun n => { n with parent := par }

def Store.transplant (s : Store T) (sl : Slot Addr) (p par : Option Addr) : Store T :=
  (s.setSlot p sl).setParent par p

def Store.setCache (s : Store T) (a : Addr) (k : Cache) : Store T :=
  s.upd a fun n => { n with height := k.height, min := k.min, max := k.max }

theorem Store.cells_upd_self {s : Store T} {a : Addr} {n : IvtNode T} (h : s.cells a = some n)
    (f : IvtNode T → IvtNode T) : (s.upd a f).cells a = some (f n) := by
  simp [Store.upd, h]

theorem Store.cells_upd_of_ne (s : Store T) {a b : Addr} (h : b ≠ a)
    (f : IvtNode T → IvtNode T) : (s.upd a f).cells b = s.cells b := by
  simp [Store.upd, h]

theorem Store.upd_upd (s : Store T) (a : Addr) (f g : IvtNode T → IvtNode T) :
    (s.upd a f).upd a g = s.upd a fun n => g (f n) := by
  simp [Store.upd, Function.comp_def]

/-- A view that a change of one node does not touch. -/
theorem Store.view_upd {β : Type} (view : IvtNode T → β) (s : Store T) (a : Addr)
    {f : IvtNode T → IvtNode T} (hf : ∀ n, view (f n) = view n) (b : Addr) :
    ((s.upd a f).cells b).map view = (s.cells b).map view := by
  by_cases h : b = a
  · subst h
    cases hb : s.cells b with
    | none => simp [Store.upd, hb]
    | some n => simp [Store.upd, hb, hf]
  · rw [s.cells_upd_of_ne h]

theorem Store.cache_upd (s : Store T) (a : Addr) {f : IvtNode T → IvtNode T}
    (hf : ∀ n, (f n).cache = n.cache) : (s.upd a f).cache = s.cache :=
  funext (s.view_upd IvtNode.cache a hf)

theorem Store.item_upd (s : Store T) (a : Addr) {f : IvtNode T → IvtNode T}
    (hf : ∀ n, (f n).item = n.item) : (s.upd a f).item = s.item :=
  funext (s.view_upd IvtNode.item a hf)

theorem Store.linked_upd (s : Store T) (a : Addr) {f : IvtNode T → IvtNode T}
    {φ : Link Addr → Link Addr} (hf : ∀ n, (f n).link = φ n.link) :
    (s.upd a f).linked = s.linked.upd a φ := by
  have hlink : (s.upd a f).linked.link = (s.linked.upd a φ).link := by
    funext b
    by_cases h : b = a
    · subst h
      cases hb : s.cells b with
      | none => simp [Store.linked, Store.upd, hb]
      | some n => simp [Store.linked, Store.upd, hb, hf]
    · rw [s.linked.link_upd_of_ne h]
      simp only [Store.linked, s.cells_upd_of_ne h]
  exact congrArg (Linked.mk s.root) hlink

/-- A change of the caches keeps the links. -/
theorem Store.linked_upd_of_link (s : Store T) (a : Addr) {f : IvtNode T → IvtNode T}
    (hf : ∀ n, (f n).link = n.link) : (s.upd a f).linked = s.linked :=
  congrArg (Linked.mk s.root) (funext (s.view_upd IvtNode.link a hf))

theorem Store.linked_setSlot (s : Store T) (p : Option Addr) (sl : Slot Addr) :
    (s.setSlot p sl).linked = s.linked.setSlot p sl := by
  cases sl with
  | root => rfl
  | left a => exact s.linked_upd a fun _ => rfl
  | right a => exact s.linked_upd a fun _ => rfl

theorem Store.cells_setSlot_of_ne (s : Store T) {sl : Slot Addr} {b : Addr}
    (h : sl.holder ≠ some b) (p : Option Addr) : (s.setSlot p sl).cells b = s.cells b := by
  cases sl with
  | root => rfl
  | left a => exact s.cells_upd_of_ne (fun hb => h (by rw [hb]; rfl)) _
  | right a => exact s.cells_upd_of_ne (fun hb => h (by rw [hb]; rfl)) _

/-- A write to a slot of a node depends on that node only. -/
theorem Store.cells_setSlot_congr {s s' : Store T} {b : Addr} (h : s'.cells b = s.cells b)
    (p : Option Addr) (sl : Slot Addr) : (s'.setSlot p sl).cells b = (s.setSlot p sl).cells b := by
  by_cases hsl : sl.holder = some b
  · cases sl with
    | root => cases hsl
    | left a =>
      cases hsl
      simp [Store.setSlot, Store.upd, h]
    | right a =>
      cases hsl
      simp [Store.setSlot, Store.upd, h]
  · rw [s'.cells_setSlot_of_ne hsl, s.cells_setSlot_of_ne hsl, h]

theorem Store.root_setSlot_congr {s s' : Store T} (h : s'.root = s.root) (p : Option Addr)
    (sl : Slot Addr) : (s'.setSlot p sl).root = (s.setSlot p sl).root := by
  cases sl with
  | root => rfl
  | left a => exact h
  | right a => exact h

theorem Store.size_setSlot (s : Store T) (p : Option Addr) (sl : Slot Addr) :
    (s.setSlot p sl).size = s.size := by
  cases sl <;> rfl

theorem Store.linked_setParent (s : Store T) (par p : Option Addr) :
    (s.setParent par p).linked = s.linked.setParent par p := by
  cases p with
  | none => rfl
  | some a => exact s.linked_upd a fun _ => rfl

@[simp] theorem Store.linked_transplant (s : Store T) (sl : Slot Addr) (p par : Option Addr) :
    (s.transplant sl p par).linked = s.linked.transplant sl p par := by
  rw [Store.transplant, Store.linked_setParent, Store.linked_setSlot, Linked.transplant]

@[simp] theorem Store.linked_setCache (s : Store T) (a : Addr) (k : Cache) :
    (s.setCache a k).linked = s.linked :=
  s.linked_upd_of_link a fun _ => rfl

theorem Store.cache_setSlot (s : Store T) (p : Option Addr) (sl : Slot Addr) :
    (s.setSlot p sl).cache = s.cache := by
  cases sl with
  | root => rfl
  | left a => exact s.cache_upd a fun _ => rfl
  | right a => exact s.cache_upd a fun _ => rfl

@[simp] theorem Store.cache_transplant (s : Store T) (sl : Slot Addr) (p par : Option Addr) :
    (s.transplant sl p par).cache = s.cache := by
  rw [Store.transplant, ← s.cache_setSlot p sl]
  cases p with
  | none => rfl
  | some a => exact Store.cache_upd _ a fun _ => rfl

theorem Store.item_setSlot (s : Store T) (p : Option Addr) (sl : Slot Addr) :
    (s.setSlot p sl).item = s.item := by
  cases sl with
  | root => rfl
  | left a => exact s.item_upd a fun _ => rfl
  | right a => exact s.item_upd a fun _ => rfl

@[simp] theorem Store.item_transplant (s : Store T) (sl : Slot Addr) (p par : Option Addr) :
    (s.transplant sl p par).item = s.item := by
  rw [Store.transplant, ← s.item_setSlot p sl]
  cases p with
  | none => rfl
  | some a => exact Store.item_upd _ a fun _ => rfl

@[simp] theorem Store.item_setCache (s : Store T) (a : Addr) (k : Cache) :
    (s.setCache a k).item = s.item :=
  s.item_upd a fun _ => rfl

theorem Store.cache_setCache_of_ne (s : Store T) {a b : Addr} (h : b ≠ a) (k : Cache) :
    (s.setCache a k).cache b = s.cache b := by
  rw [Store.cache, Store.cache, Store.setCache, s.cells_upd_of_ne h]

theorem Store.cache_setCache_self {s : Store T} {a : Addr} {n : IvtNode T}
    (h : s.cells a = some n) (k : Cache) : (s.setCache a k).cache a = some k := by
  rw [Store.cache, Store.setCache, Store.cells_upd_self h]
  rfl

@[simp] theorem Store.size_transplant (s : Store T) (sl : Slot Addr) (p par : Option Addr) :
    (s.transplant sl p par).size = s.size := by
  cases sl <;> cases p <;> rfl

theorem Store.cells_transplant_of_ne (s : Store T) {sl : Slot Addr} {p par : Option Addr}
    {b : Addr} (hsl : some b ≠ sl.holder) (hp : some b ≠ p) :
    (s.transplant sl p par).cells b = s.cells b := by
  refine Store.cells_congr ?_ (by simp) (by simp)
  rw [Store.linked_transplant, Linked.link_transplant_of_ne _ hsl hp]

/-- A transplant is a change of links only. -/
theorem Frame.transplant (s : Store T) {sl : Slot Addr} {p par : Option Addr}
    {S W : List Addr} (hsl : ∀ a, sl.holder = some a → a ∈ W) (hp : ∀ a, p = some a → a ∈ W) :
    Frame s (s.transplant sl p par) S W where
  size := by simp
  item := by simp
  cache := by simp
  link := by
    intro a ha
    rw [Store.linked_transplant]
    exact s.linked.link_transplant_of_ne (fun h => ha (hsl a h.symm)) fun h => ha (hp a h.symm)

/-- A tree without the changed node stays cached. -/
theorem Cached.upd {s : Store T} {t : BinaryTree Addr} (h : Cached s t) {a : Addr}
    (ha : a ∉ inorder t) {f : IvtNode T → IvtNode T} (hf : ∀ n, (f n).item = n.item) :
    Cached (s.upd a f) t := by
  refine h.frame (s.item_upd a hf) fun b hb => ?_
  rw [Store.cache, Store.cache, s.cells_upd_of_ne (ne_of_mem_of_not_mem hb ha)]

/-- A refreshed node is a change of caches only. -/
theorem Frame.setCache (s : Store T) {a : Addr} (k : Cache) {S W : List Addr} (ha : a ∈ S) :
    Frame s (s.setCache a k) S W where
  size := rfl
  item := by simp
  cache := fun _ hb => s.cache_setCache_of_ne (ne_of_mem_of_not_mem ha hb).symm k
  link := by simp

end Mwr.Interval
