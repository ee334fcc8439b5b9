import Mwr.Interval.Insert
import Mwr.Interval.Query
import Mwr.Interval.Remove

/-!
# A tree object is an ordered list of entries

The abstract meaning of a tree object is the list of its entries in order.  An
entry is identified by the node that an iterator to it points to.

`insertEntry` and `removeEntry` are the two operations on such lists, and
`Inserted.entries` and `Removed.entries` say that `insert` and `remove` carry
them out.
-/

namespace Mwr.Interval

open BinaryTree
open Mwr.CodeLib
open Mwr.CodeLib.AvlTree (inorder)
open Mwr.CodeLib.LinkedTree
open Mwr.CodeLib.Exec

variable {T : Type}

/-! ## The nodes of a tree object -/

/-- The nodes in order, found through the child pointers. -/
def inorderFrom (cells : Addr → Option (IvtNode T)) : Nat → Option Addr → List Addr
  | 0, _ => []
  | _ + 1, none => []
  | fuel + 1, some a =>
    match cells a with
    | none => []
    | some n => inorderFrom cells fuel n.left ++ a :: inorderFrom cells fuel n.right

/-- The nodes of a tree object in order. -/
def Store.nodes (s : Store T) : List Addr := inorderFrom s.cells s.bound s.root

theorem inorderFrom_eq {s : Store T} {t : BinaryTree Addr} :
    ∀ {par p : Option Addr} {fuel : Nat}, Links s.linked par p t → t.height < fuel →
      inorderFrom s.cells fuel p = inorder t := by
  induction t with
  | nil =>
    intro par p fuel h hfuel
    cases h
    cases fuel with
    | zero => rfl
    | succ fuel => rfl
  | node a l r ihl ihr =>
    intro par p fuel h hfuel
    cases fuel with
    | zero => exact absurd hfuel (Nat.not_lt_zero _)
    | succ fuel =>
      obtain ⟨n, rfl, hn, _, hl, hr⟩ := exists_root h
      rw [height] at hfuel
      rw [inorderFrom]
      simp only [hn]
      rw [ihl hl (by omega), ihr hr (by omega), AvlTree.inorder_node]

theorem Wf.nodes_eq {s : Store T} {t : BinaryTree Addr} (h : Wf s t) : s.nodes = inorder t :=
  inorderFrom_eq h.rep h.height_lt_bound

/-! ## Lists of entries -/

/-- An entry of a tree object.  Its identity is the node that an iterator to it
points to. -/
structure Entry (T : Type) where
  id : Addr
  lo : UInt64
  hi : UInt64
  data : T

/-- Put an entry immediately before the first one that does not start before
it. -/
def insertEntry (e : Entry T) (es : List (Entry T)) : List (Entry T) :=
  es.takeWhile (fun e' => e'.lo < e.lo) ++ e :: es.dropWhile fun e' => e'.lo < e.lo

/-- Delete the entry with the given identity. -/
def removeEntry (a : Addr) (es : List (Entry T)) : List (Entry T) :=
  es.filter fun e => e.id != a

/-- What an iterator that points to the node `a` denotes. -/
def Store.entry (s : Store T) (a : Addr) : Option (Entry T) :=
  (s.item a).map fun k => ⟨a, k.lo, k.hi, k.data⟩

/-- The entries of a tree object in order. -/
def Store.entries (s : Store T) : List (Entry T) := s.nodes.filterMap s.entry

/-! ## One tree object -/

section Object

variable {s s' : Store T} {t t' : BinaryTree Addr}

theorem Wf.entries_eq (h : Wf s t) : s.entries = (inorder t).filterMap s.entry := by
  rw [Store.entries, h.nodes_eq]

theorem Wf.exists_entry (h : Wf s t) {a : Addr} (ha : a ∈ inorder t) :
    ∃ e, s.entry a = some e ∧ e.id = a ∧ e.lo = s.lo a ∧ e.hi = s.hi a := by
  obtain ⟨n, hn⟩ := exists_cells_of_mem h.rep ha
  refine ⟨⟨a, n.lo, n.hi, n.data⟩, ?_, rfl, ?_, ?_⟩
  · simp [Store.entry, Store.item, hn, IvtNode.item]
  · rw [Store.lo_of_cells hn]
  · rw [Store.hi_of_cells hn]

theorem Store.entry_id {a : Addr} {e : Entry T} (h : s.entry a = some e) : e.id = a := by
  rw [Store.entry, Option.map_eq_some_iff] at h
  obtain ⟨k, _, rfl⟩ := h
  rfl

theorem Wf.mem_entries (h : Wf s t) {e : Entry T} :
    e ∈ s.entries ↔ e.id ∈ inorder t ∧ s.entry e.id = some e := by
  rw [h.entries_eq, List.mem_filterMap]
  constructor
  · rintro ⟨a, ha, he⟩
    cases Store.entry_id he
    exact ⟨ha, he⟩
  · rintro ⟨ha, he⟩
    exact ⟨e.id, ha, he⟩

/-- The identities of the entries are the nodes. -/
theorem Wf.map_id_entries (h : Wf s t) : s.entries.map Entry.id = inorder t := by
  rw [h.entries_eq, List.map_filterMap]
  have hid : ∀ a ∈ inorder t, (s.entry a).map Entry.id = some a := by
    intro a ha
    obtain ⟨e, he, hid, _⟩ := h.exists_entry ha
    rw [he, Option.map_some, hid]
  rw [List.filterMap_congr hid, List.filterMap_some]

/-- Splitting the nodes splits the entries. -/
theorem filterMap_entry_while (as : List Addr) (f : Addr → Option (Entry T))
    (p : Addr → Bool) (q : Entry T → Bool)
    (h : ∀ a ∈ as, ∃ e, f a = some e ∧ q e = p a) :
    (as.takeWhile p).filterMap f = (as.filterMap f).takeWhile q ∧
      (as.dropWhile p).filterMap f = (as.filterMap f).dropWhile q := by
  induction as with
  | nil => exact ⟨rfl, rfl⟩
  | cons a as ih =>
    obtain ⟨e, he, hq⟩ := h a List.mem_cons_self
    obtain ⟨htake, hdrop⟩ := ih fun b hb => h b (List.mem_cons_of_mem a hb)
    rw [List.filterMap_cons_some he, List.takeWhile_cons, List.dropWhile_cons,
      List.takeWhile_cons, List.dropWhile_cons, hq]
    by_cases hp : p a = true
    · simp only [hp, if_true]
      rw [List.filterMap_cons_some he]
      exact ⟨by rw [htake], hdrop⟩
    · simp only [hp, Bool.false_eq_true, if_false]
      exact ⟨rfl, List.filterMap_cons_some he⟩

/-- Entries with unchanged items. -/
theorem Store.entry_congr {a : Addr} (h : s'.item a = s.item a) : s'.entry a = s.entry a := by
  rw [Store.entry, Store.entry, h]

/-- The entries depend on the nodes of the tree only. -/
theorem Wf.entries_congr (h : Wf s t) (hroot : s'.root = s.root) (hsize : s'.size = s.size)
    (hcells : ∀ a ∈ inorder t, s'.cells a = s.cells a) : s'.entries = s.entries := by
  rw [(h.congr_cells hroot hsize hcells).entries_eq, h.entries_eq]
  refine List.filterMap_congr fun a ha => Store.entry_congr ?_
  rw [Store.item, Store.item, hcells a ha]

/-- An insertion is `insertEntry`. -/
theorem Inserted.entries {a : Addr} {start stop : UInt64} {data : T} (h : Wf s t)
    (hat : a ∉ inorder t) (hins : Inserted s s' t a start stop data) :
    s'.entries = insertEntry ⟨a, start, stop, data⟩ s.entries := by
  have hnew : s'.entry a = some ⟨a, start, stop, data⟩ := by
    simp [Store.entry, hins.item]
  have hold : ∀ b ∈ inorder t, s'.entry b = s.entry b := by
    intro b hb
    refine Store.entry_congr ?_
    rw [hins.item, Function.update_of_ne (ne_of_mem_of_not_mem hb hat)]
  have hlo : s'.lo a = start := by
    simp [Store.lo, hins.item]
  have hsplit := filterMap_entry_while (inorder t) s'.entry (fun b => decide ¬ s'.le a b)
    (fun e => decide (e.lo < start)) fun b hb => by
      obtain ⟨e, he, _, helo, _⟩ := h.exists_entry hb
      refine ⟨e, (hold b hb).trans he, ?_⟩
      have hlob : s'.lo b = s.lo b := by
        refine Store.lo_congr ?_
        rw [hins.item, Function.update_of_ne (ne_of_mem_of_not_mem hb hat)]
      have hle : s'.le a b ↔ start ≤ s.lo b := by rw [Store.le, hlo, hlob]
      rw [helo, decide_eq_decide, hle, UInt64.not_le]
  rw [hins.wf.entries_eq, hins.order, List.orderedInsert_eq_take_drop, List.filterMap_append,
    List.filterMap_cons_some hnew, hsplit.1, hsplit.2, List.filterMap_congr hold,
    ← h.entries_eq, insertEntry]

/-- A removal is `removeEntry`. -/
theorem Removed.entries {a : Addr} (h : Wf s t) (hrem : Removed s s' t t' a) :
    s'.entries = removeEntry a s.entries := by
  have hold : ∀ b ∈ inorder t', s'.entry b = s.entry b := by
    intro b hb
    rw [hrem.order, h.nodup.mem_erase_iff] at hb
    refine Store.entry_congr ?_
    rw [hrem.item, Function.update_of_ne hb.1]
  rw [hrem.wf.entries_eq, List.filterMap_congr hold, hrem.order, h.nodup.erase_eq_filter,
    h.entries_eq, removeEntry, List.filterMap_filter, List.filter_filterMap]
  refine List.filterMap_congr fun b hb => ?_
  obtain ⟨e, he, hid, _⟩ := h.exists_entry hb
  rw [he, Option.filter, hid]

end Object

end Mwr.Interval
