import Mwr.Fdt.RoundTrip

/-!
# Normal forms of device trees

What the reader makes of any buffer.

* `TreeRead` is the invariant of the tree that the reader builds, and
  `traverse_inv` keeps it.  It says of every value that the reader would guess
  its type again.
* `fdtdecompile_stable` says that one pass through the reader and the writer
  reaches a normal form.
-/

namespace Mwr.Fdt

open Mwr.CodeLib
open Mwr.CodeLib.Bytes
open Mwr.CodeLib.Exec

variable {host : Host} {buf : Bytes} {p : Nat}

/-! ## Trees from the reader -/

/-- A node that the reader has made: its name is terminated in the blob, and so
are the names of its properties, and each value has the type that the reader
would guess again. -/
structure NodeRead (host : Host) (n : FdtNode) : Prop where
  name : 0 ∉ n.name
  props : ∀ prop ∈ n.properties, 0 ∉ prop.name ∧
    decodeProp host prop.name (payload host prop) = some prop

/-- All nodes of the tree come from the reader. -/
def TreeRead (host : Host) (t : FdtNode) : Prop := ∀ n ∈ t.nodes, NodeRead host n

theorem TreeRead.new {name : Bytes} (h : 0 ∉ name) : TreeRead host (.new name) := by
  intro n hn
  rw [FdtNode.new, FdtNode.nodes_mk, List.flatMap_nil, List.mem_singleton] at hn
  rw [hn]
  exact ⟨h, fun _ h => absurd h List.not_mem_nil⟩

theorem TreeRead.addProperty {t : FdtNode} {prop : FdtProp} (ht : TreeRead host t)
    (hname : 0 ∉ prop.name)
    (hprop : decodeProp host prop.name (payload host prop) = some prop) :
    TreeRead host (t.addProperty prop) := by
  cases t with
  | mk name props children =>
    intro n hn
    have hroot := ht _ (FdtNode.self_mem_nodes _)
    rw [FdtNode.addProperty, FdtNode.nodes_mk, List.mem_cons] at hn
    rcases hn with rfl | hn
    · refine ⟨hroot.name, fun prop' h => ?_⟩
      rcases List.mem_append.1 h with h | h
      · exact hroot.props prop' h
      · rw [List.mem_singleton.1 h]
        exact ⟨hname, hprop⟩
    · apply ht
      rw [FdtNode.nodes_mk]
      exact List.mem_cons_of_mem _ hn

theorem TreeRead.addChild {t child : FdtNode} (ht : TreeRead host t)
    (hchild : TreeRead host child) : TreeRead host (t.addChild child) := by
  cases t with
  | mk name props children =>
    intro n hn
    have hroot := ht _ (FdtNode.self_mem_nodes _)
    rw [FdtNode.addChild, FdtNode.nodes_mk, List.mem_cons, List.flatMap_append,
      List.mem_append, List.flatMap_singleton] at hn
    rcases hn with rfl | hn | hn
    · exact ⟨hroot.name, hroot.props⟩
    · apply ht
      rw [FdtNode.nodes_mk]
      exact List.mem_cons_of_mem _ hn
    · exact hchild n hn

/-- What the loop of `traverse` adds to a node comes from the reader. -/
theorem traverseLoop_inv {fuel : Nat} {visit : FdtNode → Read Nat FdtNode}
    (hbuf : buf.length < 2 ^ 32)
    (hvisit : ∀ {name p t q}, 0 ∉ name → (visit (.new name)).run p = .ok (t, q) →
      TreeRead host t) {rounds : Nat} {parent t : FdtNode} {q : Nat}
    (hparent : TreeRead host parent)
    (h : (traverseLoop host (memSource buf) fuel visit rounds parent).run p = .ok (t, q)) :
    TreeRead host t ∧ t.name = parent.name := by
  induction rounds generalizing p parent with
  | zero =>
    cases h
    exact ⟨hparent, rfl⟩
  | succ rounds ih =>
    obtain ⟨token, p₁, -, h⟩ := run_bind_eq_ok.1 h
    split at h
    next =>
      obtain ⟨name, p₂, hname, h⟩ := run_bind_eq_ok.1 h
      obtain ⟨child, p₃, hchild, h⟩ := run_bind_eq_ok.1 h
      have hread := ih (hparent.addChild (hvisit (readString_inv hname).1 hchild)) h
      refine ⟨hread.1, hread.2.trans ?_⟩
      cases parent
      rfl
    next =>
      split at h
      next =>
        obtain ⟨prop, p₂, hprop, h⟩ := run_bind_eq_ok.1 h
        obtain ⟨hnul, hdecode, -⟩ := readProp_inv hbuf hprop
        have hread := ih (hparent.addProperty hnul hdecode) h
        refine ⟨hread.1, hread.2.trans ?_⟩
        cases parent
        rfl
      next =>
        split at h
        next => exact ih hparent h
        next =>
          split at h
          next =>
            cases h
            exact ⟨hparent, rfl⟩
          next => cases h

theorem traverse_inv {fuel depth : Nat} (hbuf : buf.length < 2 ^ 32) {parent t : FdtNode} {q : Nat}
    (hparent : TreeRead host parent)
    (h : (traverse host (memSource buf) fuel depth parent).run p = .ok (t, q)) :
    TreeRead host t ∧ t.name = parent.name := by
  induction depth generalizing p parent t q with
  | zero => cases h
  | succ depth ih =>
    exact traverseLoop_inv hbuf (fun hname h => (ih (TreeRead.new hname) h).1) hparent h

theorem fdtdecompile_inv {t : FdtNode} (hbuf : buf.length < 2 ^ 32)
    (h : fdtdecompile host buf = .ok t) : TreeRead host t ∧ t.name ≠ [] := by
  obtain ⟨q, hrun⟩ := fst_eq_ok h
  obtain ⟨name, p₀, p₁, p₂, -, hname, hroot, -⟩ := decompile_inv hrun
  have hnul : 0 ∉ (if name = [] then str "/" else name) := by
    split
    · decide
    · exact (readString_inv hname).1
  obtain ⟨hread, heq⟩ := traverse_inv hbuf (TreeRead.new hnul) hroot
  refine ⟨hread, ?_⟩
  rw [heq, FdtNode.new, FdtNode.name]
  split
  · decide
  · assumption

/-- A tree that comes from the reader is encodable if its children and its
nodes' sizes allow it. -/
theorem TreeRead.encodable {t : FdtNode} (ht : TreeRead host t) (hroot : t.name ≠ [])
    (hslash : ∀ n ∈ t.nodes, ∀ child ∈ n.children, child.name ≠ str "/")
    (hlimit : ∀ n ∈ t.nodes, n.properties.length + n.children.length < 1000000) :
    Encodable t where
  root := hroot
  nodeNames := fun n hn => (ht n hn).name
  propNames := fun prop hprop => by
    obtain ⟨n, hn, hprop⟩ := List.mem_flatMap.1 hprop
    exact ((ht n hn).props prop hprop).1
  slash := hslash
  limit := hlimit

/-- What the reader accepts comes back unchanged once it is compiled again. -/
theorem fdtdecompile_stable (host : Host) (b : Bytes) (t : FdtNode) (hb : b.length < 2 ^ 32)
    (h : fdtdecompile host b = .ok t)
    (hslash : ∀ n ∈ t.nodes, ∀ child ∈ n.children, child.name ≠ str "/")
    (hlimit : ∀ n ∈ t.nodes, n.properties.length + n.children.length < 1000000)
    (h32 : (blob host t).length < 2 ^ 32) (buffer : Bytes)
    (hfit : (blob host t).length ≤ buffer.length) :
    ∃ out, fdtcompile host t buffer = .ok out ∧ fdtdecompile host out = .ok t := by
  obtain ⟨ht, hroot⟩ := fdtdecompile_inv hb h
  have hprop : ∀ prop ∈ t.allProps, decodeProp host prop.name (payload host prop) = some prop := by
    intro prop hprop
    obtain ⟨n, hn, hprop⟩ := List.mem_flatMap.1 hprop
    exact ((ht n hn).props prop hprop).2
  obtain ⟨out, hcompile, hdecompile⟩ := compile_decompile (ht.encodable hroot hslash hlimit)
    (fun prop h => by rw [hprop prop h]; rfl) h32 hfit
  have hsame : t.mapProps (reread host) = t :=
    mapProps_id t fun prop h => by rw [reread, hprop prop h]; rfl
  rw [hsame] at hdecompile
  exact ⟨out, hcompile, hdecompile⟩

/-- A blob with entries that the writer never writes, in which the name of one property is the
end of that of another. -/
def nopBlob : Bytes :=
  [FDT_MAGIC, 148, 56, 144, 40, FDT_VERSION, FDT_COMPAT, 0, 4, 88, 0, 0, 0, 0,
    FDT_BEGIN_NODE, 0, FDT_NOP,
      FDT_PROP, 4, 0, 2,
      FDT_PROP, 2, 1, 0x78000000,
      FDT_NOP,
      FDT_BEGIN_NODE, 0x63000000,
        FDT_PROP, 0, 1,
        FDT_NOP,
      FDT_END_NODE, FDT_NOP, FDT_END_NODE, FDT_END, 0x23610000].flatMap (word .littleEndian)

/-- The tree that the blob stands for. -/
def nopTree : FdtNode :=
  .mk (str "/") [.ofNumbers (str "#a") [2], .ofStrings (str "a") [str "x"]]
    [.mk (str "c") [.named (str "a")] []]

theorem fdtdecompile_stable_nop :
    fdtdecompile .littleEndian nopBlob = .ok nopTree ∧
    ∃ out, fdtcompile .littleEndian nopTree (zeros 136) = .ok out ∧
      fdtdecompile .littleEndian out = .ok nopTree := by
  have h : fdtdecompile .littleEndian nopBlob = .ok nopTree := by decide +kernel
  exact ⟨h, fdtdecompile_stable .littleEndian nopBlob nopTree (by decide +kernel) h
    (by decide +kernel) (by decide +kernel) (by decide +kernel) (zeros 136) (by decide +kernel)⟩

end Mwr.Fdt
