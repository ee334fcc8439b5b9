import Mathlib.Data.List.Nodup
import Mwr.Fdt.Model

/-!
# The encoding of a tree

What the writer puts out, as a function of the tree alone.  The writer hands out
offsets into a table of names that still grows, and patches the header when
everything else is written; `blob` has neither.

* `nameTable` is the table that the writer ends up with.  An offset into a table
  does not change when the table grows (`offset_of_prefix`), so the final table
  will do for all nodes.
* `encodeNode` is the structure block of a node for a given table, and `blob`
  the whole encoding.
* `FdtNode.induct` is the induction over trees, and `FdtNode.nodes` lists the
  nodes of one.
-/

namespace Mwr.Fdt

open Mwr.CodeLib
open Mwr.CodeLib.Bytes

/-! ## The nodes of a tree -/

namespace FdtNode

/-- What holds of a node whenever it holds of its children holds of all nodes. -/
@[induction_eliminator]
theorem induct {P : FdtNode → Prop}
    (mk : ∀ name properties children, (∀ child ∈ children, P child) →
      P (.mk name properties children)) (t : FdtNode) : P t :=
  @FdtNode.rec P (fun children => ∀ child ∈ children, P child) mk
    (fun _ h => absurd h List.not_mem_nil)
    (fun _ _ hchild hchildren => List.forall_mem_cons.2 ⟨hchild, hchildren⟩) t

mutual

/-- The node and all nodes below it, in the order of the writer. -/
def nodes : FdtNode → List FdtNode
  | .mk name properties children => .mk name properties children :: nodesOfChildren children

def nodesOfChildren : List FdtNode → List FdtNode
  | [] => []
  | child :: children => nodes child ++ nodesOfChildren children

end

mutual

/-- The tree with every property replaced. -/
def mapProps (f : FdtProp → FdtProp) : FdtNode → FdtNode
  | .mk name properties children =>
    .mk name (properties.map f) (mapPropsOfChildren f children)

def mapPropsOfChildren (f : FdtProp → FdtProp) : List FdtNode → List FdtNode
  | [] => []
  | child :: children => mapProps f child :: mapPropsOfChildren f children

end

theorem nodesOfChildren_eq (children : List FdtNode) :
    nodesOfChildren children = children.flatMap nodes := by
  induction children with
  | nil => rfl
  | cons child children ih => rw [nodesOfChildren, ih, List.flatMap_cons]

theorem nodes_mk (name : Bytes) (properties : List FdtProp) (children : List FdtNode) :
    nodes (.mk name properties children) =
      .mk name properties children :: children.flatMap nodes := by
  rw [nodes, nodesOfChildren_eq]

theorem mapPropsOfChildren_eq (f : FdtProp → FdtProp) (children : List FdtNode) :
    mapPropsOfChildren f children = children.map (mapProps f) := by
  induction children with
  | nil => rfl
  | cons child children ih => rw [mapPropsOfChildren, ih, List.map_cons]

theorem mapProps_mk (f : FdtProp → FdtProp) (name : Bytes) (properties : List FdtProp)
    (children : List FdtNode) :
    mapProps f (.mk name properties children) =
      .mk name (properties.map f) (children.map (mapProps f)) := by
  rw [mapProps, mapPropsOfChildren_eq]

/-- All properties in a tree, in the order of the writer. -/
def allProps (t : FdtNode) : List FdtProp := t.nodes.flatMap properties

theorem allProps_mk (name : Bytes) (properties : List FdtProp) (children : List FdtNode) :
    allProps (.mk name properties children) = properties ++ children.flatMap allProps := by
  rw [allProps, nodes_mk, List.flatMap_cons, List.flatMap_assoc]
  rfl

theorem self_mem_nodes (t : FdtNode) : t ∈ t.nodes := by
  cases t with
  | mk name properties children =>
    rw [nodes_mk]
    exact List.mem_cons_self

end FdtNode

/-! ## The table of names -/

/-- What `strtab` does to the table. -/
def addName (table : List Bytes) (name : Bytes) : List Bytes :=
  if name ∈ table then table else table ++ [name]

def addNames (table names : List Bytes) : List Bytes := names.foldl addName table

/-- The offset that the loop of `strtab` ends with. -/
def offsetFrom (name : Bytes) : List Bytes → UInt32 → UInt32
  | [], off => off
  | str :: strs, off =>
    if str = name then off else offsetFrom name strs (off + (UInt32.ofNat str.length + 1))

def offset (table : List Bytes) (name : Bytes) : UInt32 := offsetFrom name table 0

theorem isPrefix_addName (table : List Bytes) (name : Bytes) : table <+: addName table name := by
  unfold addName
  split
  · exact List.prefix_rfl
  · exact List.prefix_append table [name]

theorem isPrefix_addNames (table names : List Bytes) : table <+: addNames table names := by
  induction names generalizing table with
  | nil => exact List.prefix_rfl
  | cons name names ih => exact (isPrefix_addName table name).trans (ih (addName table name))

theorem addNames_append (table names₁ names₂ : List Bytes) :
    addNames table (names₁ ++ names₂) = addNames (addNames table names₁) names₂ :=
  List.foldl_append

theorem mem_addName {table : List Bytes} {name name' : Bytes} :
    name ∈ addName table name' ↔ name ∈ table ∨ name = name' := by
  unfold addName
  split
  next h => exact ⟨.inl, fun hname => hname.elim id fun heq => heq ▸ h⟩
  next => rw [List.mem_append, List.mem_singleton]

theorem mem_addNames {table names : List Bytes} {name : Bytes} :
    name ∈ addNames table names ↔ name ∈ table ∨ name ∈ names := by
  induction names generalizing table with
  | nil => exact (or_iff_left List.not_mem_nil).symm
  | cons name' names ih =>
    show name ∈ addNames (addName table name') names ↔ _
    rw [ih, mem_addName, List.mem_cons, or_assoc]

theorem nodup_addName {table : List Bytes} (h : table.Nodup) (name : Bytes) :
    (addName table name).Nodup := by
  unfold addName
  split
  next => exact h
  next hmem =>
    rw [← List.concat_eq_append]
    exact List.Nodup.concat hmem h

theorem nodup_addNames {table : List Bytes} (h : table.Nodup) (names : List Bytes) :
    (addNames table names).Nodup := by
  induction names generalizing table with
  | nil => exact h
  | cons name names ih => exact ih (nodup_addName h name)

theorem offsetFrom_append_of_mem {name : Bytes} {table : List Bytes} (h : name ∈ table)
    (rest : List Bytes) (off : UInt32) :
    offsetFrom name (table ++ rest) off = offsetFrom name table off := by
  induction table generalizing off with
  | nil => cases h
  | cons str strs ih =>
    rw [List.cons_append, offsetFrom, offsetFrom]
    split
    next => rfl
    next hne =>
      cases h with
      | head => exact absurd rfl hne
      | tail _ h => exact ih h _

theorem offsetFrom_addName (name : Bytes) (table : List Bytes) (off : UInt32) :
    offsetFrom name (addName table name) off = offsetFrom name table off := by
  unfold addName
  split
  next => rfl
  next hnot =>
    induction table generalizing off with
    | nil => exact if_pos rfl
    | cons str strs ih =>
      rw [List.mem_cons, not_or] at hnot
      rw [List.cons_append, offsetFrom, offsetFrom, if_neg (Ne.symm hnot.1),
        if_neg (Ne.symm hnot.1)]
      exact ih _ hnot.2

/-- An offset stays valid when the table grows. -/
theorem offset_of_prefix {table final : List Bytes} {name : Bytes}
    (h : addName table name <+: final) : offset final name = offset table name := by
  obtain ⟨rest, rfl⟩ := h
  rw [offset, offset, offsetFrom_append_of_mem (mem_addName.2 (.inr rfl)),
    offsetFrom_addName]

/-! ## The encoding -/

/-- The bytes of a word, in the order of `write(u32)`. -/
def word (host : Host) (x : UInt32) : Bytes :=
  match host with
  | .littleEndian => bigEndian x
  | .bigEndian => (bigEndian x).reverse

/-- A string with its terminator. -/
def cstr (s : Bytes) : Bytes := s ++ [0]

def zeros (n : Nat) : Bytes := List.replicate n 0

/-- The value of a property. -/
def payload (host : Host) (prop : FdtProp) : Bytes :=
  prop.numbers.flatMap (word host) ++ prop.strings.flatMap cstr

/-- The name that stands in the structure block. -/
def nodeName (name : Bytes) : Bytes := if name = str "/" then [] else name

/-- A node's name with its terminator and padding. -/
def encodeName (name : Bytes) : Bytes := cstr name ++ zeros (pad (name.length + 1))

def encodeProp (host : Host) (table : List Bytes) (prop : FdtProp) : Bytes :=
  word host FDT_PROP ++ (word host (UInt32.ofNat prop.size) ++
    (word host (offset table prop.name) ++ (payload host prop ++ zeros (pad prop.size))))

mutual

def encodeNode (host : Host) (table : List Bytes) : FdtNode → Bytes
  | .mk name properties children =>
    word host FDT_BEGIN_NODE ++ (encodeName (nodeName name) ++
      (properties.flatMap (encodeProp host table) ++
        (encodeChildren host table children ++ word host FDT_END_NODE)))

def encodeChildren (host : Host) (table : List Bytes) : List FdtNode → Bytes
  | [] => []
  | child :: children => encodeNode host table child ++ encodeChildren host table children

end

/-- The strings block for a table. -/
def encodeTable (table : List Bytes) : Bytes :=
  table.flatMap cstr ++ zeros (pad (table.flatMap cstr).length)

/-- The names of the properties of a tree, each once, in the order of their first
use. -/
def nameTable (t : FdtNode) : List Bytes := addNames [] (t.allProps.map FdtProp.name)

theorem mem_nameTable {t : FdtNode} {name : Bytes} :
    name ∈ nameTable t ↔ name ∈ t.allProps.map FdtProp.name :=
  mem_addNames.trans (or_iff_right List.not_mem_nil)

def structBlock (host : Host) (t : FdtNode) : Bytes :=
  encodeNode host (nameTable t) t ++ word host FDT_END

def stringsBlock (t : FdtNode) : Bytes := encodeTable (nameTable t)

/-- The words of the header with the given values in the fields that are patched. -/
def headerWords (totalSize structSize stringSize stringOff : UInt32) : List UInt32 :=
  [FDT_MAGIC, totalSize, 56, stringOff, 40, FDT_VERSION, FDT_COMPAT, 0, stringSize,
    structSize, 0, 0, 0, 0]

def header (host : Host) (totalSize structSize stringSize stringOff : UInt32) : Bytes :=
  (headerWords totalSize structSize stringSize stringOff).flatMap (word host)

/-- The words of the header of a tree. -/
def blobWords (host : Host) (t : FdtNode) : List UInt32 :=
  headerWords (UInt32.ofNat (56 + (structBlock host t).length + (stringsBlock t).length))
    (UInt32.ofNat (structBlock host t).length)
    (UInt32.ofNat (stringsBlock t).length)
    (UInt32.ofNat (56 + (structBlock host t).length))

/-- The encoding of a tree. -/
def blob (host : Host) (t : FdtNode) : Bytes :=
  (blobWords host t).flatMap (word host) ++ (structBlock host t ++ stringsBlock t)

@[simp] theorem length_word (host : Host) (x : UInt32) : (word host x).length = 4 := by
  cases host <;> rfl

@[simp] theorem length_cstr (s : Bytes) : (cstr s).length = s.length + 1 := by
  rw [cstr, List.length_append, List.length_singleton]

@[simp] theorem length_zeros (n : Nat) : (zeros n).length = n := List.length_replicate

theorem length_le_flatMap {α : Type} (enc : α → Bytes) {xs : List α} {x : α} (h : x ∈ xs) :
    (enc x).length ≤ (xs.flatMap enc).length := by
  obtain ⟨pre, post, rfl⟩ := List.append_of_mem h
  rw [List.flatMap_append, List.flatMap_cons, List.length_append, List.length_append]
  omega

theorem length_flatMap_word (host : Host) (xs : List UInt32) :
    (xs.flatMap (word host)).length = 4 * xs.length := by
  induction xs with
  | nil => rfl
  | cons x xs ih =>
    rw [List.flatMap_cons, List.length_append, ih, length_word, List.length_cons]
    omega

theorem length_flatMap_cstr (strs : List Bytes) :
    (strs.flatMap cstr).length = (strs.map fun s => s.length + 1).sum := by
  rw [List.length_flatMap]
  simp only [length_cstr]

theorem length_payload (host : Host) (prop : FdtProp) :
    (payload host prop).length = prop.size := by
  rw [payload, List.length_append, length_flatMap_word, length_flatMap_cstr, prop.size_eq]

theorem length_header (host : Host) (a b c d : UInt32) : (header host a b c d).length = 56 :=
  length_flatMap_word host _

theorem length_encodeName (name : Bytes) :
    (encodeName name).length = name.length + 1 + pad (name.length + 1) := by
  rw [encodeName, List.length_append, length_cstr, length_zeros]

theorem length_encodeProp (host : Host) (table : List Bytes) (prop : FdtProp) :
    (encodeProp host table prop).length = 12 + prop.size + pad prop.size := by
  simp only [encodeProp, List.length_append, length_word, length_payload, length_zeros]
  omega

theorem length_structBlock (host : Host) (t : FdtNode) :
    (structBlock host t).length = (encodeNode host (nameTable t) t).length + 4 := by
  rw [structBlock, List.length_append, length_word]

theorem encodeChildren_eq (host : Host) (table : List Bytes) (children : List FdtNode) :
    encodeChildren host table children = children.flatMap (encodeNode host table) := by
  induction children with
  | nil => rfl
  | cons child children ih => rw [encodeChildren, ih, List.flatMap_cons]

theorem encodeNode_mk (host : Host) (table : List Bytes) (name : Bytes)
    (properties : List FdtProp) (children : List FdtNode) :
    encodeNode host table (.mk name properties children) =
      word host FDT_BEGIN_NODE ++ (encodeName (nodeName name) ++
        (properties.flatMap (encodeProp host table) ++
          (children.flatMap (encodeNode host table) ++ word host FDT_END_NODE))) := by
  rw [encodeNode, encodeChildren_eq]

/-! ## Positions in a blob -/

theorem toNat_ofNat {n : Nat} (h : n < 2 ^ 32) : (UInt32.ofNat n).toNat = n :=
  UInt32.toNat_ofNat_of_lt' h

theorem at_offsetFrom {name : Bytes} {table : List Bytes} (h : name ∈ table) (off : UInt32)
    (h32 : off.toNat + (table.flatMap cstr).length < 2 ^ 32) :
    ∃ k, (offsetFrom name table off).toNat = off.toNat + k ∧
      At (table.flatMap cstr) k (cstr name) := by
  induction table generalizing off with
  | nil => cases h
  | cons s strs ih =>
    rw [List.flatMap_cons, List.length_append, length_cstr] at h32
    unfold offsetFrom
    by_cases hs : s = name
    · rw [if_pos hs, List.flatMap_cons, hs]
      exact ⟨0, rfl, List.prefix_append _ _⟩
    · rw [if_neg hs]
      have hnext : (off + (UInt32.ofNat s.length + 1)).toNat = off.toNat + (s.length + 1) := by
        have hone : (1 : UInt32).toNat = 1 := rfl
        rw [UInt32.toNat_add, UInt32.toNat_add, toNat_ofNat (by omega), hone]
        omega
      have hmem : name ∈ strs := by
        cases h with
        | head => exact absurd rfl hs
        | tail _ h => exact h
      obtain ⟨k, hk, hat⟩ := ih hmem (off + (UInt32.ofNat s.length + 1))
        (by rw [hnext]; omega)
      refine ⟨s.length + 1 + k, by rw [hk, hnext, Nat.add_assoc], ?_⟩
      rw [List.flatMap_cons, At, ← List.drop_drop, List.drop_left' (length_cstr s)]
      exact hat

theorem at_offset {name : Bytes} {table : List Bytes} (h : name ∈ table)
    (h32 : (table.flatMap cstr).length < 2 ^ 32) :
    At (table.flatMap cstr) (offset table name).toNat (cstr name) := by
  obtain ⟨k, hk, hat⟩ := at_offsetFrom h 0 (by simpa using h32)
  rw [offset, hk]
  simpa using hat

theorem length_blob (host : Host) (t : FdtNode) :
    (blob host t).length = 56 + (structBlock host t).length + (stringsBlock t).length := by
  rw [blob, List.length_append, length_flatMap_word, List.length_append, Nat.add_assoc]
  rfl

theorem word_le_length {host : Host} {buf : Bytes} {p : Nat} {x : UInt32}
    (h : At buf p (word host x)) : p + 4 ≤ buf.length := by
  have hle := h.length_le (List.ne_nil_of_length_pos (by rw [length_word]; decide))
  rwa [length_word] at hle

theorem cstr_le_length {buf : Bytes} {p : Nat} {s : Bytes} (h : At buf p (cstr s)) :
    p + (s.length + 1) ≤ buf.length := by
  have hle := h.length_le (List.append_ne_nil_of_right_ne_nil s (List.cons_ne_nil 0 []))
  rwa [length_cstr] at hle

/-- A word that stands between words. -/
theorem at_words {host : Host} {xs : List UInt32} {i : Nat} {x : UInt32} (h : xs[i]? = some x)
    (rest : Bytes) :
    At (xs.flatMap (word host) ++ rest) (4 * i) (word host x) := by
  induction xs generalizing i with
  | nil => cases h
  | cons y ys ih =>
    rw [List.flatMap_cons, List.append_assoc]
    cases i with
    | zero =>
      cases h
      exact List.prefix_append _ _
    | succ i =>
      rw [At, Nat.mul_add, Nat.add_comm, ← List.drop_drop, List.drop_left' (length_word host y)]
      exact ih h

/-- What stands where in a buffer that starts with the encoding of a tree. -/
structure BlobAt (host : Host) (t : FdtNode) (buf : Bytes) : Prop where
  magic : At buf 0 (word host FDT_MAGIC)
  totalSize : At buf 4 (word host (UInt32.ofNat (blob host t).length))
  structOff : At buf 8 (word host 56)
  stringOff : At buf 12 (word host (UInt32.ofNat (56 + (structBlock host t).length)))
  compat : At buf 24 (word host FDT_COMPAT)
  stringSize : At buf 32 (word host (UInt32.ofNat (stringsBlock t).length))
  structSize : At buf 36 (word host (UInt32.ofNat (structBlock host t).length))
  struct : At buf 56 (structBlock host t)
  strings : At buf (56 + (structBlock host t).length) (stringsBlock t)

theorem blobAt (host : Host) (t : FdtNode) (rest : Bytes) :
    BlobAt host t (blob host t ++ rest) := by
  have hword : ∀ i x, (blobWords host t)[i]? = some x →
      At (blob host t ++ rest) (4 * i) (word host x) := by
    intro i x h
    rw [blob, List.append_assoc]
    exact at_words h _
  have hblocks : At (blob host t ++ rest) 56 (structBlock host t ++ stringsBlock t) := by
    have hlen : ((blobWords host t).flatMap (word host)).length = 56 := length_flatMap_word host _
    rw [← hlen, blob]
    exact at_of_eq _ _ _
  rw [at_append] at hblocks
  refine ⟨hword 0 _ rfl, ?_, hword 2 _ rfl, hword 3 _ rfl, hword 6 _ rfl, hword 8 _ rfl,
    hword 9 _ rfl, hblocks.1, hblocks.2⟩
  rw [length_blob]
  exact hword 1 _ rfl

/-- A name stands in the strings block at its offset. -/
theorem BlobAt.name {host : Host} {t : FdtNode} {buf name : Bytes} (h : BlobAt host t buf)
    (h32 : (blob host t).length < 2 ^ 32) (hname : name ∈ nameTable t) :
    (offset (nameTable t) name).toNat + (name.length + 1) ≤ (stringsBlock t).length ∧
      At buf (56 + (structBlock host t).length + (offset (nameTable t) name).toNat)
        (cstr name) := by
  have hstrings := h.strings
  rw [length_blob] at h32
  rw [stringsBlock, encodeTable, List.length_append] at h32 ⊢
  rw [stringsBlock, encodeTable, at_append] at hstrings
  have hat := at_offset hname (by omega)
  have hle := cstr_le_length hat
  exact ⟨by omega, hstrings.1.trans hat⟩

end Mwr.Fdt
