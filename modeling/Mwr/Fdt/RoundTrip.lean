import Mwr.Fdt.Reader
import Mwr.Fdt.Writer

/-!
# The round trip of a device tree

What the reader makes of a blob that the writer wrote.

* `traverse_run` follows the reader through the encoding of a node: the rounds of
  its loop over the properties, over the children with one recursion each, and
  the end of the node.
* `fdtdecompile_blob` adds the header.  The tree comes back with every property
  replaced by `reread`.
* `fdtdecompile_fdtcompile` and `fdtdecompile_numbers` say what `reread` keeps.
-/

namespace Mwr.Fdt

open Mwr.CodeLib
open Mwr.CodeLib.Bytes
open Mwr.CodeLib.Exec

variable {host : Host} {buf : Bytes} {p : Nat}

/-! ## Reading nodes -/

/-- What the reader makes of a property that the writer wrote. -/
def reread (host : Host) (prop : FdtProp) : FdtProp :=
  (decodeProp host prop.name (payload host prop)).getD prop

/-- What the reader needs of the nodes of a tree, when the names of the properties
are in `table`. -/
structure NodeOk (host : Host) (table : List Bytes) (n : FdtNode) : Prop where
  name : 0 ∉ n.name
  props : ∀ prop ∈ n.properties, 0 ∉ prop.name ∧ prop.name ∈ table ∧
    decodeProp host prop.name (payload host prop) = some (reread host prop)
  children : ∀ child ∈ n.children, child.name ≠ str "/"
  limit : n.properties.length + n.children.length < 1000000

/-- The strings block with `table` stands in the buffer where the header says. -/
def NamesAt (host : Host) (table : List Bytes) (buf : Bytes) : Prop :=
  ∃ dtoff, At buf 12 (word host dtoff) ∧
    ∀ name ∈ table, At buf (dtoff + offset table name).toNat (cstr name)

/-- The encoding of a node behind its name. -/
def encodeBody (host : Host) (table : List Bytes) (t : FdtNode) : Bytes :=
  t.properties.flatMap (encodeProp host table) ++
    (t.children.flatMap (encodeNode host table) ++ word host FDT_END_NODE)

theorem encodeNode_eq (table : List Bytes) (t : FdtNode) :
    encodeNode host table t =
      word host FDT_BEGIN_NODE ++ (encodeName (nodeName t.name) ++ encodeBody host table t) := by
  cases t with
  | mk name props children => exact encodeNode_mk host table name props children

theorem foldl_addProperty (name : Bytes) (props props' : List FdtProp) (children : List FdtNode) :
    props'.foldl FdtNode.addProperty (.mk name props children) =
      .mk name (props ++ props') children := by
  induction props' generalizing props with
  | nil => rw [List.append_nil]; rfl
  | cons prop props' ih =>
    rw [List.foldl_cons, FdtNode.addProperty, ih, List.append_assoc]
    rfl

theorem foldl_addChild (name : Bytes) (props : List FdtProp) (children children' : List FdtNode) :
    children'.foldl FdtNode.addChild (.mk name props children) =
      .mk name props (children ++ children') := by
  induction children' generalizing children with
  | nil => rw [List.append_nil]; rfl
  | cons child children' ih =>
    rw [List.foldl_cons, FdtNode.addChild, ih, List.append_assoc]
    rfl

section Traverse

variable {table : List Bytes} {fuel : Nat} {visit : FdtNode → Read Nat FdtNode}

/-- The rounds of `traverse` over the properties of a node. -/
theorem traverseLoop_props (hnames : NamesAt host table buf) (hfuel : buf.length < fuel)
    (props : List FdtProp) (hprops : ∀ prop ∈ props, 0 ∉ prop.name ∧ prop.name ∈ table ∧
      decodeProp host prop.name (payload host prop) = some (reread host prop))
    (h : At buf p (props.flatMap (encodeProp host table)))
    (hbuf : p + (props.flatMap (encodeProp host table)).length < buf.length)
    (h32 : p + (props.flatMap (encodeProp host table)).length < 2 ^ 32)
    (rounds : Nat) (parent : FdtNode) :
    (traverseLoop host (memSource buf) fuel visit (props.length + rounds) parent).run p =
      (traverseLoop host (memSource buf) fuel visit rounds
        ((props.map (reread host)).foldl FdtNode.addProperty parent)).run
        (p + (props.flatMap (encodeProp host table)).length) := by
  induction props generalizing p parent with
  | nil => rw [List.length_nil, Nat.zero_add]; rfl
  | cons prop props ih =>
    obtain ⟨dtoff, hdtoff, hstrtab⟩ := hnames
    obtain ⟨hname, hmem, hdecode⟩ := hprops prop List.mem_cons_self
    have hlen := length_encodeProp host table prop
    rw [List.flatMap_cons, List.length_append] at hbuf h32
    rw [List.flatMap_cons, at_append] at h
    have hsize : (UInt32.ofNat prop.size).toNat = prop.size :=
      UInt32.toNat_ofNat_of_lt' (by show prop.size < 2 ^ 32; omega)
    have hpayload := length_payload host prop
    have hprop := h.1
    rw [encodeProp, at_append, length_word, ← hpayload] at hprop
    have hread := readProp_run (p := p + 4) hname (by rw [hpayload, hsize])
      (by rw [hpayload] at hprop ⊢; exact hprop.2) hdtoff (hstrtab prop.name hmem)
      (by omega) (by omega) hfuel hdecode
    have hrest := ih (fun prop' h' => hprops prop' (List.mem_cons_of_mem prop h')) h.2
      (by omega) (by omega) (parent.addProperty (reread host prop))
    rw [List.length_cons, Nat.add_right_comm, traverseLoop, run_bind_of_ok (read_run hprop.1)]
    rw [if_neg (show FDT_PROP ≠ FDT_BEGIN_NODE by decide), if_pos rfl, run_bind_of_ok hread]
    rw [hlen] at hrest
    rw [List.flatMap_cons, List.length_append, hlen, List.map_cons, List.foldl_cons,
      ← Nat.add_assoc p, ← hrest, hpayload]
    congr 1
    omega

/-- The rounds of `traverse` over the children of a node. -/
theorem traverseLoop_children (hfuel : buf.length < fuel) (children : List FdtNode)
    (hname : ∀ child ∈ children, 0 ∉ child.name ∧ child.name ≠ str "/")
    (hvisit : ∀ child ∈ children, ∀ p, At buf p (encodeBody host table child) →
      p + (encodeBody host table child).length < buf.length →
      p + (encodeBody host table child).length < 2 ^ 32 →
      (visit (.new child.name)).run p =
        .ok (child.mapProps (reread host), p + (encodeBody host table child).length))
    (h : At buf p (children.flatMap (encodeNode host table)))
    (hbuf : p + (children.flatMap (encodeNode host table)).length < buf.length)
    (h32 : p + (children.flatMap (encodeNode host table)).length < 2 ^ 32)
    (rounds : Nat) (parent : FdtNode) :
    (traverseLoop host (memSource buf) fuel visit (children.length + rounds) parent).run p =
      (traverseLoop host (memSource buf) fuel visit rounds
        ((children.map (FdtNode.mapProps (reread host))).foldl FdtNode.addChild parent)).run
        (p + (children.flatMap (encodeNode host table)).length) := by
  induction children generalizing p parent with
  | nil => rw [List.length_nil, Nat.zero_add]; rfl
  | cons child children ih =>
    obtain ⟨hnul, hslash⟩ := hname child List.mem_cons_self
    have hlen : (encodeNode host table child).length =
        4 + (encodeName child.name).length + (encodeBody host table child).length := by
      rw [encodeNode_eq, nodeName, if_neg hslash, List.length_append, List.length_append,
        length_word, Nat.add_assoc]
    rw [List.flatMap_cons, List.length_append] at hbuf h32
    rw [List.flatMap_cons, at_append] at h
    have hchild := h.1
    rw [encodeNode_eq, nodeName, if_neg hslash, at_append, at_append, length_word] at hchild
    have hbody := hvisit child List.mem_cons_self _ hchild.2.2 (by omega) (by omega)
    have hrest := ih (fun c hc => hname c (List.mem_cons_of_mem child hc))
      (fun c hc => hvisit c (List.mem_cons_of_mem child hc)) h.2 (by omega) (by omega)
      (parent.addChild (child.mapProps (reread host)))
    rw [List.length_cons, Nat.add_right_comm, traverseLoop, run_bind_of_ok (read_run hchild.1),
      if_pos rfl, run_bind_of_ok (readString_run_name hnul hchild.2.1 hfuel),
      run_bind_of_ok hbody]
    rw [hlen] at hrest
    rw [List.flatMap_cons, List.length_append, hlen, List.map_cons, List.foldl_cons,
      ← Nat.add_assoc p, ← hrest]
    congr 1
    omega

end Traverse

theorem FdtNode.mapProps_eq (f : FdtProp → FdtProp) (t : FdtNode) :
    t.mapProps f = ((t.children.map (mapProps f)).foldl addChild
      ((t.properties.map f).foldl addProperty (.new t.name))) := by
  cases t with
  | mk name props children =>
    rw [new, foldl_addProperty, foldl_addChild, mapProps_mk]
    rfl

/-- `traverse` reads back a node that the writer wrote. -/
theorem traverse_run {table : List Bytes} {fuel : Nat} (hnames : NamesAt host table buf)
    (hfuel : buf.length < fuel) (t : FdtNode) (hok : ∀ n ∈ t.nodes, NodeOk host table n)
    {depth : Nat} (hdepth : (encodeBody host table t).length ≤ depth)
    (h : At buf p (encodeBody host table t))
    (hbuf : p + (encodeBody host table t).length < buf.length)
    (h32 : p + (encodeBody host table t).length < 2 ^ 32) :
    (traverse host (memSource buf) fuel depth (.new t.name)).run p =
      .ok (t.mapProps (reread host), p + (encodeBody host table t).length) := by
  induction t generalizing p depth with
  | mk name props children ih =>
    obtain ⟨-, hprops, hslash, hlimit⟩ := hok _ (FdtNode.self_mem_nodes _)
    have hsub : ∀ child ∈ children, ∀ n ∈ child.nodes, NodeOk host table n := by
      intro child hchild n hn
      apply hok
      rw [FdtNode.nodes_mk]
      exact List.mem_cons_of_mem _ (List.mem_flatMap.2 ⟨child, hchild, hn⟩)
    simp only [FdtNode.properties, FdtNode.children] at hprops hslash hlimit
    simp only [encodeBody, FdtNode.properties, FdtNode.children, List.length_append,
      length_word] at h hbuf h32 hdepth ⊢
    rw [at_append, at_append] at h
    obtain ⟨depth, rfl⟩ := Nat.exists_eq_add_one_of_ne_zero (show depth ≠ 0 by omega)
    obtain ⟨rounds, hrounds⟩ := Nat.exists_eq_add_of_lt hlimit
    have hvisit : ∀ child ∈ children, ∀ p, At buf p (encodeBody host table child) →
        p + (encodeBody host table child).length < buf.length →
        p + (encodeBody host table child).length < 2 ^ 32 →
        (traverse host (memSource buf) fuel depth (.new child.name)).run p =
          .ok (child.mapProps (reread host), p + (encodeBody host table child).length) := by
      intro child hchild p h hbuf h32
      have hle := length_le_flatMap (encodeNode host table) hchild
      rw [encodeNode_eq, List.length_append, length_word, List.length_append] at hle
      exact ih child hchild (hsub child hchild) (by omega) h hbuf h32
    have hname : ∀ child ∈ children, 0 ∉ child.name ∧ child.name ≠ str "/" := fun child hchild =>
      ⟨(hsub child hchild child (FdtNode.self_mem_nodes child)).name, hslash child hchild⟩
    have h₁ : (traverseLoop host (memSource buf) fuel (traverse host (memSource buf) fuel depth)
        _ _).run p = _ :=
      traverseLoop_props hnames hfuel props hprops h.1 (by omega) (by omega)
        (children.length + (rounds + 1)) (.new name)
    have h₂ := traverseLoop_children hfuel children hname hvisit h.2.1 (by omega) (by omega)
      (rounds + 1) ((props.map (reread host)).foldl FdtNode.addProperty (.new name))
    rw [traverse, hrounds, FdtNode.name, Nat.add_assoc _ rounds, Nat.add_assoc, h₁, h₂,
      traverseLoop, run_bind_of_ok (read_run h.2.2)]
    rw [if_neg (by decide), if_neg (by decide), if_neg (by decide), if_pos rfl,
      FdtNode.mapProps_eq]
    show Except.ok (_, _) = _
    congr 2
    omega

/-! ## The whole blob -/

theorem namesAt {t : FdtNode} (h : BlobAt host t buf) (h32 : (blob host t).length < 2 ^ 32) :
    NamesAt host (nameTable t) buf := by
  refine ⟨_, h.stringOff, fun name hname => ?_⟩
  obtain ⟨hle, hat⟩ := h.name h32 hname
  rw [length_blob] at h32
  have hoff : (UInt32.ofNat (56 + (structBlock host t).length) +
      offset (nameTable t) name).toNat =
      56 + (structBlock host t).length + (offset (nameTable t) name).toNat := by
    rw [UInt32.toNat_add, toNat_ofNat (by omega)]
    omega
  rwa [hoff]

/-- The reader reads a blob back, whatever follows it. -/
theorem fdtdecompile_blob {t : FdtNode} (hbuf : BlobAt host t buf) (hroot : t.name ≠ [])
    (hok : ∀ n ∈ t.nodes, NodeOk host (nameTable t) n) (h32 : (blob host t).length < 2 ^ 32) :
    fdtdecompile host buf = .ok (t.mapProps (reread host)) := by
  have hname0 : 0 ∉ nodeName t.name := by
    unfold nodeName
    split
    · exact List.not_mem_nil
    · exact (hok t (FdtNode.self_mem_nodes t)).name
  have hname : (if nodeName t.name = [] then str "/" else nodeName t.name) = t.name := by
    by_cases h : t.name = str "/"
    · rw [nodeName, if_pos h, if_pos rfl, h]
    · rw [nodeName, if_neg h, if_neg hroot]
  have hlen := length_blob host t
  have hsize := length_structBlock host t
  have hstruct := hbuf.struct
  have hle := hstruct.length_le (List.ne_nil_of_length_pos (by omega))
  rw [structBlock, at_append, encodeNode_eq, at_append, at_append, length_word] at hstruct
  obtain ⟨⟨hbegin, hrootName, hbody⟩, hend⟩ := hstruct
  rw [List.length_append, List.length_append, length_word, ← Nat.add_assoc, ← Nat.add_assoc]
    at hend
  rw [encodeNode_eq, List.length_append, List.length_append, length_word] at hsize
  have htree : (traverse host (memSource buf) (buf.length + 1) (buf.length + 1)
      (.new t.name)).run _ = _ :=
    traverse_run (namesAt hbuf h32) (Nat.lt_succ_self _) t hok (by omega) hbody (by omega)
      (by omega)
  have hseek24 : ∀ p, ((memSource buf).seek 24).run p = .ok (UInt32.ofNat p, 24) :=
    fun p => seek_run (Nat.lt_of_lt_of_le (by decide) (word_le_length hbuf.compat))
  have hseek8 : ∀ p, ((memSource buf).seek 8).run p = .ok (UInt32.ofNat p, 8) :=
    fun p => seek_run (Nat.lt_of_lt_of_le (by decide) (word_le_length hbuf.structOff))
  have hseek56 : ∀ p, ((memSource buf).seek 56).run p = .ok (UInt32.ofNat p, 56) :=
    fun p => seek_run (Nat.lt_of_lt_of_le (by decide) (word_le_length hbegin))
  have hrun : (decompile host (memSource buf) (buf.length + 1)).run 0 =
      .ok (t.mapProps (reread host), 56 + 4 + (encodeName (nodeName t.name)).length +
        (encodeBody host (nameTable t) t).length + 4) := by
    have hok := fun {x : UInt32} (message : String) (p : Nat) =>
      reportOn_run (not_not_intro (rfl : x = x)) message p
    rw [decompile, run_bind_of_ok (read_run hbuf.magic), run_bind_of_ok (hok _ _),
      run_bind_of_ok (hseek24 _), run_bind_of_ok (read_run hbuf.compat), run_bind_of_ok (hok _ _),
      run_bind_of_ok (hseek8 _), run_bind_of_ok (read_run hbuf.structOff),
      run_bind_of_ok (hseek56 _), run_bind_of_ok (read_run hbegin), run_bind_of_ok (hok _ _),
      run_bind_of_ok (readString_run_name hname0 hrootName (Nat.lt_succ_self _)), hname,
      run_bind_of_ok htree, run_bind_of_ok (read_run hend), run_bind_of_ok (hok _ _)]
    rfl
  rw [fdtdecompile, hrun]
  rfl

/-! ## Trees that come back -/

/-- What a tree must satisfy so that the blob says where its nodes and names end. -/
structure Encodable (t : FdtNode) : Prop where
  root : t.name ≠ []
  nodeNames : ∀ n ∈ t.nodes, 0 ∉ n.name
  propNames : ∀ prop ∈ t.allProps, 0 ∉ prop.name
  slash : ∀ n ∈ t.nodes, ∀ child ∈ n.children, child.name ≠ str "/"
  limit : ∀ n ∈ t.nodes, n.properties.length + n.children.length < 1000000

/-- All strings in the tree are printable. -/
def Printable (t : FdtNode) : Prop :=
  ∀ prop ∈ t.allProps, ∀ s ∈ prop.strings, ∀ ch ∈ s, isprint ch

/-- The bytes are terminated strings of printable characters. -/
def IsStrings (bs : Bytes) : Prop :=
  ∃ strs : List Bytes, (∀ s ∈ strs, ∀ ch ∈ s, isprint ch) ∧ bs = strs.flatMap cstr

/-- The value of every property can be read as numbers or as strings. -/
def Decodable (host : Host) (t : FdtNode) : Prop :=
  ∀ prop ∈ t.allProps, prop.size % 4 = 0 ∨ IsStrings (payload host prop)

theorem parseStrings_eq_none {bs : Bytes} : parseStrings bs = none ↔ ¬ IsStrings bs := by
  rw [← not_iff_not, not_not, ← ne_eq, Option.ne_none_iff_exists']
  constructor
  · rintro ⟨strs, h⟩
    exact ⟨strs, printable_parseStrings h, (flatMap_parseStrings h).symm⟩
  · rintro ⟨strs, hprint, rfl⟩
    exact ⟨strs, parseStrings_flatMap hprint⟩

theorem Decodable.isSome {t : FdtNode} (h : Decodable host t) {prop : FdtProp}
    (hprop : prop ∈ t.allProps) : (decodeProp host prop.name (payload host prop)).isSome := by
  simp only [decodeProp, Option.isSome_or, Option.isSome_map]
  rcases h prop hprop with hsize | hstrings
  · rw [(parseWords_isSome host _).2 (by rwa [length_payload]), Bool.or_true, Bool.or_true]
  · have hsome : (parseStrings (payload host prop)).isSome :=
      Option.isSome_iff_ne_none.2 fun hnone => parseStrings_eq_none.1 hnone hstrings
    rw [hsome, Bool.true_or, Bool.or_true]

theorem decodeProp_reread {prop : FdtProp}
    (h : (decodeProp host prop.name (payload host prop)).isSome) :
    decodeProp host prop.name (payload host prop) = some (reread host prop) := by
  obtain ⟨prop', hprop⟩ := Option.isSome_iff_exists.1 h
  rw [reread, hprop]
  rfl

/-- Compiling and decompiling a tree guesses the types of its values anew, and
changes nothing else. -/
theorem compile_decompile {t : FdtNode} (ht : Encodable t)
    (hval : ∀ prop ∈ t.allProps, (decodeProp host prop.name (payload host prop)).isSome)
    (h32 : (blob host t).length < 2 ^ 32) {buffer : Bytes}
    (hfit : (blob host t).length ≤ buffer.length) :
    ∃ out, fdtcompile host t buffer = .ok out ∧
      fdtdecompile host out = .ok (t.mapProps (reread host)) := by
  refine ⟨_, by rw [fdtcompile_eq, if_pos hfit], fdtdecompile_blob (blobAt host t _) ht.root ?_ h32⟩
  intro n hn
  have hprop : ∀ prop ∈ n.properties, prop ∈ t.allProps := fun prop h =>
    List.mem_flatMap.2 ⟨n, hn, h⟩
  exact
    { name := ht.nodeNames n hn
      props := fun prop h => ⟨ht.propNames prop (hprop prop h),
        mem_nameTable.2 (List.mem_map_of_mem (hprop prop h)),
        decodeProp_reread (hval prop (hprop prop h))⟩
      children := ht.slash n hn
      limit := ht.limit n hn }

theorem reread_name_payload {prop : FdtProp}
    (h : (decodeProp host prop.name (payload host prop)).isSome) :
    (reread host prop).name = prop.name ∧ payload host (reread host prop) = payload host prop :=
  decodeProp_eq_some (decodeProp_reread h)

theorem encodeProp_congr {prop prop' : FdtProp} (hname : prop'.name = prop.name)
    (hpayload : payload host prop' = payload host prop) (table : List Bytes) :
    encodeProp host table prop' = encodeProp host table prop := by
  have hsize : prop'.size = prop.size := by
    rw [← length_payload host prop', hpayload, length_payload]
  rw [encodeProp, encodeProp, hname, hpayload, hsize]

/-- The encoding of a tree depends on the names and the values of its properties
only. -/
theorem encodeNode_mapProps {f : FdtProp → FdtProp} (t : FdtNode)
    (h : ∀ prop ∈ t.allProps, (f prop).name = prop.name ∧
      payload host (f prop) = payload host prop) (table : List Bytes) :
    encodeNode host table (t.mapProps f) = encodeNode host table t := by
  induction t with
  | mk name props children ih =>
    rw [FdtNode.allProps_mk] at h
    have hprops : (props.map f).flatMap (encodeProp host table) =
        props.flatMap (encodeProp host table) := by
      rw [List.flatMap_map]
      apply List.flatMap_congr
      intro prop hmem
      have hprop := h prop (List.mem_append_left _ hmem)
      exact encodeProp_congr hprop.1 hprop.2 table
    have hchildren : (children.map (FdtNode.mapProps f)).flatMap (encodeNode host table) =
        children.flatMap (encodeNode host table) := by
      rw [List.flatMap_map]
      apply List.flatMap_congr
      intro child hmem
      exact ih child hmem fun prop hprop =>
        h prop (List.mem_append_right _ (List.mem_flatMap.2 ⟨child, hmem, hprop⟩))
    rw [FdtNode.mapProps_mk, encodeNode_mk, encodeNode_mk, hprops, hchildren]

theorem allProps_mapProps (f : FdtProp → FdtProp) (t : FdtNode) :
    (t.mapProps f).allProps = t.allProps.map f := by
  induction t with
  | mk name props children ih =>
    rw [FdtNode.mapProps_mk, FdtNode.allProps_mk, FdtNode.allProps_mk, List.map_append,
      List.flatMap_map, List.map_flatMap]
    exact congrArg (props.map f ++ ·) (List.flatMap_congr ih)

theorem mapProps_id {f : FdtProp → FdtProp} (t : FdtNode) (h : ∀ prop ∈ t.allProps, f prop = prop) :
    t.mapProps f = t := by
  induction t with
  | mk name props children ih =>
    rw [FdtNode.allProps_mk] at h
    have hprops : props.map f = props := by
      conv_rhs => rw [← List.map_id props]
      exact List.map_congr_left fun prop hmem => h prop (List.mem_append_left _ hmem)
    have hchildren : children.map (FdtNode.mapProps f) = children := by
      conv_rhs => rw [← List.map_id children]
      exact List.map_congr_left fun child hmem => ih child hmem fun prop hprop =>
        h prop (List.mem_append_right _ (List.mem_flatMap.2 ⟨child, hmem, hprop⟩))
    rw [FdtNode.mapProps_mk, hprops, hchildren]

theorem blob_mapProps {f : FdtProp → FdtProp} {t : FdtNode}
    (h : ∀ prop ∈ t.allProps, (f prop).name = prop.name ∧
      payload host (f prop) = payload host prop) : blob host (t.mapProps f) = blob host t := by
  have htable : nameTable (t.mapProps f) = nameTable t := by
    rw [nameTable, nameTable, allProps_mapProps, List.map_map]
    exact congrArg (addNames []) (List.map_congr_left fun prop hmem => (h prop hmem).1)
  have hstruct : structBlock host (t.mapProps f) = structBlock host t := by
    rw [structBlock, structBlock, htable, encodeNode_mapProps t h]
  rw [blob, blob, blobWords, blobWords, stringsBlock, stringsBlock, hstruct, htable]

/-! ## Types of values -/

theorem payload_numbers {prop : FdtProp} (h : prop.strings = []) :
    payload host prop = prop.numbers.flatMap (word host) := by
  rw [payload, h]
  exact List.append_nil _

theorem payload_strings {prop : FdtProp} (h : prop.numbers = []) :
    payload host prop = prop.strings.flatMap cstr := by
  rw [payload, h]
  rfl

theorem eq_ofNumbers {prop : FdtProp} (h : prop.strings = []) :
    .ofNumbers prop.name prop.numbers = prop :=
  FdtProp.ext rfl rfl h.symm

theorem eq_ofStrings {prop : FdtProp} (h : prop.numbers = []) :
    .ofStrings prop.name prop.strings = prop :=
  FdtProp.ext rfl h.symm rfl

/-- A list of numbers is taken for numbers when the name says so, or when its
bytes are no strings. -/
theorem decodeProp_numbers {prop : FdtProp} (h : prop.strings = [])
    (hname : isIntProperty prop.name ∨ parseStrings (payload host prop) = none) :
    decodeProp host prop.name (payload host prop) = some prop := by
  have hwords : parseWords host (payload host prop) = some prop.numbers := by
    rw [payload_numbers h, parseWords_flatMap]
  simp only [decodeProp, hwords, Option.map_some, eq_ofNumbers h]
  rcases hname with hname | hnone
  · rw [if_pos hname]
    rfl
  · rw [hnone]
    split <;> rfl

theorem decodeProp_strings {name bs : Bytes} {strs : List Bytes} (hname : ¬ isIntProperty name)
    (h : parseStrings bs = some strs) :
    decodeProp host name bs = some (.ofStrings name strs) := by
  simp only [decodeProp, if_neg hname, h]
  rfl

theorem Printable.decodable {t : FdtNode} (h : Printable t) : Decodable host t := by
  intro prop hprop
  rcases prop.one_kind with hnumbers | hstrings
  · right
    exact ⟨prop.strings, h prop hprop, payload_strings hnumbers⟩
  · left
    rw [← length_payload host, payload_numbers hstrings, length_flatMap_word]
    omega

/-! ## The round trip -/

/-- A tree with printable strings comes back with the same names, the same order
and nesting, and the same bytes in every value.  A value keeps its type when the
name of its property and the type agree. -/
theorem fdtdecompile_fdtcompile (host : Host) (t : FdtNode) (ht : Encodable t)
    (hprint : Printable t) (h32 : (blob host t).length < 2 ^ 32) (buffer : Bytes)
    (hfit : (blob host t).length ≤ buffer.length) :
    ∃ out f, fdtcompile host t buffer = .ok out ∧ fdtdecompile host out = .ok (t.mapProps f) ∧
      (∀ prop ∈ t.allProps,
        (f prop).name = prop.name ∧ payload host (f prop) = payload host prop ∧
        (isIntProperty prop.name → prop.strings = [] → f prop = prop) ∧
        (¬ isIntProperty prop.name → prop.numbers = [] → f prop = prop)) ∧
      ∀ buffer', fdtcompile host (t.mapProps f) buffer' = fdtcompile host t buffer' := by
  have hval : Decodable host t := hprint.decodable
  obtain ⟨out, hcompile, hdecompile⟩ := compile_decompile ht (fun _ => hval.isSome) h32 hfit
  refine ⟨out, reread host, hcompile, hdecompile, fun prop hprop => ?_, fun buffer' => ?_⟩
  · obtain ⟨hname, hpayload⟩ := reread_name_payload (hval.isSome hprop)
    refine ⟨hname, hpayload, fun hint hstrings => ?_, fun hint hnumbers => ?_⟩
    · exact Option.some.inj ((decodeProp_reread (hval.isSome hprop)).symm.trans
        (decodeProp_numbers hstrings (.inl hint)))
    · have hparse : parseStrings (payload host prop) = some prop.strings := by
        rw [payload_strings hnumbers, parseStrings_flatMap (hprint prop hprop)]
      have hdecode : decodeProp host prop.name (payload host prop) = _ :=
        decodeProp_strings hint hparse
      rw [eq_ofStrings hnumbers] at hdecode
      exact Option.some.inj ((decodeProp_reread (hval.isSome hprop)).symm.trans hdecode)
  · rw [fdtcompile_eq, fdtcompile_eq,
      blob_mapProps fun prop hprop => reread_name_payload (hval.isSome hprop)]

/-- A root with a property of numbers, and a child with a property of strings. -/
def cpuTree : FdtNode :=
  .mk (str "/") [.ofNumbers (str "reg") [1, 2]]
    [.mk (str "cpu") [.ofStrings (str "status") [str "okay"]] []]

theorem encodable_cpuTree : Encodable cpuTree where
  root := by decide
  nodeNames := by decide +kernel
  propNames := by decide +kernel
  slash := by decide +kernel
  limit := by decide +kernel

theorem fdtdecompile_fdtcompile_cpu :
    ∃ out f, fdtcompile .littleEndian cpuTree (zeros 200) = .ok out ∧
      fdtdecompile .littleEndian out = .ok (cpuTree.mapProps f) := by
  obtain ⟨out, f, hcompile, hdecompile, -⟩ := fdtdecompile_fdtcompile .littleEndian cpuTree
    encodable_cpuTree (by unfold Printable; decide +kernel) (by decide +kernel) (zeros 200)
    (by decide +kernel)
  exact ⟨out, f, hcompile, hdecompile⟩

/-- What becomes of a list of numbers. -/
theorem fdtdecompile_numbers (host : Host) (t : FdtNode) (ht : Encodable t)
    (hval : Decodable host t) (h32 : (blob host t).length < 2 ^ 32) (buffer : Bytes)
    (hfit : (blob host t).length ≤ buffer.length) :
    ∃ out f, fdtcompile host t buffer = .ok out ∧ fdtdecompile host out = .ok (t.mapProps f) ∧
      ∀ prop ∈ t.allProps, prop.numbers ≠ [] →
        (f prop).name = prop.name ∧
        ((f prop).numbers = prop.numbers ∧ (f prop).strings = [] ↔
          isIntProperty prop.name ∨ ¬ IsStrings (payload host prop)) ∧
        (¬ isIntProperty prop.name → IsStrings (payload host prop) →
          (f prop).numbers = [] ∧ (f prop).strings.flatMap cstr = payload host prop) := by
  obtain ⟨out, hcompile, hdecompile⟩ := compile_decompile ht (fun _ => hval.isSome) h32 hfit
  refine ⟨out, reread host, hcompile, hdecompile, fun prop hprop hne => ?_⟩
  have hstrings : prop.strings = [] := prop.one_kind.resolve_left hne
  have hreread := decodeProp_reread (hval.isSome hprop)
  have hsame : isIntProperty prop.name ∨ ¬ IsStrings (payload host prop) →
      reread host prop = prop := by
    intro h
    rw [← parseStrings_eq_none] at h
    exact Option.some.inj (hreread.symm.trans (decodeProp_numbers hstrings h))
  have hother : ¬ isIntProperty prop.name → IsStrings (payload host prop) →
      (reread host prop).numbers = [] := by
    intro hname hs
    obtain ⟨strs, hparse⟩ := Option.ne_none_iff_exists'.1
      (fun hnone => parseStrings_eq_none.1 hnone hs)
    rw [decodeProp_strings hname hparse] at hreread
    rw [← Option.some.inj hreread]
    rfl
  obtain ⟨hname, hpayload⟩ := reread_name_payload (hval.isSome hprop)
  refine ⟨hname, ⟨fun h => ?_, fun h => ?_⟩, fun hint hs => ?_⟩
  · by_contra hcon
    rw [not_or, not_not] at hcon
    exact hne (h.1.symm.trans (hother hcon.1 hcon.2))
  · rw [hsame h]
    exact ⟨rfl, hstrings⟩
  · have hnumbers := hother hint hs
    exact ⟨hnumbers, (payload_strings hnumbers).symm.trans hpayload⟩

theorem fdtdecompile_numbers_cpu :
    ∃ out f, fdtcompile .littleEndian cpuTree (zeros 200) = .ok out ∧
      fdtdecompile .littleEndian out = .ok (cpuTree.mapProps f) := by
  obtain ⟨out, f, hcompile, hdecompile, -⟩ := fdtdecompile_numbers .littleEndian cpuTree
    encodable_cpuTree (Printable.decodable (by unfold Printable; decide +kernel))
    (by decide +kernel) (zeros 200) (by decide +kernel)
  exact ⟨out, f, hcompile, hdecompile⟩

/-- The number `0x61620000` of a property `foo` comes back as two strings. -/
theorem numbers_read_as_strings :
    (do
      let out ← fdtcompile .littleEndian
        (.mk (str "/") [.ofNumbers (str "foo") [0x61620000]] []) (zeros 92)
      fdtdecompile .littleEndian out) =
    .ok (.mk (str "/") [.ofStrings (str "foo") [str "ab", []]] []) := by
  decide +kernel

end Mwr.Fdt
