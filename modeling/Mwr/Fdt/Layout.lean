import Mwr.Fdt.Reader
import Mwr.Fdt.Writer

/-!
# The layout of a blob

What the specification of the format asks of a blob, in terms of the bytes that
stand in it.

* `Token` is one entry of the structure block, and `TokenAt` says that an entry
  stands at a position and which position comes next.
* `Tiles` says that a block consists of a list of entries, each aligned.
* `Layout` puts the fields of the header, the structure block and the strings
  block together, and `fdtcompile_layout` says that the writer follows it.
-/

namespace Mwr.Fdt

open Mwr.CodeLib
open Mwr.CodeLib.Bytes
open Mwr.CodeLib.Exec

variable {host : Host} {out : Bytes}

/-! ## Entries of the structure block -/

/-- The word at a position, as the reader reads it. -/
def wordAt (host : Host) (buf : Bytes) (p : Nat) : Option UInt32 :=
  match (read host (memSource buf)).run p with
  | .ok (x, _) => some x
  | .error _ => none

theorem wordAt_of_at {p : Nat} {x : UInt32} (h : At out p (word host x)) :
    wordAt host out p = some x := by
  rw [wordAt, read_run h]

/-- The entries of the structure block. -/
inductive Token where
  | beginNode (name : Bytes)
  | prop (prop : FdtProp)
  | endNode
  | fin

mutual

/-- The entries of a node. -/
def tokens : FdtNode → List Token
  | .mk name props children =>
    .beginNode (nodeName name) :: (props.map .prop ++ (tokensOfChildren children ++ [.endNode]))

def tokensOfChildren : List FdtNode → List Token
  | [] => []
  | child :: children => tokens child ++ tokensOfChildren children

end

theorem tokensOfChildren_eq (children : List FdtNode) :
    tokensOfChildren children = children.flatMap tokens := by
  induction children with
  | nil => rfl
  | cons child children ih => rw [tokensOfChildren, ih, List.flatMap_cons]

/-- The number of nodes that are open behind a list of entries, if every entry is
inside a node and ends no more than what is open. -/
def openNodes : List Token → Nat → Option Nat
  | [], n => some n
  | .beginNode _ :: toks, n => openNodes toks (n + 1)
  | .prop _ :: toks, n + 1 => openNodes toks (n + 1)
  | .endNode :: toks, n + 1 => openNodes toks n
  | _ :: _, _ => none

/-- The fields of the header that say where things are. -/
structure Fields where
  totalsize : UInt32
  offStruct : UInt32
  offStrings : UInt32
  sizeStrings : UInt32
  sizeStruct : UInt32

/-- The entry stands at `p`, and the next one belongs at `q`. -/
def TokenAt (host : Host) (out : Bytes) (hd : Fields) (p : Nat) (tok : Token) (q : Nat) : Prop :=
  match tok with
  | .beginNode name =>
    wordAt host out p = some FDT_BEGIN_NODE ∧ At out (p + 4) (cstr name) ∧
      q = p + 4 + (name.length + 1) + pad (name.length + 1)
  | .prop prop =>
    ∃ len nameoff, wordAt host out p = some FDT_PROP ∧ wordAt host out (p + 4) = some len ∧
      wordAt host out (p + 8) = some nameoff ∧ len.toNat = (payload host prop).length ∧
      At out (p + 12) (payload host prop) ∧
      nameoff.toNat + (prop.name.length + 1) ≤ hd.sizeStrings.toNat ∧
      At out (hd.offStrings.toNat + nameoff.toNat) (cstr prop.name) ∧
      q = p + 12 + len.toNat + pad len.toNat
  | .endNode => wordAt host out p = some FDT_END_NODE ∧ q = p + 4
  | .fin => wordAt host out p = some FDT_END ∧ q = p + 4

/-- The entries stand from `p` to `q`, one behind the other, each at a multiple
of four. -/
inductive Tiles (host : Host) (out : Bytes) (hd : Fields) : Nat → List Token → Nat → Prop
  | nil (p : Nat) : Tiles host out hd p [] p
  | cons {p q r : Nat} {tok : Token} {toks : List Token} : p % 4 = 0 →
      TokenAt host out hd p tok q → Tiles host out hd q toks r → Tiles host out hd p (tok :: toks) r

/-- A blob for the tree `t`, with the fields `hd` in its header and the strings
`names` in its strings block. -/
structure Layout (host : Host) (t : FdtNode) (out : Bytes) (hd : Fields) (names : List Bytes) :
    Prop where
  totalsize : wordAt host out 4 = some hd.totalsize
  offStruct : wordAt host out 8 = some hd.offStruct
  offStrings : wordAt host out 12 = some hd.offStrings
  sizeStrings : wordAt host out 32 = some hd.sizeStrings
  sizeStruct : wordAt host out 36 = some hd.sizeStruct
  length : out.length = hd.totalsize.toNat
  aligned : hd.offStruct.toNat % 4 = 0
  tiles : Tiles host out hd hd.offStruct.toNat (tokens t ++ [.fin])
    (hd.offStruct.toNat + hd.sizeStruct.toNat)
  balanced : openNodes (tokens t) 0 = some 0
  struct_end : hd.offStrings.toNat = hd.offStruct.toNat + hd.sizeStruct.toNat
  strings_end : hd.offStrings.toNat + hd.sizeStrings.toNat = hd.totalsize.toNat
  strings : At out hd.offStrings.toNat (encodeTable names) ∧
    (encodeTable names).length = hd.sizeStrings.toNat
  names_nodup : names.Nodup
  names_mem : ∀ name, name ∈ names ↔ name ∈ t.allProps.map FdtProp.name

/-! ## The structure block -/

theorem openNodes_append {xs ys : List Token} {m n : Nat} (h : openNodes xs m = some n) :
    openNodes (xs ++ ys) m = openNodes ys n := by
  fun_induction openNodes xs m with
  | case1 m => cases h; rfl
  | case2 name toks m ih => exact ih h
  | case3 prop toks m ih => exact ih h
  | case4 toks m ih => exact ih h
  | case5 => cases h

theorem openNodes_props (props : List FdtProp) (n : Nat) :
    openNodes (props.map .prop) (n + 1) = some (n + 1) := by
  induction props with
  | nil => rfl
  | cons prop props ih => exact ih

/-- The entries of a node close what they open. -/
theorem openNodes_tokens (t : FdtNode) (n : Nat) : openNodes (tokens t) n = some n := by
  induction t generalizing n with
  | mk name props children ih =>
    have hchildren : openNodes (children.flatMap tokens) (n + 1) = some (n + 1) := by
      induction children with
      | nil => rfl
      | cons child children ihc =>
        rw [List.flatMap_cons, openNodes_append (ih child List.mem_cons_self (n + 1))]
        exact ihc fun c hc => ih c (List.mem_cons_of_mem child hc)
    rw [tokens, tokensOfChildren_eq, openNodes, openNodes_append (openNodes_props props n),
      openNodes_append hchildren]
    rfl

theorem Tiles.append {hd : Fields} {p q r : Nat} {xs ys : List Token}
    (hx : Tiles host out hd p xs q) (hy : Tiles host out hd q ys r) :
    Tiles host out hd p (xs ++ ys) r := by
  induction hx with
  | nil p => exact hy
  | cons hp htok _ ih => exact .cons hp htok (ih hy)

theorem Tiles.single {hd : Fields} {p q : Nat} {tok : Token} (hp : p % 4 = 0)
    (h : TokenAt host out hd p tok q) : Tiles host out hd p [tok] q :=
  .cons hp h (.nil q)

/-- The names in `table` stand in the strings block at their offsets. -/
def NamesIn (out : Bytes) (hd : Fields) (table : List Bytes) : Prop :=
  ∀ name ∈ table, (offset table name).toNat + (name.length + 1) ≤ hd.sizeStrings.toNat ∧
    At out (hd.offStrings.toNat + (offset table name).toNat) (cstr name)

/-- The entry behind an aligned one is aligned. -/
theorem TokenAt.aligned {hd : Fields} {p q : Nat} {tok : Token}
    (h : TokenAt host out hd p tok q) (hp : p % 4 = 0) : q % 4 = 0 := by
  cases tok with
  | beginNode name =>
    obtain ⟨-, -, rfl⟩ := h
    have hpad := add_pad_mod (name.length + 1)
    omega
  | prop prop =>
    obtain ⟨len, nameoff, -, -, -, -, -, -, -, rfl⟩ := h
    have hpad := add_pad_mod len.toNat
    omega
  | endNode =>
    obtain ⟨-, rfl⟩ := h
    omega
  | fin =>
    obtain ⟨-, rfl⟩ := h
    omega

theorem Tiles.aligned {hd : Fields} {p q : Nat} {toks : List Token}
    (h : Tiles host out hd p toks q) (hp : p % 4 = 0) : q % 4 = 0 := by
  induction h with
  | nil p => exact hp
  | cons hp htok _ ih => exact ih (htok.aligned hp)

section Blocks

variable {hd : Fields} {table : List Bytes}

theorem tokenAt_prop (hnames : NamesIn out hd table) (h32 : out.length < 2 ^ 32) {p : Nat}
    {prop : FdtProp} (hmem : prop.name ∈ table) (h : At out p (encodeProp host table prop)) :
    TokenAt host out hd p (.prop prop) (p + (encodeProp host table prop).length) := by
  have hle := h.length_le (List.ne_nil_of_length_pos (by rw [length_encodeProp]; omega))
  have hlen := length_encodeProp host table prop
  have hsize : (UInt32.ofNat prop.size).toNat = prop.size := toNat_ofNat (by omega)
  rw [encodeProp, at_append, at_append, at_append, at_append, length_word, length_word,
    length_word] at h
  refine ⟨UInt32.ofNat prop.size, offset table prop.name, wordAt_of_at h.1, wordAt_of_at h.2.1,
    wordAt_of_at h.2.2.1, ?_, h.2.2.2.1, (hnames _ hmem).1, (hnames _ hmem).2, ?_⟩
  · rw [hsize, length_payload]
  · rw [hsize, hlen]
    omega

theorem tiles_props (hnames : NamesIn out hd table) (h32 : out.length < 2 ^ 32) {p : Nat}
    (hp : p % 4 = 0) (props : List FdtProp) (hmem : ∀ prop ∈ props, prop.name ∈ table)
    (h : At out p (props.flatMap (encodeProp host table))) :
    Tiles host out hd p (props.map .prop)
      (p + (props.flatMap (encodeProp host table)).length) := by
  induction props generalizing p with
  | nil => exact .nil p
  | cons prop props ih =>
    rw [List.flatMap_cons, at_append] at h
    have htok := tokenAt_prop hnames h32 (hmem prop List.mem_cons_self) h.1
    have hrest := ih (htok.aligned hp) (fun q hq => hmem q (List.mem_cons_of_mem prop hq)) h.2
    rw [List.flatMap_cons, List.length_append, ← Nat.add_assoc]
    exact .cons hp htok hrest

theorem tiles_node (hnames : NamesIn out hd table) (h32 : out.length < 2 ^ 32) {p : Nat}
    (hp : p % 4 = 0) (t : FdtNode) (hmem : ∀ prop ∈ t.allProps, prop.name ∈ table)
    (h : At out p (encodeNode host table t)) :
    Tiles host out hd p (tokens t) (p + (encodeNode host table t).length) := by
  induction t generalizing p with
  | mk name props children ih =>
    rw [FdtNode.allProps_mk] at hmem
    have hmemProps : ∀ prop ∈ props, prop.name ∈ table := fun prop hprop =>
      hmem prop (List.mem_append_left _ hprop)
    have hmemChild : ∀ child ∈ children, ∀ prop ∈ child.allProps, prop.name ∈ table :=
      fun child hchild prop hprop =>
        hmem prop (List.mem_append_right _ (List.mem_flatMap.2 ⟨child, hchild, hprop⟩))
    have hchildren : ∀ p, p % 4 = 0 → At out p (children.flatMap (encodeNode host table)) →
        Tiles host out hd p (children.flatMap tokens)
          (p + (children.flatMap (encodeNode host table)).length) := by
      clear h hmem
      induction children with
      | nil => exact fun p _ _ => .nil p
      | cons child children ihc =>
        intro p hp h
        rw [List.flatMap_cons, at_append] at h
        have htok := ih child List.mem_cons_self hp (hmemChild child List.mem_cons_self) h.1
        rw [List.flatMap_cons, List.flatMap_cons, List.length_append, ← Nat.add_assoc]
        exact htok.append (ihc (fun c hc => ih c (List.mem_cons_of_mem child hc))
          (fun c hc => hmemChild c (List.mem_cons_of_mem child hc)) _ (htok.aligned hp) h.2)
    have hlen := congrArg List.length (encodeNode_mk host table name props children)
    simp only [List.length_append, length_word, length_encodeName] at hlen
    rw [encodeNode_mk, at_append, at_append, at_append, at_append, length_word,
      length_encodeName] at h
    obtain ⟨hbegin, hname, hprops, hkids, hend⟩ := h
    have hbeginTok : TokenAt host out hd p (.beginNode (nodeName name))
        (p + 4 + ((nodeName name).length + 1 + pad ((nodeName name).length + 1))) :=
      ⟨wordAt_of_at hbegin, (at_append.1 hname).1, by omega⟩
    have hpropsTile := tiles_props hnames h32 (hbeginTok.aligned hp) props hmemProps hprops
    have hkidsTile := hchildren _ (hpropsTile.aligned (hbeginTok.aligned hp)) hkids
    have hendTile := Tiles.single (hkidsTile.aligned (hpropsTile.aligned (hbeginTok.aligned hp)))
      (show TokenAt host out hd _ .endNode _ from ⟨wordAt_of_at hend, rfl⟩)
    rw [tokens, tokensOfChildren_eq, hlen]
    refine .cons hp hbeginTok (hpropsTile.append (hkidsTile.append ?_))
    convert hendTile using 1
    omega

end Blocks

/-! ## The whole blob -/

theorem layout_blob (t : FdtNode) (h32 : (blob host t).length < 2 ^ 32) :
    ∃ hd, Layout host t (blob host t) hd (nameTable t) := by
  have hat := blobAt host t []
  rw [List.append_nil] at hat
  have hlen := length_blob host t
  have htotal := toNat_ofNat h32
  have hoff := toNat_ofNat (n := 56 + (structBlock host t).length) (by omega)
  have hstrings := toNat_ofNat (n := (stringsBlock t).length) (by omega)
  have hstruct := toNat_ofNat (n := (structBlock host t).length) (by omega)
  let hd : Fields := ⟨.ofNat (blob host t).length, 56, .ofNat (56 + (structBlock host t).length),
    .ofNat (stringsBlock t).length, .ofNat (structBlock host t).length⟩
  have hnames : NamesIn (blob host t) hd (nameTable t) := by
    intro name hname
    show _ ≤ (UInt32.ofNat (stringsBlock t).length).toNat ∧
      At _ ((UInt32.ofNat (56 + (structBlock host t).length)).toNat + _) _
    rw [hstrings, hoff]
    exact hat.name h32 hname
  have hblock := hat.struct
  rw [structBlock, at_append] at hblock
  have hnode := tiles_node hnames h32 (p := 56) rfl t
    (fun prop hprop => mem_nameTable.2 (List.mem_map_of_mem hprop)) hblock.1
  have hfin := Tiles.single (hnode.aligned rfl)
    (show TokenAt host (blob host t) hd _ .fin _ from ⟨wordAt_of_at hblock.2, rfl⟩)
  refine ⟨hd, ?_⟩
  exact
    { totalsize := wordAt_of_at hat.totalSize
      offStruct := wordAt_of_at hat.structOff
      offStrings := wordAt_of_at hat.stringOff
      sizeStrings := wordAt_of_at hat.stringSize
      sizeStruct := wordAt_of_at hat.structSize
      length := htotal.symm
      aligned := show (56 : UInt32).toNat % 4 = 0 from rfl
      tiles := by
        show Tiles host _ hd 56 _ (56 + (UInt32.ofNat (structBlock host t).length).toNat)
        rw [hstruct, length_structBlock, ← Nat.add_assoc]
        exact hnode.append hfin
      balanced := openNodes_tokens t 0
      struct_end := by
        show (UInt32.ofNat _).toNat = 56 + (UInt32.ofNat _).toNat
        rw [hoff, hstruct]
      strings_end := by
        show (UInt32.ofNat _).toNat + (UInt32.ofNat _).toNat = (UInt32.ofNat _).toNat
        rw [hoff, hstrings, htotal, hlen]
      strings := by
        show At _ (UInt32.ofNat _).toNat _ ∧ _ = (UInt32.ofNat _).toNat
        rw [hoff, hstrings]
        exact ⟨hat.strings, rfl⟩
      names_nodup := nodup_addNames List.nodup_nil _
      names_mem := fun _ => mem_nameTable }

/-- The layout of what the writer leaves in the buffer. -/
theorem fdtcompile_layout (host : Host) (t : FdtNode) (h32 : (blob host t).length < 2 ^ 32)
    (buffer : Bytes) (hfit : (blob host t).length ≤ buffer.length) :
    ∃ out hd names, fdtcompile host t buffer = .ok (out ++ buffer.drop out.length) ∧
      out.length = (blob host t).length ∧ Layout host t out hd names := by
  obtain ⟨hd, hlayout⟩ := layout_blob t h32
  exact ⟨blob host t, hd, nameTable t, by rw [fdtcompile_eq, if_pos hfit], rfl, hlayout⟩

/-- A root with one property, in a buffer with room to spare. -/
theorem fdtcompile_layout_reg :
    let t : FdtNode := .mk (str "/") [.ofNumbers (str "reg") [1]] []
    ∃ out hd names, fdtcompile .littleEndian t (zeros 100) =
        .ok (out ++ (zeros 100).drop out.length) ∧
      out.length = (blob .littleEndian t).length ∧ Layout .littleEndian t out hd names :=
  fdtcompile_layout .littleEndian (.mk (str "/") [.ofNumbers (str "reg") [1]] [])
    (by decide +kernel) (zeros 100) (by decide +kernel)

end Mwr.Fdt
