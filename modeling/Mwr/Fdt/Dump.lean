import Mathlib.Data.List.TakeWhile
import Mwr.CodeLib.Digits
import Mwr.CodeLib.UniqueText
import Mwr.Fdt.Encoding

/-!
# Device trees as text

`operator<<` and `dump` of `src/mwr/utils/fdt.cpp`, which print a tree in the notation of device
tree sources, with a line for each property and a block for each node.

* `FdtProp.dump` and `FdtNode.dump` are the code.
* `FdtNode.Clear` says which names and strings do not look like the notation itself.
* `legible_value`, `legible_prop` and `FdtNode.legible_dump` take the text of a value, a property
  and a node apart, and `dump_eq_iff` is the result: the text says which tree it is.
-/

namespace Mwr.Fdt

open Mwr.CodeLib
open Mwr.CodeLib.Bytes (str)
open Mwr.CodeLib.Digits
open Mwr.CodeLib.UniqueText

/-! ## The code -/

/-- `doindent(os, n)`. -/
def doindent : Nat → Bytes
  | 0 => []
  | n + 1 => str "    " ++ doindent n

/-- A number in the format `0x%x`. -/
def hexText (number : UInt32) : Bytes := str "0x" ++ numeral 16 number.toNat

/-- The string that `%s` prints for `s.c_str()`. -/
def charsText (s : Bytes) : Bytes := s.takeWhile (· ≠ 0)

/-- `fdtprop::dump(os, indent)`. -/
def FdtProp.dump (prop : FdtProp) (indent : Nat) : Bytes :=
  doindent indent ++ prop.name ++
    (match prop.numbers with
      | [] => []
      | number :: numbers => str " = <" ++ hexText number ++
          numbers.flatMap (fun number => str " " ++ hexText number) ++ str ">") ++
    (match prop.strings with
      | [] => []
      | string :: strings => str " = \"" ++ charsText string ++ str "\"" ++
          strings.flatMap (fun string => str ", \"" ++ charsText string ++ str "\"")) ++
    str ";"

namespace FdtNode

mutual

/-- `fdtnode::dump(os, indent)`. -/
def dump (indent : Nat) : FdtNode → Bytes
  | .mk name properties children =>
    doindent indent ++ name ++ str " \x7b\n" ++
      properties.flatMap (fun prop => prop.dump (indent + 1) ++ str "\n") ++
      dumpChildren (indent + 1) children ++
      doindent indent ++ str "\x7d;"

/-- The loop over the children. -/
def dumpChildren (indent : Nat) : List FdtNode → Bytes
  | [] => []
  | child :: children => dump indent child ++ str "\n" ++ dumpChildren indent children

end

end FdtNode

/-! ## Names and strings -/

/-- The letters that end a name. -/
def EndsName (ch : UInt8) : Prop := ch = ' '.toUInt8 ∨ ch = ';'.toUInt8

/-- A name can be followed by a blank or a semicolon only. -/
def ClearName (name : Bytes) : Prop := ∀ ch ∈ name, ¬ EndsName ch

/-- A string ends at its quote. -/
def ClearString (s : Bytes) : Prop := ∀ ch ∈ s, ch ≠ '"'.toUInt8 ∧ ch ≠ 0

instance (ch : UInt8) : Decidable (EndsName ch) := inferInstanceAs (Decidable (_ ∨ _))

instance (name : Bytes) : Decidable (ClearName name) :=
  inferInstanceAs (Decidable (∀ ch ∈ name, _))

instance (s : Bytes) : Decidable (ClearString s) := inferInstanceAs (Decidable (∀ ch ∈ s, _))

/-- A property whose name and strings do not look like the notation. -/
def FdtProp.Clear (prop : FdtProp) : Prop :=
  ClearName prop.name ∧ ∀ s ∈ prop.strings, ClearString s

/-- A tree whose names and strings do not look like the notation. -/
def FdtNode.Clear (t : FdtNode) : Prop :=
  ∀ u ∈ t.nodes, ClearName u.name ∧ ∀ prop ∈ u.properties, prop.Clear

instance (prop : FdtProp) : Decidable prop.Clear := inferInstanceAs (Decidable (_ ∧ _))

instance (t : FdtNode) : Decidable t.Clear := inferInstanceAs (Decidable (∀ u ∈ t.nodes, _))

theorem FdtNode.clear_mk {name : Bytes} {properties : List FdtProp} {children : List FdtNode} :
    FdtNode.Clear (.mk name properties children) ↔
      (ClearName name ∧ ∀ prop ∈ properties, prop.Clear) ∧ ∀ child ∈ children, child.Clear := by
  rw [Clear, nodes_mk, List.forall_mem_cons]
  refine and_congr_right fun _ => ?_
  simp only [List.mem_flatMap, forall_exists_index, and_imp]
  exact ⟨fun h child hchild u hu => h u child hchild hu,
    fun h u child hchild hu => h child hchild u hu⟩

theorem FdtNode.Clear.name {t : FdtNode} (h : t.Clear) : ClearName t.name :=
  (h t t.self_mem_nodes).1

theorem charsText_eq {s : Bytes} (h : ClearString s) : charsText s = s :=
  List.takeWhile_eq_self_iff.2 fun ch hch => decide_eq_true (h ch hch).2

/-! ## Values -/

/-- The value of a property. -/
inductive Value where
  | empty
  | numbers (number : UInt32) (more : List UInt32)
  | strings (string : Bytes) (more : List Bytes)

/-- What is printed behind the name. -/
def Value.text : Value → Bytes
  | .empty => str ";"
  | .numbers number more =>
    str " = <0x" ++ separated (fun n : UInt32 => numeral 16 n.toNat) (str " 0x") (str ">;") number
      more
  | .strings string more =>
    str " = \"" ++ separated charsText (str "\", \"") (str "\";") string more

def Value.Clear : Value → Prop
  | .strings string more => ClearString string ∧ ∀ s ∈ more, ClearString s
  | _ => True

/-- Numbers end where there is no digit. -/
theorem legible_numbers (number : UInt32) (more : List UInt32) :
    Legible (fun q : UInt32 × List UInt32 => True ∧ ∀ n ∈ q.2, True)
      (fun q => separated (fun n : UInt32 => numeral 16 n.toNat) (str " 0x") (str ">;") q.1 q.2)
      (number, more) := by
  refine legible_separated (p := fun ch => isDigit 16 ch = false) (P := fun _ => True) rfl rfl
    (apart_of_getElem? (i := 0) rfl rfl (by decide)) ?_ ?_ number more trivial fun _ _ => trivial
  · intro n _ ch hch
    rw [isDigit_of_mem_numeral (by decide) (by decide) hch]
    exact Bool.noConfusion
  · intro n n' _ _ h
    have hvalue := congrArg (value 16) h
    rw [value_numeral (by decide) (by decide), value_numeral (by decide) (by decide)] at hvalue
    exact UInt32.toNat_inj.1 hvalue

/-- Strings end at a quote. -/
theorem legible_strings {string : Bytes} {more : List Bytes} (hstring : ClearString string)
    (hmore : ∀ s ∈ more, ClearString s) :
    Legible (fun q : Bytes × List Bytes => ClearString q.1 ∧ ∀ s ∈ q.2, ClearString s)
      (fun q => separated charsText (str "\", \"") (str "\";") q.1 q.2) (string, more) := by
  refine legible_separated (p := (· = '"'.toUInt8)) rfl rfl
    (apart_of_getElem? (i := 1) rfl rfl (by decide)) ?_ ?_ string more hstring hmore
  · intro s hs ch hch
    rw [charsText_eq hs] at hch
    exact (hs ch hch).1
  · intro s s' hs hs' h
    rwa [charsText_eq hs, charsText_eq hs'] at h

theorem legible_value {v : Value} (hv : v.Clear) : Legible Value.Clear Value.text v := by
  have hempty : ∀ rest, Apart (str ";") (str " = <0x" ++ rest) ∧
      Apart (str ";") (str " = \"" ++ rest) :=
    fun rest => ⟨apart_of_getElem? (i := 0) rfl rfl (by decide),
      apart_of_getElem? (i := 0) rfl rfl (by decide)⟩
  -- the first letters of the text say which kind of value it is
  have hkinds : ∀ rest rest', Apart (str " = <0x" ++ rest) (str " = \"" ++ rest') :=
    fun rest rest' => apart_of_getElem? (i := 3) rfl rfl (by decide)
  rintro v' r r' hv' h
  cases v with
  | empty =>
    cases v' with
    | empty => exact ⟨rfl, List.append_cancel_left h⟩
    | numbers number more => exact absurd h ((hempty _).1 r r')
    | strings string more => exact absurd h ((hempty _).2 r r')
  | numbers number more =>
    cases v' with
    | empty => exact absurd h.symm ((hempty _).1 r' r)
    | numbers number' more' =>
      rw [Value.text, Value.text, List.append_assoc, List.append_assoc] at h
      obtain ⟨heq, rfl⟩ := legible_numbers number more (number', more') r r'
        ⟨trivial, fun _ _ => trivial⟩ (List.append_cancel_left h)
      obtain ⟨rfl, rfl⟩ := Prod.mk.inj heq
      exact ⟨rfl, rfl⟩
    | strings string more => exact absurd h (hkinds _ _ r r')
  | strings string more =>
    cases v' with
    | empty => exact absurd h.symm ((hempty _).2 r' r)
    | numbers number more => exact absurd h.symm (hkinds _ _ r' r)
    | strings string' more' =>
      rw [Value.text, Value.text, List.append_assoc, List.append_assoc] at h
      obtain ⟨heq, rfl⟩ := legible_strings hv.1 hv.2 (string', more') r r' hv'
        (List.append_cancel_left h)
      obtain ⟨rfl, rfl⟩ := Prod.mk.inj heq
      exact ⟨rfl, rfl⟩

/-! ## Properties -/

/-- The value of a property. -/
def FdtProp.value (prop : FdtProp) : Value :=
  match prop.numbers, prop.strings with
  | number :: numbers, _ => .numbers number numbers
  | [], string :: strings => .strings string strings
  | [], [] => .empty

/-- The numbers of a value. -/
def Value.numberList : Value → List UInt32
  | .numbers number more => number :: more
  | _ => []

/-- The strings of a value. -/
def Value.stringList : Value → List Bytes
  | .strings string more => string :: more
  | _ => []

theorem FdtProp.lists_value (prop : FdtProp) :
    prop.value.numberList = prop.numbers ∧ prop.value.stringList = prop.strings := by
  obtain ⟨name, size, numbers, strings, hsize, hkind⟩ := prop
  cases numbers with
  | nil => cases strings <;> exact ⟨rfl, rfl⟩
  | cons number numbers =>
    obtain rfl : strings = [] := hkind.resolve_left (List.cons_ne_nil _ _)
    exact ⟨rfl, rfl⟩

theorem FdtProp.eq_of_value {prop prop' : FdtProp} (hname : prop.name = prop'.name)
    (hvalue : prop.value = prop'.value) : prop = prop' := by
  refine FdtProp.ext hname ?_ ?_
  · rw [← prop.lists_value.1, hvalue, prop'.lists_value.1]
  · rw [← prop.lists_value.2, hvalue, prop'.lists_value.2]

theorem FdtProp.Clear.value {prop : FdtProp} (h : prop.Clear) : prop.value.Clear := by
  obtain ⟨name, size, numbers, strings, hsize, hkind⟩ := prop
  cases numbers with
  | nil =>
    cases strings with
    | nil => trivial
    | cons string strings => exact List.forall_mem_cons.1 h.2
  | cons number numbers => trivial

/-- A line for a property is its name and its value. -/
theorem FdtProp.dump_eq (prop : FdtProp) (indent : Nat) :
    prop.dump indent = doindent indent ++ (prop.name ++ prop.value.text) := by
  obtain ⟨name, size, numbers, strings, hsize, hkind⟩ := prop
  cases numbers with
  | nil =>
    cases strings with
    | nil => simp only [dump, value, Value.text, List.append_nil, List.append_assoc]
    | cons string strings =>
      -- the loop closes each quote behind its string, `separated` in front of the next mark
      have hrotate := flatMap_rotate (fun s => str ", \"" ++ charsText s) (str "\"") strings
      have hmark : ∀ s, str "\"" ++ (str ", \"" ++ charsText s) = str "\", \"" ++ charsText s :=
        fun s => rfl
      have hstop : str "\";" = str "\"" ++ str ";" := rfl
      simp only [dump, value, Value.text, ← separated_eq, hstop, List.append_nil,
        List.append_assoc]
      simp only [List.append_assoc] at hrotate
      rw [← List.append_assoc (str "\"") (List.flatMap _ _), hrotate]
      simp only [hmark, List.append_assoc]
  | cons number numbers =>
    obtain rfl : strings = [] := hkind.resolve_left (List.cons_ne_nil _ _)
    simp only [dump, value, Value.text, ← separated_eq, hexText, List.append_nil,
      List.append_assoc]
    rfl

theorem Value.text_cons (v : Value) : ∃ ch rest, EndsName ch ∧ v.text = ch :: rest := by
  cases v with
  | empty => exact ⟨_, _, .inr rfl, rfl⟩
  | numbers number more => exact ⟨_, _, .inl rfl, rfl⟩
  | strings string more => exact ⟨_, _, .inl rfl, rfl⟩

theorem legible_prop {prop : FdtProp} (hprop : prop.Clear) (indent : Nat) :
    Legible FdtProp.Clear (fun prop => prop.dump indent) prop := by
  intro prop' r r' hprop' h
  simp only [FdtProp.dump_eq, List.append_assoc] at h
  rw [← List.append_assoc prop.name, ← List.append_assoc prop'.name] at h
  have hline := Legible.until hprop.1 (fun v _ => v.text_cons) hprop.value
    (legible_value hprop.value)
  obtain ⟨heq, rfl⟩ := hline (prop'.name, prop'.value) r r' ⟨hprop'.1, hprop'.value⟩
    (List.append_cancel_left h)
  obtain ⟨hname, hvalue⟩ := Prod.mk.inj heq
  exact ⟨FdtProp.eq_of_value hname hvalue, rfl⟩

/-! ## Nodes -/

namespace FdtNode

/-- The text of what is inside a node, property or child. -/
def lineText (indent : Nat) : FdtProp ⊕ FdtNode → Bytes :=
  Sum.elim (fun prop => prop.dump indent ++ str "\n") fun child => child.dump indent ++ str "\n"

/-- What is inside a node, in the order of the text. -/
def lines (t : FdtNode) : List (FdtProp ⊕ FdtNode) :=
  t.properties.map .inl ++ t.children.map .inr

theorem dumpChildren_eq (indent : Nat) (children : List FdtNode) :
    dumpChildren indent children =
      children.flatMap fun child => child.dump indent ++ str "\n" := by
  induction children with
  | nil => rfl
  | cons child children ih => rw [dumpChildren, ih, List.flatMap_cons]

theorem Clear.lines {t : FdtNode} (h : t.Clear) :
    ∀ line ∈ t.lines, Sum.elim FdtProp.Clear FdtNode.Clear line := by
  obtain ⟨name, properties, children⟩ := t
  rw [clear_mk] at h
  intro line hline
  rcases List.mem_append.1 hline with hline | hline
  · obtain ⟨prop, hprop, rfl⟩ := List.mem_map.1 hline
    exact h.1.2 prop hprop
  · obtain ⟨child, hchild, rfl⟩ := List.mem_map.1 hline
    exact h.2 child hchild

/-- A block for a node is its name and its lines. -/
theorem dump_eq (t : FdtNode) (indent : Nat) :
    t.dump indent = doindent indent ++ (t.name ++ (str " \x7b\n" ++
      (t.lines.flatMap (lineText (indent + 1)) ++ (doindent indent ++ str "\x7d;")))) := by
  obtain ⟨name, properties, children⟩ := t
  rw [dump, dumpChildren_eq, lines, List.flatMap_append, List.flatMap_map, List.flatMap_map]
  simp only [List.append_assoc]
  rfl

/-- How a block begins. -/
theorem dump_begin (t : FdtNode) (indent : Nat) :
    ∃ inside, t.dump indent = doindent indent ++ (t.name ++ (str " \x7b\n" ++ inside)) :=
  ⟨_, t.dump_eq indent⟩

theorem eq_of_lines {t u : FdtNode} (hname : t.name = u.name) (hlines : t.lines = u.lines) :
    t = u := by
  obtain ⟨name, properties, children⟩ := t
  obtain ⟨name', properties', children'⟩ := u
  obtain rfl : name = name' := hname
  have hproperties := congrArg (List.filterMap Sum.getLeft?) hlines
  have hchildren := congrArg (List.filterMap Sum.getRight?) hlines
  simp only [lines, FdtNode.properties, FdtNode.children, List.filterMap_append,
    List.filterMap_map, Function.comp_def] at hproperties hchildren
  rw [show properties = properties' by simpa using hproperties,
    show children = children' by simpa using hchildren]

/-- Neither of two lines begins with the other if one is a property and the other a node. -/
theorem apart_prop_node {prop : FdtProp} {child : FdtNode} (hprop : prop.Clear)
    (hchild : child.Clear) (indent : Nat) :
    Apart (prop.dump indent ++ str "\n") (child.dump indent ++ str "\n") := by
  have hbrace : Apart prop.value.text (str " \x7b\n") := by
    cases prop.value with
    | empty => exact apart_of_getElem? (i := 0) rfl rfl (by decide)
    | numbers number more => exact apart_of_getElem? (i := 1) rfl rfl (by decide)
    | strings string more => exact apart_of_getElem? (i := 1) rfl rfl (by decide)
  obtain ⟨inside, hinside⟩ := child.dump_begin indent
  obtain ⟨ch, rest, hch, hvalue⟩ := prop.value.text_cons
  intro r r' h
  rw [FdtProp.dump_eq, hinside] at h
  simp only [List.append_assoc] at h
  refine hbrace (str "\n" ++ r) (inside ++ (str "\n" ++ r')) ?_
  have hends := List.append_cancel_left h
  rw [hvalue] at hends ⊢
  exact (until_inj hprop.1 hchild.name hch (.inl rfl) hends).2

theorem doindent_succ (indent : Nat) : doindent (indent + 1) = doindent indent ++ str "    " := by
  induction indent with
  | zero => rfl
  | succ indent ih =>
    show str "    " ++ doindent (indent + 1) = str "    " ++ doindent indent ++ str "    "
    rw [ih, List.append_assoc]

/-- What is inside a node ends where the indentation does. -/
theorem apart_line_end (line : FdtProp ⊕ FdtNode) (indent : Nat) :
    Apart (lineText (indent + 1) line) (doindent indent ++ str "\x7d;") := by
  have hline : ∃ rest, lineText (indent + 1) line = doindent indent ++ (str "    " ++ rest) := by
    rcases line with prop | child
    · refine ⟨prop.name ++ (prop.value.text ++ str "\n"), ?_⟩
      show prop.dump (indent + 1) ++ str "\n" = _
      simp only [FdtProp.dump_eq, doindent_succ, List.append_assoc]
    · obtain ⟨inside, hinside⟩ := child.dump_begin (indent + 1)
      refine ⟨child.name ++ (str " \x7b\n" ++ (inside ++ str "\n")), ?_⟩
      show child.dump (indent + 1) ++ str "\n" = _
      simp only [hinside, doindent_succ, List.append_assoc]
  obtain ⟨rest, hrest⟩ := hline
  rw [hrest]
  exact Apart.append_left (apart_of_getElem? (i := 0) rfl rfl (by decide)) _

/-- The text of a tree, whatever comes behind it. -/
theorem legible_dump {t : FdtNode} (ht : t.Clear) (indent : Nat) :
    Legible FdtNode.Clear (fun t => t.dump indent) t := by
  induction t generalizing indent with
  | mk name properties children ih =>
    have hclear := ht
    rw [clear_mk] at hclear
    obtain ⟨⟨hname, hproperties⟩, hchildren⟩ := hclear
    -- children are indented once more, so the hypothesis is about every indentation
    have hlines : ∀ line ∈ (mk name properties children).lines,
        Legible (Sum.elim FdtProp.Clear FdtNode.Clear) (lineText (indent + 1)) line := by
      intro line hline
      rcases List.mem_append.1 hline with hline | hline
      · obtain ⟨prop, hprop, rfl⟩ := List.mem_map.1 hline
        have hprop := hproperties prop hprop
        refine Legible.inl ?_ fun child hchild => apart_prop_node hprop hchild _
        exact (legible_prop hprop (indent + 1)).append_right _
      · obtain ⟨child, hchild, rfl⟩ := List.mem_map.1 hline
        have hclear := hchildren child hchild
        refine Legible.inr ?_ fun prop hprop => apart_prop_node hprop hclear _
        exact (ih child hchild hclear (indent + 1)).append_right _
    intro u r r' hu h
    simp only [dump_eq, List.append_assoc] at h
    -- a name ends at the blank before its brace, so the lines begin at the same place
    obtain ⟨hsame, hbody⟩ := until_inj hname hu.name (.inl rfl) (.inl rfl)
      (List.append_cancel_left h)
    have hinside := Legible.flatMap (fun line hline => ⟨hlines line hline, ht.lines line hline⟩)
      fun line _ => apart_line_end line indent
    have hblock : str " \x7b\n" ++ _ = str " \x7b\n" ++ _ := hbody
    obtain ⟨heq, rfl⟩ := hinside u.lines r r' hu.lines
      (by simpa only [List.append_assoc] using List.append_cancel_left hblock)
    exact ⟨eq_of_lines hsame heq, rfl⟩

end FdtNode

/-- The text of a tree says which tree it is. -/
theorem dump_eq_iff {t u : FdtNode} (ht : t.Clear) (hu : u.Clear) (indent : Nat) (r r' : Bytes) :
    t.dump indent ++ r = u.dump indent ++ r' ↔ t = u ∧ r = r' := by
  constructor
  · exact FdtNode.legible_dump ht indent u r r' hu
  · rintro ⟨rfl, rfl⟩
    rfl

/-- A tree with a property of each kind. -/
def uartTree : FdtNode :=
  .mk (str "/") [.ofNumbers (str "reg") [1, 0x10000]]
    [.mk (str "uart") [.ofStrings (str "compatible") [str "ns16550", str "uart"], .named (str "on")]
      []]

theorem dump_eq_iff_uart :
    uartTree.Clear ∧ uartTree.dump 0 ++ [] ≠ (FdtNode.new (str "/")).dump 0 ++ [] := by
  have hclear : uartTree.Clear := by decide +kernel
  refine ⟨hclear, fun h => ?_⟩
  obtain ⟨heq, -⟩ := (dump_eq_iff hclear (by decide +kernel) 0 [] []).1 h
  exact absurd heq (by decide)

-- A name with a blank could be a name with a value.
example : (FdtProp.named (str "a = <0x1>")).dump 0 = (FdtProp.ofNumbers (str "a") [1]).dump 0 := by
  decide +kernel

end Mwr.Fdt
