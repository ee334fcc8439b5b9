import Mathlib.Algebra.Ring.Nat
import Mwr.CodeLib.Bytes
import Mwr.Core.Report

/-!
# The device tree compiler

A translation of `src/mwr/utils/fdt.cpp` and `include/mwr/utils/fdt.h`.

The writer and the reader of the source are abstract classes.  What a concrete
writer overrides is a `Sink`, and what a concrete reader overrides is a
`Source`, so the format is written down once for memory and for files.  A
`string` is a list of bytes.  `size_t` is a natural number, since no length
reaches `2 ^ 64`; `u32` and its casts wrap around.

The source selects the order of the bytes of a word at build time, with
`MWR_HOST_LITTLE_ENDIAN`.  This is the parameter `host`.

The loop of `traverse` has its bound in the source.  The loop of `read_string`
and the recursion of `traverse` have none there, and take the bound `fuel`
here; `fdtdecompile` passes a bound that no buffer of less than `2 ^ 32` bytes
exhausts.
-/

namespace Mwr.Fdt

open Mwr.CodeLib
open Mwr.CodeLib.Bytes

def FDT_MAGIC : UInt32 := 0xd00dfeed
def FDT_VERSION : UInt32 := 17
def FDT_COMPAT : UInt32 := 16
def FDT_BEGIN_NODE : UInt32 := 0x00000001
def FDT_END_NODE : UInt32 := 0x00000002
def FDT_PROP : UInt32 := 0x00000003
def FDT_NOP : UInt32 := 0x00000004
def FDT_END : UInt32 := 0x00000009

/-- Which of the two macros of the byte order the build defines. -/
inductive Host where
  | littleEndian
  | bigEndian
  deriving DecidableEq, Repr

/-! ## Trees -/

/-- `class fdtprop`.  No constructor fills both vectors, and `m_size` is the
length of the value. -/
structure FdtProp where
  name : Bytes
  size : Nat
  numbers : List UInt32
  strings : List Bytes
  size_eq : size = 4 * numbers.length + (strings.map fun s => s.length + 1).sum
  one_kind : numbers = [] ∨ strings = []
  deriving DecidableEq

namespace FdtProp

/-- The size follows from the other fields. -/
theorem ext {a b : FdtProp} (hname : a.name = b.name) (hnumbers : a.numbers = b.numbers)
    (hstrings : a.strings = b.strings) : a = b := by
  have hsize : a.size = b.size := by rw [a.size_eq, b.size_eq, hnumbers, hstrings]
  cases a
  cases b
  cases hname
  cases hnumbers
  cases hstrings
  cases hsize
  rfl

/-- `fdtprop(name)`. -/
def named (name : Bytes) : FdtProp where
  name := name
  size := 0
  numbers := []
  strings := []
  size_eq := rfl
  one_kind := .inl rfl

/-- `fdtprop(name, numbers)`. -/
def ofNumbers (name : Bytes) (numbers : List UInt32) : FdtProp where
  name := name
  size := numbers.length * 4
  numbers := numbers
  strings := []
  size_eq := Nat.mul_comm _ _
  one_kind := .inr rfl

/-- `for (const auto& str : m_strings) m_size += str.size() + 1;` -/
def stringsSize : List Bytes → Nat → Nat
  | [], size => size
  | str :: strs, size => stringsSize strs (size + (str.length + 1))

theorem stringsSize_eq (strs : List Bytes) (size : Nat) :
    stringsSize strs size = size + (strs.map fun s => s.length + 1).sum := by
  induction strs generalizing size with
  | nil => rfl
  | cons str strs ih => rw [stringsSize, ih, List.map_cons, List.sum_cons, Nat.add_assoc]

/-- `fdtprop(name, strings)`. -/
def ofStrings (name : Bytes) (strings : List Bytes) : FdtProp where
  name := name
  size := stringsSize strings 0
  numbers := []
  strings := strings
  size_eq := stringsSize_eq strings 0
  one_kind := .inl rfl

end FdtProp

/-- `class fdtnode`. -/
inductive FdtNode where
  | mk (name : Bytes) (properties : List FdtProp) (children : List FdtNode)

namespace FdtNode

def name : FdtNode → Bytes
  | mk name _ _ => name

def properties : FdtNode → List FdtProp
  | mk _ properties _ => properties

def children : FdtNode → List FdtNode
  | mk _ _ children => children

/-- `fdtnode(name)`. -/
def new (name : Bytes) : FdtNode := mk name [] []

def addProperty : FdtNode → FdtProp → FdtNode
  | mk name properties children, prop => mk name (properties ++ [prop]) children

mutual

/-- Equality of trees can be decided, so that runs on given trees can be checked. -/
def decEq : (t t' : FdtNode) → Decidable (t = t')
  | mk name props children, mk name' props' children' =>
    have := decEqChildren children children'
    decidable_of_iff (name = name' ∧ props = props' ∧ children = children')
      (by rw [mk.injEq])

def decEqChildren : (ts ts' : List FdtNode) → Decidable (ts = ts')
  | [], [] => isTrue rfl
  | [], _ :: _ => isFalse (List.cons_ne_nil _ _).symm
  | _ :: _, [] => isFalse (List.cons_ne_nil _ _)
  | t :: ts, t' :: ts' =>
    have := decEq t t'
    have := decEqChildren ts ts'
    decidable_of_iff (t = t' ∧ ts = ts') (by rw [List.cons.injEq])

end

instance : DecidableEq FdtNode := decEq

/-- `add_child`, with what the caller then does to the child. -/
def addChild : FdtNode → FdtNode → FdtNode
  | mk name properties children, child => mk name properties (children ++ [child])

end FdtNode

/-! ## Loops -/

/-- `while (len % 4) { act; len++; }`, which runs at most three times.  The
result is the last value of `len`. -/
def alignLoop {σ : Type} (act : StateT σ (Except Fault) Unit) :
    Nat → Nat → StateT σ (Except Fault) Nat
  | 0, _ => throw .fuel
  | fuel + 1, len => do
    if len % 4 = 0 then
      return len
    act
    alignLoop act fuel (len + 1)

/-- `for (const auto& x : xs) len += act(x);` -/
def sumLoop {α σ : Type} (act : α → StateT σ (Except Fault) Nat) :
    List α → Nat → StateT σ (Except Fault) Nat
  | [], len => return len
  | x :: xs, len => do
    let n ← act x
    sumLoop act xs (len + n)

/-! ## The writer -/

/-- What a subclass of `fdtwriter` overrides. -/
structure Sink (δ : Type) where
  seek : UInt32 → δ → Except Fault δ
  putc : UInt8 → δ → Except Fault δ

/-- The field `m_strings` of `fdtwriter`, and the state of the subclass. -/
structure Writer (δ : Type) where
  strings : List Bytes
  dev : δ

/-- A computation on one writer. -/
abbrev Write (δ α : Type) := StateT (Writer δ) (Except Fault) α

section Writer

variable {δ : Type} (host : Host) (sink : Sink δ)

def writeSeek (offset : UInt32) : Write δ Unit := do
  let w ← get
  let dev ← sink.seek offset w.dev
  set { w with dev := dev }

def putc (byte : UInt8) : Write δ Unit := do
  let w ← get
  let dev ← sink.putc byte w.dev
  set { w with dev := dev }

/-- `write(u32 data)`. -/
def writeWord (data : UInt32) : Write δ Nat := do
  match host with
  | .littleEndian =>
    putc sink (data >>> 24).toUInt8
    putc sink (data >>> 16).toUInt8
    putc sink (data >>> 8).toUInt8
    putc sink (data >>> 0).toUInt8
  | .bigEndian =>
    putc sink (data >>> 0).toUInt8
    putc sink (data >>> 8).toUInt8
    putc sink (data >>> 16).toUInt8
    putc sink (data >>> 24).toUInt8
  return 4

/-- The loop of `strtab` over the names that are already in the table. -/
def strtabLoop (s : Bytes) : List Bytes → UInt32 → Write δ Nat
  | [], off => do
    modify fun w => { w with strings := w.strings ++ [s] }
    writeWord host sink off
  | str :: strs, off => do
    if str = s then
      return ← writeWord host sink off
    strtabLoop s strs (off + (UInt32.ofNat str.length + 1))

def strtab (s : Bytes) : Write δ Nat := do
  let w ← get
  strtabLoop host sink s w.strings 0

def writePadding (curlen : Nat) : Write δ Nat := do
  let len ← alignLoop (putc sink 0) 4 curlen
  return len - curlen

/-- `for (u8 ch : s) putc(ch);` -/
def putChars : Bytes → Write δ Unit
  | [] => return
  | ch :: s => do
    putc sink ch
    putChars s

/-- `write(const string& s)`. -/
def writeString (s : Bytes) : Write δ Nat := do
  putChars sink s
  putc sink 0
  return s.length + 1

/-- `write(const fdtprop& prop)`. -/
def writeProp (prop : FdtProp) : Write δ Nat := do
  let len ← sumLoop (writeWord host sink) [FDT_PROP, UInt32.ofNat prop.size] 0
  let n ← strtab host sink prop.name
  let len ← sumLoop (writeWord host sink) prop.numbers (len + n)
  let len ← sumLoop (writeString sink) prop.strings len
  let n ← writePadding sink len
  return len + n

mutual

/-- `write(const fdtnode& node)`. -/
def writeNode : FdtNode → Write δ Nat
  | .mk name properties children => do
    let len ← writeWord host sink FDT_BEGIN_NODE
    let n ← writeString sink (if name = str "/" then [] else name)
    let len := len + n
    let n ← writePadding sink len
    let len ← sumLoop (writeProp host sink) properties (len + n)
    let len ← writeChildren children len
    let n ← writeWord host sink FDT_END_NODE
    return len + n

/-- The loop of `write(const fdtnode& node)` over the children. -/
def writeChildren : List FdtNode → Nat → Write δ Nat
  | [], len => return len
  | child :: children, len => do
    let n ← writeNode child
    writeChildren children (len + n)

end

def writeHeader : Write δ Nat :=
  sumLoop (writeWord host sink)
    [FDT_MAGIC,
     0,           -- totalsize
     56,          -- off_dt_struct
     0,           -- off_dt_strings
     40,          -- off_mem_rsvmap
     FDT_VERSION, -- version
     FDT_COMPAT,  -- last_comp_version
     0,           -- phys cpu id
     0,           -- size_dt_strings
     0,           -- size_dt_struct
     0,           -- res addr lo
     0,           -- res addr hi
     0,           -- res size lo
     0]           -- res size hi
    0

def finalizeHeader (totalSize structSize stringSize stringOff : Nat) : Write δ Unit := do
  writeSeek sink 0x04
  let _ ← writeWord host sink (UInt32.ofNat totalSize)
  writeSeek sink 0x0c
  let _ ← writeWord host sink (UInt32.ofNat stringOff)
  writeSeek sink 0x20
  let _ ← writeWord host sink (UInt32.ofNat stringSize)
  writeSeek sink 0x24
  let _ ← writeWord host sink (UInt32.ofNat structSize)

def writeStrings : Write δ Nat := do
  let w ← get
  let len ← sumLoop (writeString sink) w.strings 0
  alignLoop (putc sink 0) 4 len

def compile (root : FdtNode) : Write δ Unit := do
  let headerSize ← writeHeader host sink
  let structSize ← writeNode host sink root
  let n ← writeWord host sink FDT_END
  let structSize := structSize + n
  let stringSize ← writeStrings sink
  finalizeHeader host sink (headerSize + structSize + stringSize) structSize stringSize
    (headerSize + structSize)

end Writer

/-- The buffer of `fdtwriter_mem` and the position of `m_ptr` in it. -/
structure MemWriter where
  buf : Bytes
  ptr : Nat

/-- `class fdtwriter_mem`. -/
def memSink : Sink MemWriter where
  seek := fun offset dev =>
    if offset.toNat ≥ dev.buf.length then
      throw (.report "writing beyond end of buffer")
    else
      return { dev with ptr := offset.toNat }
  putc := fun byte dev =>
    if dev.ptr ≥ dev.buf.length then
      throw (.report "writing beyond end of buffer")
    else
      return { buf := dev.buf.set dev.ptr byte, ptr := dev.ptr + 1 }

/-- `fdtcompile(root, buffer, buflen)`: the content of the buffer afterwards. -/
def fdtcompile (host : Host) (root : FdtNode) (buffer : Bytes) : Except Fault Bytes := do
  let (_, w) ← (compile host memSink root).run ⟨[], ⟨buffer, 0⟩⟩
  return w.dev.buf

/-! ## The reader -/

/-- `name.find(word) != name.npos`. -/
def contains (name word : Bytes) : Bool := name.tails.any fun rest => word.isPrefixOf rest

def isStrProperty (name : Bytes) : Bool :=
  let keywords := [
    str "compatible", str "aliases", str "stdout-path", str "bootargs",
    str "choosen", str "device-type", str "status", str "interrupt-names"]
  keywords.any (fun key => name == key) || contains name (str "name")

def isIntProperty (name : Bytes) : Bool :=
  let keywords := [
    str "reg", str "interrupts", str "interrupt-parent",
    str "interrupt-map", str "iommu-map", str "phandle"]
  keywords.any (fun key => name == key) ||
    contains name (str "cells") || contains name (str "range")

/-- `isprint(ch)` in the C locale. -/
def isprint (ch : UInt8) : Bool := 0x20 ≤ ch && ch ≤ 0x7e

/-- The text of a word in the format `0x%08x`. -/
def hex8 (x : UInt32) : String :=
  let digits := Nat.toDigits 16 x.toNat
  "0x" ++ String.ofList (List.replicate (8 - digits.length) '0' ++ digits)

/-- What a subclass of `fdtreader` overrides. -/
structure Source (σ : Type) where
  getc : StateT σ (Except Fault) UInt8
  seek : UInt32 → StateT σ (Except Fault) UInt32

/-- A computation on one reader. -/
abbrev Read (σ α : Type) := StateT σ (Except Fault) α

section Reader

variable {σ : Type} (host : Host) (src : Source σ)

def read : Read σ UInt32 := do
  let a ← src.getc
  let b ← src.getc
  let c ← src.getc
  let d ← src.getc
  match host with
  | .littleEndian =>
    return a.toUInt32 <<< 24 ||| b.toUInt32 <<< 16 ||| c.toUInt32 <<< 8 ||| d.toUInt32
  | .bigEndian =>
    return d.toUInt32 <<< 24 ||| c.toUInt32 <<< 16 ||| b.toUInt32 <<< 8 ||| a.toUInt32

/-- `ch = getc(); while (ch != 0) { s.push_back(ch); ch = getc(); }` -/
def readStringLoop : Nat → Bytes → Read σ Bytes
  | 0, _ => throw .fuel
  | fuel + 1, s => do
    let ch ← src.getc
    if ch = 0 then
      return s
    readStringLoop fuel (s ++ [ch])

def readString (fuel : Nat) (align : Bool) : Read σ Bytes := do
  let s ← readStringLoop src fuel []
  if align then
    let _ ← alignLoop (do let _ ← src.getc) 4 (s.length + 1)
  return s

def readStrtab (fuel : Nat) (offset : UInt32) : Read σ Bytes := do
  let curoff ← src.seek 12
  let dtoff ← read host src
  let _ ← src.seek (dtoff + offset)
  let s ← readString src fuel false
  let _ ← src.seek curoff
  return s

/-- `for (u32 i = 0; i < len; i += 4) data.push_back(read());`, with the number
of rounds that are left. -/
def readIntLoop : Nat → List UInt32 → Read σ (List UInt32)
  | 0, data => return data
  | n + 1, data => do
    let x ← read host src
    readIntLoop n (data ++ [x])

def readIntData (len : UInt32) : Read σ (Option (List UInt32)) := do
  if len.toNat % 4 ≠ 0 then
    return none
  let data ← readIntLoop host src (len.toNat / 4) []
  return some data

/-- The loop of `read_str_data`, with the number of bytes that are left.  The
result is `none` when the loop returns from the function. -/
def readStrLoop (curoff : UInt32) :
    Nat → List Bytes → Bytes → Read σ (Option (List Bytes × Bytes))
  | 0, result, s => return some (result, s)
  | n + 1, result, s => do
    let ch ← src.getc
    if ch = 0 then
      readStrLoop curoff n (result ++ [s]) []
    else if isprint ch then
      readStrLoop curoff n result (s ++ [ch])
    else
      let _ ← src.seek curoff
      return none

def readStrData (len : UInt32) : Read σ (Option (List Bytes)) := do
  let curoff ← src.seek 0
  let _ ← src.seek curoff
  match ← readStrLoop src curoff len.toNat [] [] with
  | none => return none
  | some (result, s) =>
    if s ≠ [] then
      let _ ← src.seek curoff
      return none
    let _ ← alignLoop (do let _ ← src.getc) 4 len.toNat
    return some result

/-- `if (auto v = m) { parent.add_property(new fdtprop(name, *v)); break; }`, and
then `next`. -/
def attempt {α : Type} (m : Read σ (Option α)) (make : α → FdtProp) (next : Read σ FdtProp) :
    Read σ FdtProp := do
  match ← m with
  | some v => return make v
  | none => next

/-- The attempts of the case `FDT_PROP` at a value of `len` bytes. -/
def readValue (name : Bytes) (len : UInt32) : Read σ FdtProp :=
  let tryInt := attempt (readIntData host src len) (.ofNumbers name)
  let tryStr := attempt (readStrData src len) (.ofStrings name)
  -- unknown property type, try string first, then int
  let unknown := tryStr (tryInt (throw (.report s!"error reading property '{text name}'")))
  let strFirst := if isStrProperty name then tryStr unknown else unknown
  if isIntProperty name then tryInt strFirst else strFirst

/-- The case `FDT_PROP` of `traverse`: the property that it adds. -/
def readProp (fuel : Nat) : Read σ FdtProp := do
  let len ← read host src
  let nameoff ← read host src
  let name ← readStrtab host src fuel nameoff
  readValue host src name len

/-- The loop of `traverse`, with the number of rounds that are left and the
call of `traverse` for a child. -/
def traverseLoop (fuel : Nat) (visit : FdtNode → Read σ FdtNode) :
    Nat → FdtNode → Read σ FdtNode
  | 0, parent => return parent
  | rounds + 1, parent => do
    let token ← read host src
    if token = FDT_BEGIN_NODE then
      let name ← readString src fuel true
      let child ← visit (.new name)
      traverseLoop fuel visit rounds (parent.addChild child)
    else if token = FDT_PROP then
      let prop ← readProp host src fuel
      traverseLoop fuel visit rounds (parent.addProperty prop)
    else if token = FDT_NOP then
      traverseLoop fuel visit rounds parent
    else if token = FDT_END_NODE then
      return parent
    else
      throw (.report s!"invalid fdt token: {hex8 token}")

/-- `traverse`, with a bound on the depth of the recursion.  The result is the
node that `parent` refers to. -/
def traverse (fuel : Nat) : Nat → FdtNode → Read σ FdtNode
  | 0, _ => throw .fuel
  | depth + 1, parent => traverseLoop host src fuel (traverse fuel depth) 1000000 parent

def decompile (fuel : Nat) : Read σ FdtNode := do
  let magic ← read host src
  reportOn (magic ≠ FDT_MAGIC) s!"invalid fdt header: {hex8 magic}"
  let _ ← src.seek 24
  let compat ← read host src
  reportOn (compat ≠ FDT_COMPAT) s!"fdt version unsupported: {compat}"
  let _ ← src.seek 8
  let offset ← read host src
  let _ ← src.seek offset
  let token ← read host src
  reportOn (token ≠ FDT_BEGIN_NODE) s!"invalid start token: {hex8 token}"
  let name ← readString src fuel true
  let root ← traverse host src fuel fuel (.new (if name = [] then str "/" else name))
  let token ← read host src
  reportOn (token ≠ FDT_END) s!"invalid end-of-file token: {hex8 token}"
  return root

end Reader

/-- `class fdtreader_mem` on a buffer.  The state is the position of `m_ptr`. -/
def memSource (buffer : Bytes) : Source Nat where
  getc := do
    let ptr ← get
    match buffer[ptr]? with
    | none => throw (.report "reading beyond end of buffer")
    | some byte =>
      set (ptr + 1)
      return byte
  seek := fun offset => do
    let curoff ← get
    if offset.toNat ≥ buffer.length then
      throw (.report "seeking beyond end of buffer")
    set offset.toNat
    return UInt32.ofNat curoff

/-- `fdtdecompile(buffer, buflen)`. -/
def fdtdecompile (host : Host) (buffer : Bytes) : Except Fault FdtNode := do
  let (root, _) ← (decompile host (memSource buffer) (buffer.length + 1)).run 0
  return root

end Mwr.Fdt
