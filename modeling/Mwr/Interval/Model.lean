import Mathlib.Logic.Function.Basic
import Mwr.Core.Report

/-!
# The interval tree

A translation of `include/mwr/utils/interval.h`.  The nodes live in a heap, a
partial map from addresses to nodes, and a pointer is an `Option Addr` with
`none` for `nullptr`.  A reference `ivtnode*&` is a `Ref`: the root field of
the tree object, or the `left` or `right` field of a node.

Every function keeps the order of the reads and the writes of the source.  A
dereference of a null or dangling pointer is `Fault.segfault`.  The loops and
the recursions take a bound; the methods pass the number of nodes, which is
enough for every tree the program can build.

`lo`, `hi`, `min` and `max` are the `u64` of the source.  `height` and `size`
are natural numbers, since a tree never reaches `2 ^ 63` levels or nodes.
-/

namespace Mwr.Interval

/-- The address of a node. -/
abbrev Addr := Nat

/-- `struct ivtnode`. -/
structure IvtNode (T : Type) where
  lo : UInt64
  hi : UInt64
  min : UInt64
  max : UInt64
  height : Nat
  parent : Option Addr
  left : Option Addr
  right : Option Addr
  data : T
  deriving DecidableEq, Repr

/-- The constructor of `ivtnode`. -/
def IvtNode.new {T : Type} (start stop : UInt64) (item : T) : IvtNode T where
  lo := start
  hi := stop
  min := start
  max := stop
  height := 1
  parent := none
  left := none
  right := none
  data := item

/-- The state of a call on one tree object: the fields `m_root` and `m_size`
of the object, and the heap. -/
structure Store (T : Type) where
  root : Option Addr
  size : Nat
  cells : Addr → Option (IvtNode T)

/-- A computation on one tree object. -/
abbrev Op (T : Type) := StateT (Store T) (Except Fault)

/-- `ivtnode*&`: a place that holds a pointer. -/
inductive Ref where
  | rootField
  | leftField (node : Option Addr)
  | rightField (node : Option Addr)
  deriving DecidableEq, Repr

variable {T : Type}

/-! ## The heap -/

/-- The state with the node at `a` replaced. -/
def Store.put (s : Store T) (a : Addr) (n : IvtNode T) : Store T :=
  { s with cells := Function.update s.cells a (some n) }

/-- Read `*p`. -/
def deref (p : Option Addr) : Op T (IvtNode T) := do
  let s ← get
  match p.bind s.cells with
  | some n => pure n
  | none => throw .segfault

/-- Write to `*p`. -/
def assign (p : Option Addr) (f : IvtNode T → IvtNode T) : Op T Unit := do
  let n ← deref p
  match p with
  | some a => modify fun s => s.put a (f n)
  | none => throw .segfault

/-- `new ivtnode(...)` at the address that the allocator picks, which is not
in use. -/
def alloc (a : Addr) (n : IvtNode T) : Op T Unit := do
  let s ← get
  match s.cells a with
  | none => set (s.put a n)
  | some _ => throw .segfault

/-- `delete p`. -/
def free (p : Option Addr) : Op T Unit := do
  let _ ← deref p
  match p with
  | some a => modify fun s => { s with cells := Function.update s.cells a none }
  | none => throw .segfault

/-- Read a reference. -/
def Ref.get : Ref → Op T (Option Addr)
  | .rootField => do return (← MonadState.get).root
  | .leftField p => do return (← deref p).left
  | .rightField p => do return (← deref p).right

/-- Write a reference. -/
def Ref.set (p : Option Addr) : Ref → Op T Unit
  | .rootField => modify fun s => { s with root := p }
  | .leftField q => assign q fun n => { n with left := p }
  | .rightField q => assign q fun n => { n with right := p }

/-! ## The derived fields -/

/-- `if (p && p->min < min) min = p->min;` -/
def lowerMin (p : Option Addr) (min : UInt64) : Op T UInt64 := do
  if p.isNone then
    return min
  let n ← deref p
  return if n.min < min then n.min else min

/-- `if (p && p->max > max) max = p->max;` -/
def raiseMax (p : Option Addr) (max : UInt64) : Op T UInt64 := do
  if p.isNone then
    return max
  let n ← deref p
  return if n.max > max then n.max else max

def ivtMin (node : Option Addr) : Op T UInt64 := do
  let n ← deref node
  let min ← lowerMin n.left n.lo
  lowerMin n.right min

def ivtMax (node : Option Addr) : Op T UInt64 := do
  let n ← deref node
  let max ← raiseMax n.left n.hi
  raiseMax n.right max

/-- `p ? p->height : 0`. -/
def heightOrZero (p : Option Addr) : Op T Nat := do
  if p.isNone then
    return 0
  return (← deref p).height

def ivtHeight (node : Option Addr) : Op T Nat := do
  if node.isNone then
    return 0
  let lh ← heightOrZero (← deref node).left
  let rh ← heightOrZero (← deref node).right
  return 1 + max lh rh

def ivtBalance (node : Option Addr) : Op T Int := do
  if node.isNone then
    return 0
  let lh ← heightOrZero (← deref node).left
  let rh ← heightOrZero (← deref node).right
  return (lh : Int) - (rh : Int)

def ivtRefresh (node : Option Addr) : Op T Unit := do
  if node.isSome then
    let height ← ivtHeight node
    assign node fun n => { n with height := height }
    let min ← ivtMin node
    assign node fun n => { n with min := min }
    let max ← ivtMax node
    assign node fun n => { n with max := max }

/-! ## Walking along the order -/

def ivtIsLeft (node : Option Addr) : Op T Bool := do
  return node == (← deref (← deref node).parent).left

def ivtIsRight (node : Option Addr) : Op T Bool := do
  return node == (← deref (← deref node).parent).right

/-- `while (node && node->left) node = node->left;` -/
def ivtFirst : Nat → Option Addr → Op T (Option Addr)
  | 0, _ => throw .fuel
  | fuel + 1, node => do
    if node.isNone then
      return node
    let n ← deref node
    if n.left.isNone then
      return node
    ivtFirst fuel n.left

/-- `while (node && node->right) node = node->right;` -/
def ivtLast : Nat → Option Addr → Op T (Option Addr)
  | 0, _ => throw .fuel
  | fuel + 1, node => do
    if node.isNone then
      return node
    let n ← deref node
    if n.right.isNone then
      return node
    ivtLast fuel n.right

/-- `while (node->parent && ivt_is_right(node)) node = node->parent;`, and the
parent of the node where the walk ends. -/
def climbRight : Nat → Option Addr → Op T (Option Addr)
  | 0, _ => throw .fuel
  | fuel + 1, node => do
    let n ← deref node
    if n.parent.isNone then
      return n.parent
    if ← ivtIsRight node then
      climbRight fuel n.parent
    else
      return n.parent

/-- `while (node->parent && ivt_is_left(node)) node = node->parent;`, and the
parent of the node where the walk ends. -/
def climbLeft : Nat → Option Addr → Op T (Option Addr)
  | 0, _ => throw .fuel
  | fuel + 1, node => do
    let n ← deref node
    if n.parent.isNone then
      return n.parent
    if ← ivtIsLeft node then
      climbLeft fuel n.parent
    else
      return n.parent

def ivtNext (fuel : Nat) (node : Option Addr) : Op T (Option Addr) := do
  if node.isNone then
    return none
  let n ← deref node
  if n.right.isSome then
    ivtFirst fuel n.right
  else
    climbRight fuel node

def ivtPrev (fuel : Nat) (node : Option Addr) : Op T (Option Addr) := do
  if node.isNone then
    return none
  let n ← deref node
  if n.left.isSome then
    ivtLast fuel n.left
  else
    climbLeft fuel node

/-! ## Relinking -/

/-- The place that points to `node`. -/
def ivtRef (root : Ref) (node : Option Addr) : Op T Ref := do
  let n ← deref node
  if n.parent.isNone then
    return root
  if node == (← deref n.parent).left then
    return .leftField n.parent
  return .rightField n.parent

def ivtTransplant (root : Ref) (node parent : Option Addr) : Op T Unit := do
  root.set node
  if node.isSome then
    assign node fun n => { n with parent := parent }

def ivtRotateLeft (root : Ref) : Op T Unit := do
  let oldroot ← root.get
  let newroot := (← deref oldroot).right
  let subtree := (← deref newroot).left
  ivtTransplant root newroot (← deref (← root.get)).parent
  ivtTransplant (.leftField newroot) oldroot newroot
  ivtTransplant (.rightField oldroot) subtree oldroot
  ivtRefresh oldroot
  ivtRefresh newroot

def ivtRotateRight (root : Ref) : Op T Unit := do
  let oldroot ← root.get
  let newroot := (← deref oldroot).left
  let subtree := (← deref newroot).right
  ivtTransplant root newroot (← deref (← root.get)).parent
  ivtTransplant (.rightField newroot) oldroot newroot
  ivtTransplant (.leftField oldroot) subtree oldroot
  ivtRefresh oldroot
  ivtRefresh newroot

def ivtRotateLeftRight (node : Ref) : Op T Unit := do
  ivtRotateLeft (.leftField (← node.get))
  ivtRotateRight node

def ivtRotateRightLeft (node : Ref) : Op T Unit := do
  ivtRotateRight (.rightField (← node.get))
  ivtRotateLeft node

def ivtRebalance (node : Ref) : Op T Unit := do
  if (← node.get).isNone then
    return
  ivtRefresh (← node.get)
  let balance ← ivtBalance (← node.get)
  if balance > 1 then
    if (← ivtBalance (← deref (← node.get)).left) < 0 then
      ivtRotateLeftRight node
    else
      ivtRotateRight node
  if balance < -1 then
    if (← ivtBalance (← deref (← node.get)).right) > 0 then
      ivtRotateRightLeft node
    else
      ivtRotateLeft node

/-! ## Insertion and removal -/

def ivtInsert : Nat → Ref → Option Addr → Option Addr → Op T Unit
  | 0, _, _, _ => throw .fuel
  | fuel + 1, root, node, parent => do
    if node.isNone then
      return
    if (← root.get).isNone then
      assign node fun n => { n with parent := parent }
      root.set node
      return
    if (← deref node).lo ≤ (← deref (← root.get)).lo then
      ivtInsert fuel (.leftField (← root.get)) node (← root.get)
    else
      ivtInsert fuel (.rightField (← root.get)) node (← root.get)
    ivtRebalance root

/-- `while (rebalance) { ... }`: rebalance every node from `rebalance` up. -/
def rebalanceUp : Nat → Ref → Option Addr → Op T Unit
  | 0, _, _ => throw .fuel
  | fuel + 1, root, rebalance => do
    if rebalance.isNone then
      return
    let parent := (← deref rebalance).parent
    ivtRebalance (← ivtRef root rebalance)
    rebalanceUp fuel root parent

/-- The branch of `ivt_remove` for a predecessor `prev` that is not the left
child of `node`: `prev` leaves its place, and takes the left subtree of `node`. -/
def detachPrev (root : Ref) (node prev : Option Addr) : Op T (Option Addr) := do
  let rebalance := (← deref prev).parent
  ivtTransplant (← ivtRef root prev) (← deref prev).left (← deref prev).parent
  let left := (← deref node).left
  assign prev fun p => { p with left := left }
  assign (← deref prev).left fun l => { l with parent := prev }
  return rebalance

/-- The last part of `ivt_remove` for a node with two subtrees: `prev` takes the
place and the right subtree of `node`. -/
def takePlace (root : Ref) (node prev : Option Addr) : Op T Unit := do
  ivtTransplant (← ivtRef root node) prev (← deref node).parent
  let right := (← deref node).right
  assign prev fun p => { p with right := right }
  let right := (← deref prev).right
  if right.isSome then
    assign right fun r => { r with parent := prev }

/-- The part of `ivt_remove` that unlinks `node`.  The result is the node at
which the rebalancing starts. -/
def unlink (fuel : Nat) (root : Ref) (node : Option Addr) : Op T (Option Addr) := do
  let n ← deref node
  if n.left.isNone then
    ivtTransplant (← ivtRef root node) n.right n.parent
    return n.parent
  if n.right.isNone then
    ivtTransplant (← ivtRef root node) n.left n.parent
    return n.parent
  let prev ← ivtPrev fuel node
  let rebalance ← if prev != n.left then detachPrev root node prev else pure prev
  takePlace root node prev
  return rebalance

def ivtRemove (fuel : Nat) (root : Ref) (node : Option Addr) : Op T Unit := do
  if node.isNone then
    return
  let rebalance ← unlink fuel root node
  rebalanceUp fuel root rebalance

def ivtClear : Nat → Ref → Op T Unit
  | 0, _ => throw .fuel
  | fuel + 1, root => do
    if (← root.get).isNone then
      return
    ivtClear fuel (.leftField (← root.get))
    ivtClear fuel (.rightField (← root.get))
    free (← root.get)
    root.set none

/-! ## Queries -/

/-- Two closed intervals have a common point. -/
def overlaps (s0 e0 s1 e1 : UInt64) : Bool := s0 ≤ e1 && s1 ≤ e0

def ivtOverlaps : Nat → Option Addr → UInt64 → UInt64 → Op T Bool
  | 0, _, _, _ => throw .fuel
  | fuel + 1, node, start, stop => do
    if node.isNone then
      return false
    let n ← deref node
    if !overlaps n.min n.max start stop then
      return false
    if overlaps n.lo n.hi start stop then
      return true
    if ← ivtOverlaps fuel n.left start stop then
      return true
    ivtOverlaps fuel n.right start stop

/-- The callback of `for_each`.  It gets the interval and the iterator, reads
the data behind the iterator and a state that it captures by reference, and may
write both. -/
abbrev Callback (T σ : Type) := UInt64 → UInt64 → Addr → T → σ → T × σ

def ivtForEach {σ : Type} (start stop : UInt64) (fn : Callback T σ) :
    Nat → Option Addr → σ → Op T σ
  | 0, _, _ => throw .fuel
  | fuel + 1, node, acc => do
    match node with
    | none => return acc
    | some a =>
      let n ← deref node
      if !overlaps n.min n.max start stop then
        return acc
      let acc ← if overlaps n.lo n.hi start stop then do
          let (data, acc) := fn n.lo n.hi a n.data acc
          assign node fun n => { n with data := data }
          pure acc
        else pure acc
      let acc ← ivtForEach start stop fn fuel (← deref node).left acc
      ivtForEach start stop fn fuel (← deref node).right acc

/-- `ivt_validate`, with the counter that it increments as its result. -/
def ivtValidate : Nat → Option Addr → Option Addr → Nat → Op T Nat
  | 0, _, _, _ => throw .fuel
  | fuel + 1, node, parent, count => do
    if node.isNone then
      return count
    let n ← deref node
    let count ← ivtValidate fuel n.left node count
    let count ← ivtValidate fuel n.right node count
    if n.parent != parent then
      throw (.error "node parent pointer corrupted")
    if n.min != (← ivtMin node) then
      throw (.error "node minimum corrupted")
    if n.max != (← ivtMax node) then
      throw (.error "node maximum corrupted")
    let balance ← ivtBalance node
    if balance < -1 || balance > 1 then
      throw (.error "node is imbalanced")
    return count + 1

/-! ## The methods of `interval_tree` -/

/-- The bound that the methods put on loops and recursions. -/
def Store.bound (s : Store T) : Nat := s.size + 1

/-- `MWR_ERROR_ON(end < start, "invalid interval %llu..%llu", start, end)`. -/
def checkInterval (start stop : UInt64) : Op T Unit := do
  if stop < start then
    throw (.error s!"invalid interval {start}..{stop}")

def clear : Op T Unit := do
  ivtClear (← get).bound .rootField
  modify fun s => { s with size := 0 }

/-- `insert`, with the address at which the allocator puts the new node. -/
def insert (a : Addr) (start stop : UInt64) (data : T) : Op T (Option Addr) := do
  checkInterval start stop
  alloc a (IvtNode.new start stop data)
  ivtInsert (← get).bound .rootField (some a) none
  modify fun s => { s with size := s.size + 1 }
  return some a

def remove (it : Option Addr) : Op T Bool := do
  if it.isNone then
    return false
  ivtRemove (← get).bound .rootField it
  free it
  modify fun s => { s with size := s.size - 1 }
  return true

/-- `overlaps(start, end)`. -/
def overlapsAny (start stop : UInt64) : Op T Bool := do
  checkInterval start stop
  ivtOverlaps (← get).bound (← get).root start stop

def forEach {σ : Type} (start stop : UInt64) (fn : Callback T σ) (acc : σ) : Op T σ := do
  checkInterval start stop
  ivtForEach start stop fn (← get).bound (← get).root acc

/-- `find_overlaps`: the callback appends the iterator to the result. -/
def findOverlaps (start stop : UInt64) : Op T (List Addr) := do
  checkInterval start stop
  forEach start stop (fun _ _ it data result => (data, result ++ [it])) []

def validate : Op T Unit := do
  let count ← ivtValidate (← get).bound (← get).root none 0
  if count != (← get).size then
    throw (.error "tree size corrupted")

end Mwr.Interval
