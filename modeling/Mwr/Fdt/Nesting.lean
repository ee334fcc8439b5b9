import Mwr.Fdt.FileReader

/-!
# Where a node ends

The loop of `traverse` leaves its node at the token that ends the node, and after a
million rounds without one.

* `Scans` is a sequence of tokens, read one after the other and without regard to nodes;
  `Block` is the one of a whole input.
* `Leaves` is how the invocations of `traverse` share the tokens, and how many of them
  leave at the bound (`traverse_leaves`).  Each of those saves an end (`Leaves.balance`).
* `Fills` is how the tokens nest.  The tree is the one that they enclose if no invocation
  leaves at the bound (`Leaves.fills`).
-/

namespace Mwr.Fdt

open Mwr.CodeLib
open Mwr.CodeLib.Bytes
open Mwr.CodeLib.Exec

/-! ## Tokens -/

/-- A token in the structure block, with what belongs to it. -/
inductive Tok where
  | beginNode (name : Bytes)
  | prop (prop : FdtProp)
  | nop
  | endNode

def Tok.isBegin : Tok → Bool
  | .beginNode _ => true
  | _ => false

def Tok.isEnd : Tok → Bool
  | .endNode => true
  | _ => false

section Tokens

variable {σ : Type} (host : Host) (src : Source σ) (fuel : Nat)

/-- Read the next token, which is `none` at the end of the block. -/
def takeTok : Read σ (Option Tok) := do
  let token ← read host src
  if token = FDT_BEGIN_NODE then
    let name ← readString src fuel true
    return some (.beginNode name)
  else if token = FDT_PROP then
    let prop ← readProp host src fuel
    return some (.prop prop)
  else if token = FDT_NOP then
    return some .nop
  else if token = FDT_END_NODE then
    return some .endNode
  else if token = FDT_END then
    return none
  else
    throw (.report s!"invalid fdt token: {hex8 token}")

/-- The tokens stand between the two states of the source. -/
inductive Scans : σ → List Tok → σ → Prop
  | nil (s : σ) : Scans s [] s
  | cons {s s₁ s' : σ} {tok : Tok} {toks : List Tok} :
      (takeTok host src fuel).run s = .ok (some tok, s₁) → Scans s₁ toks s' →
      Scans s (tok :: toks) s'

/-- `decompile` up to the call of `traverse`: the root without what is in it. -/
def openRoot : Read σ FdtNode := do
  let magic ← read host src
  reportOn (magic ≠ FDT_MAGIC) s!"invalid fdt header: {hex8 magic}"
  let _ ← src.seek 24
  let compat ← read host src
  reportOn (compat ≠ FDT_COMPAT) s!"fdt version unsupported: {compat}"
  let _ ← src.seek 8
  let offset ← read host src
  let _ ← src.seek offset
  let token ← read host src
  reportOn (token ≠ FDT_BEGIN_NODE) s!"invalid start token: {hex8 token}"
  let name ← readString src fuel true
  return .new (if name = [] then str "/" else name)

/-- The root is opened, and the tokens stand between its name and the end of the block. -/
def Block (s : σ) (root : FdtNode) (toks : List Tok) : Prop :=
  ∃ s₁ s₂ s₃, (openRoot host src fuel).run s = .ok (root, s₁) ∧
    Scans host src fuel s₁ toks s₂ ∧ (takeTok host src fuel).run s₂ = .ok (none, s₃)

end Tokens

variable {σ : Type} {host : Host} {src : Source σ} {fuel : Nat}

theorem Scans.append {s s₁ s' : σ} {toks toks' : List Tok} (h : Scans host src fuel s toks s₁)
    (h' : Scans host src fuel s₁ toks' s') : Scans host src fuel s (toks ++ toks') s' := by
  induction h with
  | nil s => exact h'
  | cons htok _ ih => exact .cons htok (ih h')

/-- The tokens up to the end of the block are determined by where they begin. -/
theorem Scans.unique {s s₁ s₂ s₃ s₄ : σ} {toks toks' : List Tok}
    (h : Scans host src fuel s toks s₁) (hend : (takeTok host src fuel).run s₁ = .ok (none, s₂))
    (h' : Scans host src fuel s toks' s₃)
    (hend' : (takeTok host src fuel).run s₃ = .ok (none, s₄)) : toks' = toks := by
  induction h generalizing toks' with
  | nil s =>
    cases h' with
    | nil => rfl
    | cons htok' _ => cases hend.symm.trans htok'
  | cons htok _ ih =>
    cases h' with
    | nil => cases hend'.symm.trans htok
    | cons htok' hrest' =>
      cases htok.symm.trans htok'
      rw [ih hend hrest']

theorem Block.unique {s : σ} {root root' : FdtNode} {toks toks' : List Tok}
    (h : Block host src fuel s root toks) (h' : Block host src fuel s root' toks') :
    root' = root ∧ toks' = toks := by
  obtain ⟨s₁, s₂, s₃, hopen, hscans, hend⟩ := h
  obtain ⟨s₁', s₂', s₃', hopen', hscans', hend'⟩ := h'
  cases hopen.symm.trans hopen'
  exact ⟨rfl, hscans.unique hend hscans' hend'⟩

/-! ## Nodes -/

/-- An invocation of the loop of `traverse`, with so many rounds left, takes the tokens and
turns `parent` into the tree.  The number counts the invocations, this one and those for the
nodes below, that leave at the bound instead of the token that ends their node. -/
inductive Leaves : Nat → FdtNode → List Tok → FdtNode → Nat → Prop
  | bound (parent : FdtNode) : Leaves 0 parent [] parent 1
  | endNode (rounds : Nat) (parent : FdtNode) : Leaves (rounds + 1) parent [.endNode] parent 0
  | nop {rounds k : Nat} {parent t : FdtNode} {toks : List Tok} :
      Leaves rounds parent toks t k → Leaves (rounds + 1) parent (.nop :: toks) t k
  | prop {rounds k : Nat} {parent t : FdtNode} {toks : List Tok} {prop : FdtProp} :
      Leaves rounds (parent.addProperty prop) toks t k →
      Leaves (rounds + 1) parent (.prop prop :: toks) t k
  | beginNode {rounds k k' : Nat} {parent child t : FdtNode} {toks toks' : List Tok}
      {name : Bytes} : Leaves 1000000 (.new name) toks child k →
      Leaves rounds (parent.addChild child) toks' t k' →
      Leaves (rounds + 1) parent (.beginNode name :: (toks ++ toks')) t (k + k')

/-- The tokens fill the node and end it: those between the beginning and the end of a child
belong to the child. -/
inductive Fills : FdtNode → List Tok → FdtNode → Prop
  | endNode (parent : FdtNode) : Fills parent [.endNode] parent
  | nop {parent t : FdtNode} {toks : List Tok} : Fills parent toks t →
      Fills parent (.nop :: toks) t
  | prop {parent t : FdtNode} {toks : List Tok} {prop : FdtProp} :
      Fills (parent.addProperty prop) toks t → Fills parent (.prop prop :: toks) t
  | beginNode {parent child t : FdtNode} {toks toks' : List Tok} {name : Bytes} :
      Fills (.new name) toks child → Fills (parent.addChild child) toks' t →
      Fills parent (.beginNode name :: (toks ++ toks')) t

/-- As many tokens end a node as begin one, counting the one that begins the root. -/
def Balanced (toks : List Tok) : Prop := toks.countP Tok.isEnd = toks.countP Tok.isBegin + 1

theorem Leaves.balance {rounds k : Nat} {parent t : FdtNode} {toks : List Tok}
    (h : Leaves rounds parent toks t k) :
    toks.countP Tok.isEnd + k = toks.countP Tok.isBegin + 1 := by
  induction h with
  | bound parent => rfl
  | endNode rounds parent => rfl
  | nop _ ih => simpa [Tok.isEnd, Tok.isBegin] using ih
  | prop _ ih => simpa [Tok.isEnd, Tok.isBegin] using ih
  | beginNode _ _ ihchild ih =>
    simp only [List.countP_cons, List.countP_append, Tok.isEnd, Tok.isBegin]
    simp only [Bool.false_eq_true, if_false, if_true]
    omega

theorem Leaves.fills {rounds k : Nat} {parent t : FdtNode} {toks : List Tok}
    (h : Leaves rounds parent toks t k) (hk : k = 0) : Fills parent toks t := by
  induction h with
  | bound parent => cases hk
  | endNode rounds parent => exact .endNode parent
  | nop _ ih => exact .nop (ih hk)
  | prop _ ih => exact .prop (ih hk)
  | beginNode _ _ ihchild ih =>
    exact .beginNode (ihchild (Nat.eq_zero_of_add_eq_zero_right hk))
      (ih (Nat.eq_zero_of_add_eq_zero_left hk))

theorem Fills.balanced {parent t : FdtNode} {toks : List Tok} (h : Fills parent toks t) :
    Balanced toks := by
  unfold Balanced
  induction h with
  | endNode parent => rfl
  | nop _ ih => simpa [Tok.isEnd, Tok.isBegin] using ih
  | prop _ ih => simpa [Tok.isEnd, Tok.isBegin] using ih
  | beginNode _ _ ihchild ih =>
    simp only [List.countP_cons, List.countP_append, Tok.isEnd, Tok.isBegin]
    simp only [Bool.false_eq_true, if_false, if_true]
    omega

/-! ## What the reader does -/

section Take

variable {s s₁ s' : σ}

theorem takeTok_beginNode {name : Bytes} (hread : (read host src).run s = .ok (FDT_BEGIN_NODE, s₁))
    (hname : (readString src fuel true).run s₁ = .ok (name, s')) :
    (takeTok host src fuel).run s = .ok (some (.beginNode name), s') := by
  rw [takeTok, run_bind_of_ok hread, if_pos rfl, run_bind_of_ok hname]
  rfl

theorem takeTok_prop {prop : FdtProp} (hread : (read host src).run s = .ok (FDT_PROP, s₁))
    (hprop : (readProp host src fuel).run s₁ = .ok (prop, s')) :
    (takeTok host src fuel).run s = .ok (some (.prop prop), s') := by
  rw [takeTok, run_bind_of_ok hread, if_neg (by decide), if_pos rfl, run_bind_of_ok hprop]
  rfl

theorem takeTok_nop (hread : (read host src).run s = .ok (FDT_NOP, s')) :
    (takeTok host src fuel).run s = .ok (some .nop, s') := by
  rw [takeTok, run_bind_of_ok hread, if_neg (by decide), if_neg (by decide), if_pos rfl]
  rfl

theorem takeTok_endNode (hread : (read host src).run s = .ok (FDT_END_NODE, s')) :
    (takeTok host src fuel).run s = .ok (some .endNode, s') := by
  rw [takeTok, run_bind_of_ok hread, if_neg (by decide), if_neg (by decide), if_neg (by decide),
    if_pos rfl]
  rfl

theorem takeTok_end (hread : (read host src).run s = .ok (FDT_END, s')) :
    (takeTok host src fuel).run s = .ok (none, s') := by
  rw [takeTok, run_bind_of_ok hread, if_neg (by decide), if_neg (by decide), if_neg (by decide),
    if_neg (by decide), if_pos rfl]
  rfl

end Take

theorem traverseLoop_leaves {visit : FdtNode → Read σ FdtNode}
    (hvisit : ∀ parent s t s', (visit parent).run s = .ok (t, s') →
      ∃ toks k, Scans host src fuel s toks s' ∧ Leaves 1000000 parent toks t k)
    {rounds : Nat} {parent t : FdtNode} {s s' : σ}
    (h : (traverseLoop host src fuel visit rounds parent).run s = .ok (t, s')) :
    ∃ toks k, Scans host src fuel s toks s' ∧ Leaves rounds parent toks t k := by
  induction rounds generalizing parent s with
  | zero =>
    cases h
    exact ⟨[], 1, .nil _, .bound _⟩
  | succ rounds ih =>
    obtain ⟨token, s₁, htoken, h⟩ := run_bind_eq_ok.mp h
    split at h
    next hbegin =>
      rw [hbegin] at htoken
      obtain ⟨name, s₂, hname, h⟩ := run_bind_eq_ok.mp h
      obtain ⟨child, s₃, hchild, h⟩ := run_bind_eq_ok.mp h
      obtain ⟨toks, k, hscans, hleaves⟩ := hvisit _ _ _ _ hchild
      obtain ⟨toks', k', hscans', hleaves'⟩ := ih h
      exact ⟨_, _, .cons (takeTok_beginNode htoken hname) (hscans.append hscans'),
        .beginNode hleaves hleaves'⟩
    next =>
      split at h
      next hprop =>
        rw [hprop] at htoken
        obtain ⟨prop, s₂, hread, h⟩ := run_bind_eq_ok.mp h
        obtain ⟨toks, k, hscans, hleaves⟩ := ih h
        exact ⟨_, k, .cons (takeTok_prop htoken hread) hscans, .prop hleaves⟩
      next =>
        split at h
        next hnop =>
          rw [hnop] at htoken
          obtain ⟨toks, k, hscans, hleaves⟩ := ih h
          exact ⟨_, k, .cons (takeTok_nop htoken) hscans, .nop hleaves⟩
        next =>
          split at h
          next hend =>
            rw [hend] at htoken
            cases h
            exact ⟨_, 0, .cons (takeTok_endNode htoken) (.nil _), .endNode rounds _⟩
          next => cases h

/-- A call of `traverse` takes tokens and shares them with the calls for the nodes below. -/
theorem traverse_leaves {depth : Nat} {parent t : FdtNode} {s s' : σ}
    (h : (traverse host src fuel depth parent).run s = .ok (t, s')) :
    ∃ toks k, Scans host src fuel s toks s' ∧ Leaves 1000000 parent toks t k := by
  induction depth generalizing parent s t s' with
  | zero => cases h
  | succ depth ih => exact traverseLoop_leaves (fun _ _ _ _ h => ih h) h

theorem decompile_eq (host : Host) (src : Source σ) (fuel : Nat) :
    decompile host src fuel = (do
      let root ← openRoot host src fuel
      let root ← traverse host src fuel fuel root
      let token ← read host src
      reportOn (token ≠ FDT_END) s!"invalid end-of-file token: {hex8 token}"
      return root) := by
  simp only [decompile, openRoot, bind_assoc, pure_bind]

theorem decompile_leaves {t : FdtNode} {s s' : σ}
    (h : (decompile host src fuel).run s = .ok (t, s')) :
    ∃ root toks k, Block host src fuel s root toks ∧ Leaves 1000000 root toks t k := by
  rw [decompile_eq] at h
  obtain ⟨root, s₁, hopen, h⟩ := run_bind_eq_ok.mp h
  obtain ⟨t', s₂, htraverse, h⟩ := run_bind_eq_ok.mp h
  obtain ⟨token, s₃, htoken, h⟩ := run_bind_eq_ok.mp h
  obtain ⟨_, s₄, hreport, h⟩ := run_bind_eq_ok.mp h
  cases h
  obtain ⟨toks, k, hscans, hleaves⟩ := traverse_leaves htraverse
  by_cases hend : token = FDT_END
  · rw [hend] at htoken
    exact ⟨root, toks, k, ⟨s₁, s₂, s₃, hopen, hscans, takeTok_end htoken⟩, hleaves⟩
  · rw [reportOn, if_pos hend] at hreport
    cases hreport

/-! ## The two overloads -/

/-- One of the two overloads of `fdtdecompile` returns the tree, reading the content `b`
with its source. -/
inductive Returns (host : Host) (b : Bytes) : Source Nat → FdtNode → Prop
  | memory {t : FdtNode} : fdtdecompile host b = .ok t → Returns host b (memSource b) t
  | file {t : FdtNode} (errno : Int) (filename : Bytes) :
      fdtdecompileFile host errno filename (some b) = .ok t →
      Returns host b (fileSource errno b) t

theorem Returns.run {b : Bytes} {src : Source Nat} {t : FdtNode} (h : Returns host b src t) :
    ∃ p, (decompile host src (b.length + 1)).run 0 = .ok (t, p) := by
  cases h with
  | memory h => exact fst_eq_ok h
  | file errno filename h => exact fst_eq_ok h

/-- The tokens up to the end of the block are the ones that `traverse` takes.  Each of its
invocations leaves at the end of its own node, so that the tree is the one that the tokens
enclose, exactly if the block has an end for every node. -/
theorem fdtdecompile_nested_iff {host : Host} {b : Bytes} {src : Source Nat} {t : FdtNode}
    (h : Returns host b src t) :
    ∃ root toks k, Block host src (b.length + 1) 0 root toks ∧
      (∀ root' toks', Block host src (b.length + 1) 0 root' toks' →
        root' = root ∧ toks' = toks) ∧
      Leaves 1000000 root toks t k ∧ (k = 0 ∧ Fills root toks t ↔ Balanced toks) := by
  obtain ⟨p, hrun⟩ := h.run
  obtain ⟨root, toks, k, hblock, hleaves⟩ := decompile_leaves hrun
  refine ⟨root, toks, k, hblock, fun _ _ h' => hblock.unique h', hleaves, ?_, ?_⟩
  · exact fun h => h.2.balanced
  · intro hbalanced
    have hbalance := hleaves.balance
    have hk : k = 0 := by
      unfold Balanced at hbalanced
      omega
    exact ⟨hk, hleaves.fills hk⟩

theorem fdtdecompile_nested_board :
    ∃ root toks k, Block .littleEndian (memSource (blob .littleEndian boardTree))
        ((blob .littleEndian boardTree).length + 1) 0 root toks ∧
      Leaves 1000000 root toks boardTree k ∧
        (k = 0 ∧ Fills root toks boardTree ↔ Balanced toks) := by
  have hreturns : Returns .littleEndian (blob .littleEndian boardTree)
      (memSource (blob .littleEndian boardTree)) boardTree := .memory (by decide +kernel)
  obtain ⟨root, toks, k, hblock, -, hleaves, hiff⟩ := fdtdecompile_nested_iff hreturns
  exact ⟨root, toks, k, hblock, hleaves, hiff⟩

/-! ## A node without an end -/

section Nops

variable {buf : Bytes} {p n : Nat}

/-- Words that stand for nothing. -/
def nops (host : Host) (n : Nat) : Bytes := (List.replicate n FDT_NOP).flatMap (word host)

theorem at_nops_succ : At buf p (nops host (n + 1)) ↔
    At buf p (word host FDT_NOP) ∧ At buf (p + 4) (nops host n) := by
  rw [nops, List.replicate_succ, List.flatMap_cons, at_append, length_word, nops]

theorem traverseLoop_nops (h : At buf p (nops host n)) (visit : FdtNode → Read Nat FdtNode)
    (parent : FdtNode) :
    (traverseLoop host (memSource buf) fuel visit n parent).run p = .ok (parent, p + 4 * n) := by
  induction n generalizing p with
  | zero => rfl
  | succ n ih =>
    obtain ⟨hnop, hrest⟩ := at_nops_succ.mp h
    rw [traverseLoop, run_bind_of_ok (read_run hnop), if_neg (by decide), if_neg (by decide),
      if_pos rfl, ih hrest, show p + 4 + 4 * n = p + 4 * (n + 1) by omega]

theorem traverse_nops (h : At buf p (nops host 1000000)) (depth : Nat) (parent : FdtNode) :
    (traverse host (memSource buf) fuel (depth + 1) parent).run p =
      .ok (parent, p + 4 * 1000000) :=
  traverseLoop_nops h _ parent

theorem scans_nops (h : At buf p (nops host n)) :
    Scans host (memSource buf) fuel p (List.replicate n .nop) (p + 4 * n) := by
  induction n generalizing p with
  | zero => exact .nil p
  | succ n ih =>
    obtain ⟨hnop, hrest⟩ := at_nops_succ.mp h
    have hscans := ih hrest
    rw [show p + 4 + 4 * n = p + 4 * (n + 1) by omega] at hscans
    exact .cons (takeTok_nop (read_run hnop)) hscans

/-- A blob whose root begins and does not end. -/
def openBlob (host : Host) (n : Nat) : Bytes :=
  header host (.ofNat (68 + 4 * n)) (.ofNat (12 + 4 * n)) 0 (.ofNat (68 + 4 * n)) ++
    (word host FDT_BEGIN_NODE ++ (encodeName [] ++ (nops host n ++ word host FDT_END)))

/-- What stands where in it. -/
theorem openBlob_at (host : Host) (n : Nat) :
    At (openBlob host n) 56 (word host FDT_BEGIN_NODE) ∧ At (openBlob host n) 60 (encodeName []) ∧
      At (openBlob host n) 64 (nops host n) ∧
      At (openBlob host n) (64 + 4 * n) (word host FDT_END) := by
  have hlen : (nops host n).length = 4 * n := by
    rw [nops, length_flatMap_word, List.length_replicate]
  have hat : At (openBlob host n) 56
      (word host FDT_BEGIN_NODE ++ (encodeName [] ++ (nops host n ++ word host FDT_END))) := by
    have h := at_of_eq (header host (.ofNat (68 + 4 * n)) (.ofNat (12 + 4 * n)) 0
      (.ofNat (68 + 4 * n))) (word host FDT_BEGIN_NODE ++ (encodeName [] ++ (nops host n ++
        word host FDT_END))) []
    rwa [length_header, List.append_nil] at h
  rw [at_append, at_append, at_append, length_word, length_encodeName, hlen] at hat
  exact ⟨hat.1, hat.2.1, hat.2.2.1, hat.2.2.2⟩

theorem openRoot_openBlob (host : Host) (n : Nat) :
    (openRoot host (memSource (openBlob host n)) ((openBlob host n).length + 1)).run 0 =
      .ok (.new (str "/"), 64) := by
  obtain ⟨hbegin, hname, -, -⟩ := openBlob_at host n
  have hword : ∀ i x, (headerWords (.ofNat (68 + 4 * n)) (.ofNat (12 + 4 * n)) 0
      (.ofNat (68 + 4 * n)))[i]? = some x → At (openBlob host n) (4 * i) (word host x) :=
    fun i x h => at_words h _
  have hseek : ∀ (off : UInt32) p, off.toNat ≤ 56 →
      ((memSource (openBlob host n)).seek off).run p = .ok (UInt32.ofNat p, off.toNat) :=
    fun off p h => seek_run (by have := word_le_length hbegin; omega)
  have hok := fun {x : UInt32} (message : String) (p : Nat) =>
    reportOn_run (not_not_intro (rfl : x = x)) message p
  have hmagic : At (openBlob host n) 0 (word host FDT_MAGIC) := hword 0 FDT_MAGIC rfl
  have hcompat : At (openBlob host n) (24 : UInt32).toNat (word host FDT_COMPAT) :=
    hword 6 FDT_COMPAT rfl
  have hoffset : At (openBlob host n) (8 : UInt32).toNat (word host 56) := hword 2 56 rfl
  have htoken : At (openBlob host n) (56 : UInt32).toNat (word host FDT_BEGIN_NODE) := hbegin
  have hroot : At (openBlob host n) ((56 : UInt32).toNat + 4) (encodeName []) := hname
  rw [openRoot, run_bind_of_ok (read_run hmagic), run_bind_of_ok (hok _ _),
    run_bind_of_ok (hseek 24 _ (by decide)), run_bind_of_ok (read_run hcompat),
    run_bind_of_ok (hok _ _), run_bind_of_ok (hseek 8 _ (by decide)),
    run_bind_of_ok (read_run hoffset), run_bind_of_ok (hseek 56 _ (by decide)),
    run_bind_of_ok (read_run htoken), run_bind_of_ok (hok _ _),
    run_bind_of_ok (readString_run_name List.not_mem_nil hroot (Nat.lt_succ_self _))]
  rfl

theorem block_openBlob (host : Host) (n : Nat) :
    Block host (memSource (openBlob host n)) ((openBlob host n).length + 1) 0 (.new (str "/"))
      (List.replicate n .nop) := by
  obtain ⟨-, -, hnops, hend⟩ := openBlob_at host n
  exact ⟨64, 64 + 4 * n, _, openRoot_openBlob host n, scans_nops hnops,
    takeTok_end (read_run hend)⟩

/-- With as many words as the loop has rounds the blob is accepted. -/
theorem fdtdecompile_openBlob (host : Host) :
    fdtdecompile host (openBlob host 1000000) = .ok (.new (str "/")) := by
  obtain ⟨-, -, hnops, hend⟩ := openBlob_at host 1000000
  have hrun : (decompile host (memSource (openBlob host 1000000))
      ((openBlob host 1000000).length + 1)).run 0 = .ok (.new (str "/"), 64 + 4 * 1000000 + 4) := by
    rw [decompile_eq, run_bind_of_ok (openRoot_openBlob host 1000000),
      run_bind_of_ok (traverse_nops hnops _ _), run_bind_of_ok (read_run hend),
      run_bind_of_ok (reportOn_run (not_not_intro rfl) _ _)]
    rfl
  rw [fdtdecompile, hrun]
  rfl

end Nops

/-- The root is left at the bound, and nothing of the block ends it. -/
theorem fdtdecompile_openBlob_not_nested :
    ¬ ∀ (b : Bytes) (t : FdtNode), fdtdecompile .littleEndian b = .ok t →
      ∀ root toks, Block .littleEndian (memSource b) (b.length + 1) 0 root toks →
        Fills root toks t := by
  intro h
  have hbalanced := (h _ _ (fdtdecompile_openBlob .littleEndian) _ _
    (block_openBlob .littleEndian 1000000)).balanced
  rw [Balanced, List.countP_replicate, List.countP_replicate] at hbalanced
  cases hbalanced

end Mwr.Fdt
