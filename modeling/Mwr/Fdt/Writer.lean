import Mwr.CodeLib.Exec
import Mwr.Fdt.Encoding

/-!
# What the writer writes

* `Emits` is the specification of a part of the writer: which bytes it puts out,
  how it extends the table of names, and what it returns.  It composes with
  `Emits.bind`, and it holds of every `Sink`.
* `emits_writeNode` says that a node is written as its encoding.
* `acts_compile` adds the header and the patches, and `fdtcompile_eq` says what
  a call leaves in a buffer of any length.
-/

namespace Mwr.Fdt

open Mwr.CodeLib
open Mwr.CodeLib.Bytes
open Mwr.CodeLib.Exec

variable {δ α β : Type} (host : Host) (sink : Sink δ)

/-! ## Emitting bytes -/

/-- Put out the bytes of a list. -/
def putAll : Bytes → δ → Except Fault δ
  | [], d => .ok d
  | b :: bs, d => sink.putc b d >>= putAll bs

theorem putAll_append (bs cs : Bytes) (d : δ) :
    putAll sink (bs ++ cs) d = putAll sink bs d >>= putAll sink cs := by
  induction bs generalizing d with
  | nil => rfl
  | cons b bs ih =>
    show sink.putc b d >>= putAll sink (bs ++ cs) = (sink.putc b d >>= putAll sink bs) >>= _
    cases h : sink.putc b d with
    | error e => rfl
    | ok d' => exact ih d'

/-- From the table `table`, the computation does `act` to the device and leaves
the table `table'`, and it returns `a` if the device does not fail. -/
def Acts (m : Write δ α) (table : List Bytes) (act : δ → Except Fault δ) (a : α)
    (table' : List Bytes) : Prop :=
  ∀ d, m.run ⟨table, d⟩ = act d >>= fun d' => .ok (a, ⟨table', d'⟩)

/-- The computation puts out the bytes `bs`. -/
def Emits (m : Write δ α) (table : List Bytes) (bs : Bytes) (a : α) (table' : List Bytes) :
    Prop :=
  Acts m table (putAll sink bs) a table'

variable {host sink}

theorem Acts.run_bind {m : Write δ α} {table table' : List Bytes} {act : δ → Except Fault δ}
    {a : α} (h : Acts m table act a table') (f : α → Write δ β) (d : δ) :
    (m >>= f).run ⟨table, d⟩ = act d >>= fun d' => (f a).run ⟨table', d'⟩ := by
  rw [StateT.run_bind, h d]
  cases act d <;> rfl

namespace Emits

variable {m : Write δ α} {table table' table'' : List Bytes} {bs cs : Bytes} {a : α} {b : β}

theorem pure (a : α) (table : List Bytes) : Emits sink (Pure.pure a) table [] a table :=
  fun _ => rfl

theorem bind {f : α → Write δ β} (hm : Emits sink m table bs a table')
    (hf : Emits sink (f a) table' cs b table'') :
    Emits sink (m >>= f) table (bs ++ cs) b table'' := by
  intro d
  rw [Acts.run_bind hm, putAll_append, bind_assoc]
  exact congrArg (putAll sink bs d >>= ·) (funext hf)

/-- The last part of a sequence, which returns a value computed from the part. -/
theorem bind_pure {f : α → β} (hm : Emits sink m table bs a table') :
    Emits sink (do return f (← m)) table bs (f a) table' := by
  have h := hm.bind (f := fun a => Pure.pure (f a)) (Emits.pure (f a) table')
  rwa [List.append_nil] at h

/-- A part that first looks at the table. -/
theorem get {f : Writer δ → Write δ β} (h : ∀ d, Emits sink (f ⟨table, d⟩) table bs b table') :
    Emits sink (MonadState.get >>= f) table bs b table' :=
  fun d => h d d

theorem cast {a' : α} (h : Emits sink m table bs a table') (hbs : bs = cs) (ha : a = a') :
    Emits sink m table cs a' table' :=
  hbs ▸ ha ▸ h

end Emits

theorem emits_putc (b : UInt8) (table : List Bytes) :
    Emits sink (putc sink b) table [b] () table := by
  intro d
  cases h : sink.putc b d <;> simp [putc, putAll, h]

theorem emits_writeWord (x : UInt32) (table : List Bytes) :
    Emits sink (writeWord host sink x) table (word host x) 4 table := by
  cases host with
  | littleEndian =>
    exact (emits_putc _ _).bind <| (emits_putc _ _).bind <| (emits_putc _ _).bind <|
      (emits_putc _ _).bind <| .pure 4 table
  | bigEndian =>
    exact (emits_putc _ _).bind <| (emits_putc _ _).bind <| (emits_putc _ _).bind <|
      (emits_putc _ _).bind <| .pure 4 table

theorem emits_putChars (s : Bytes) (table : List Bytes) :
    Emits sink (putChars sink s) table s () table := by
  induction s with
  | nil => exact .pure () table
  | cons ch s ih => exact (emits_putc ch table).bind ih

theorem emits_writeString (s : Bytes) (table : List Bytes) :
    Emits sink (writeString sink s) table (cstr s) (s.length + 1) table :=
  (emits_putChars s table).bind ((emits_putc 0 table).bind (.pure _ table))

/-- A loop that returns the sum of the lengths of what it puts out. -/
theorem emits_sumLoop {act : α → Write δ Nat} (enc : α → Bytes) {table : List Bytes}
    (xs : List α) (hact : ∀ x ∈ xs, Emits sink (act x) table (enc x) (enc x).length table)
    (len : Nat) :
    Emits sink (sumLoop act xs len) table (xs.flatMap enc) (len + (xs.flatMap enc).length)
      table := by
  induction xs generalizing len with
  | nil => exact .pure len table
  | cons x xs ih =>
    have hx := hact x List.mem_cons_self
    have hxs := ih (fun y hy => hact y (List.mem_cons_of_mem x hy)) (len + (enc x).length)
    rw [List.flatMap_cons, List.length_append, ← Nat.add_assoc]
    exact hx.bind hxs

theorem emits_words (xs : List UInt32) (len : Nat) (table : List Bytes) :
    Emits sink (sumLoop (writeWord host sink) xs len) table (xs.flatMap (word host))
      (len + 4 * xs.length) table := by
  rw [← length_flatMap_word host]
  apply emits_sumLoop
  intro x _
  rw [length_word]
  exact emits_writeWord x table

theorem emits_strings (strs : List Bytes) (len : Nat) (table : List Bytes) :
    Emits sink (sumLoop (writeString sink) strs len) table (strs.flatMap cstr)
      (len + (strs.flatMap cstr).length) table := by
  apply emits_sumLoop
  intro s _
  rw [length_cstr]
  exact emits_writeString s table

/-- The loop that pads with zeros. -/
theorem emits_alignLoop (fuel len : Nat) (hfuel : pad len < fuel) (table : List Bytes) :
    Emits sink (alignLoop (putc sink 0) fuel len) table (zeros (pad len)) (len + pad len)
      table := by
  induction fuel generalizing len with
  | zero => omega
  | succ fuel ih =>
    unfold alignLoop
    by_cases hmod : len % 4 = 0
    · rw [if_pos hmod, pad_of_mod hmod]
      exact .pure len table
    · have hpad := pad_of_not_mod hmod
      rw [if_neg hmod, hpad, Nat.add_comm (pad (len + 1)), ← Nat.add_assoc, zeros,
        Nat.add_comm 1, List.replicate_succ]
      exact (emits_putc 0 table).bind (ih (len + 1) (by omega))

theorem emits_writePadding (len : Nat) (table : List Bytes) :
    Emits sink (writePadding sink len) table (zeros (pad len)) (pad len) table := by
  have hloop : Emits sink (alignLoop (putc sink 0) 4 len) table (zeros (pad len)) (len + pad len)
      table := emits_alignLoop 4 len (pad_lt len) table
  have h := hloop.bind_pure (f := fun n => n - len)
  rwa [Nat.add_sub_cancel_left] at h

/-! ## The table of names -/

theorem emits_strtabLoop (s : Bytes) (table rest : List Bytes) (off : UInt32) :
    Emits sink (strtabLoop host sink s rest off) table (word host (offsetFrom s rest off)) 4
      (if s ∈ rest then table else table ++ [s]) := by
  induction rest generalizing off with
  | nil => exact fun d => emits_writeWord off (table ++ [s]) d
  | cons str strs ih =>
    unfold strtabLoop offsetFrom
    by_cases h : str = s
    · rw [if_pos h, if_pos h, if_pos (h ▸ List.mem_cons_self)]
      exact emits_writeWord off table
    · have hmem : s ∈ str :: strs ↔ s ∈ strs := by
        rw [List.mem_cons, or_iff_right (Ne.symm h)]
      simp only [if_neg h, hmem]
      exact ih _

theorem emits_strtab (s : Bytes) (table : List Bytes) :
    Emits sink (strtab host sink s) table (word host (offset table s)) 4 (addName table s) :=
  Emits.get fun _ => emits_strtabLoop s table table 0

theorem emits_writeProp (prop : FdtProp) {table final : List Bytes}
    (hfinal : addName table prop.name <+: final) :
    Emits sink (writeProp host sink prop) table (encodeProp host final prop)
      (encodeProp host final prop).length (addName table prop.name) := by
  have hlen : 0 + 4 * [FDT_PROP, UInt32.ofNat prop.size].length + 4 + 4 * prop.numbers.length +
      (prop.strings.flatMap cstr).length = 12 + prop.size := by
    rw [prop.size_eq, length_flatMap_cstr, Nat.add_assoc]
    rfl
  have hpad : pad (12 + prop.size) = pad prop.size := pad_add_of_mod rfl
  unfold writeProp
  refine Emits.cast ((emits_words _ 0 table).bind <| (emits_strtab prop.name table).bind <|
    (emits_words prop.numbers _ _).bind <| (emits_strings prop.strings _ _).bind <|
      (emits_writePadding _ _).bind_pure) ?_ ?_
  · rw [hlen, hpad, encodeProp, payload, offset_of_prefix hfinal]
    simp only [List.flatMap_cons, List.flatMap_nil, List.append_nil, List.append_assoc]
  · rw [hlen, hpad, length_encodeProp]

/-! ## Nodes -/

theorem emits_props (props : List FdtProp) {table final : List Bytes} (len : Nat)
    (hfinal : addNames table (props.map FdtProp.name) <+: final) :
    Emits sink (sumLoop (writeProp host sink) props len) table
      (props.flatMap (encodeProp host final)) (len + (props.flatMap (encodeProp host final)).length)
      (addNames table (props.map FdtProp.name)) := by
  induction props generalizing table len with
  | nil => exact .pure len table
  | cons prop props ih =>
    have hprop : Emits sink (writeProp host sink prop) table _ _ _ :=
      emits_writeProp prop ((isPrefix_addNames _ _).trans hfinal)
    rw [List.flatMap_cons, List.length_append, ← Nat.add_assoc]
    exact hprop.bind (ih _ hfinal)

/-- A part of the writer that writes the encoding of a tree. -/
def WritesNode (host : Host) (sink : Sink δ) (t : FdtNode) : Prop :=
  ∀ table final, addNames table (t.allProps.map FdtProp.name) <+: final →
    Emits sink (writeNode host sink t) table (encodeNode host final t)
      (encodeNode host final t).length (addNames table (t.allProps.map FdtProp.name))

theorem emits_writeChildren (children : List FdtNode)
    (hchildren : ∀ child ∈ children, WritesNode host sink child) (len : Nat)
    {table final : List Bytes}
    (hfinal : addNames table ((children.flatMap FdtNode.allProps).map FdtProp.name) <+: final) :
    Emits sink (writeChildren host sink children len) table
      (children.flatMap (encodeNode host final))
      (len + (children.flatMap (encodeNode host final)).length)
      (addNames table ((children.flatMap FdtNode.allProps).map FdtProp.name)) := by
  induction children generalizing table len with
  | nil => exact .pure len table
  | cons child children ih =>
    rw [List.flatMap_cons, List.map_append, addNames_append] at hfinal
    have hchild := hchildren child List.mem_cons_self table final
      ((isPrefix_addNames _ _).trans hfinal)
    have hrest := ih (fun c hc => hchildren c (List.mem_cons_of_mem child hc))
      (len + (encodeNode host final child).length) hfinal
    simp only [List.flatMap_cons, List.map_append, addNames_append, List.length_append,
      ← Nat.add_assoc]
    exact hchild.bind hrest

theorem emits_writeNode (t : FdtNode) : WritesNode host sink t := by
  induction t with
  | mk name props children ih =>
    intro table final hfinal
    rw [FdtNode.allProps_mk, List.map_append, addNames_append] at hfinal ⊢
    have hpad : pad (4 + ((nodeName name).length + 1)) = pad ((nodeName name).length + 1) :=
      pad_add_of_mod rfl
    unfold writeNode
    refine Emits.cast ((emits_writeWord _ table).bind <|
      (emits_writeString (nodeName name) table).bind <| (emits_writePadding _ _).bind <|
        (emits_props props _ ((isPrefix_addNames _ _).trans hfinal)).bind <|
          (emits_writeChildren children ih _ hfinal).bind <|
            (emits_writeWord FDT_END_NODE _).bind_pure) ?_ ?_
    · rw [encodeNode_mk, encodeName, hpad, List.append_assoc (cstr _)]
    · rw [encodeNode_mk, hpad]
      simp only [List.length_append, length_word, length_encodeName]
      omega

/-! ## The whole encoding -/

theorem emits_writeStrings (table : List Bytes) :
    Emits sink (writeStrings sink) table (encodeTable table) (encodeTable table).length table := by
  have hstrings : Emits sink (sumLoop (writeString sink) table 0) table _ _ table :=
    emits_strings table 0 table
  have h := hstrings.bind
    (emits_alignLoop 4 (0 + (table.flatMap cstr).length) (pad_lt _) table)
  apply Emits.get
  intro d
  refine h.cast ?_ ?_
  · rw [Nat.zero_add, encodeTable]
  · rw [Nat.zero_add, encodeTable, List.length_append, length_zeros]

theorem acts_writeSeek (off : UInt32) (table : List Bytes) :
    Acts (writeSeek sink off) table (sink.seek off) () table := by
  intro d
  cases h : sink.seek off d <;> simp [writeSeek, h]

/-- Put out a word at an offset. -/
def putWordAt (host : Host) (sink : Sink δ) (off x : UInt32) (d : δ) : Except Fault δ :=
  sink.seek off d >>= putAll sink (word host x)

/-- The patches of `finalizeHeader`. -/
def patchHeader (host : Host) (sink : Sink δ) (total struct strings stringOff : UInt32) (d : δ) :
    Except Fault δ := do
  let d ← putWordAt host sink 0x04 total d
  let d ← putWordAt host sink 0x0c stringOff d
  let d ← putWordAt host sink 0x20 strings d
  putWordAt host sink 0x24 struct d

theorem acts_finalizeHeader (total struct strings stringOff : Nat) (table : List Bytes) :
    Acts (finalizeHeader host sink total struct strings stringOff) table
      (patchHeader host sink (.ofNat total) (.ofNat struct) (.ofNat strings) (.ofNat stringOff))
      () table := by
  have hseek : ∀ off, Acts (writeSeek sink off) table _ _ table := fun off =>
    acts_writeSeek off table
  have hword : ∀ x, Emits sink (writeWord host sink x) table _ _ table := fun x =>
    emits_writeWord x table
  intro d
  simp only [finalizeHeader, patchHeader, putWordAt, Acts.run_bind (hseek _),
    Acts.run_bind (hword _), bind_assoc]
  rfl

/-- The encoding before the header is patched. -/
def draft (host : Host) (t : FdtNode) : Bytes :=
  header host 0 0 0 0 ++ (structBlock host t ++ stringsBlock t)

theorem emits_writeHeader (table : List Bytes) :
    Emits sink (writeHeader host sink) table (header host 0 0 0 0) 56 table :=
  emits_words _ 0 table

theorem acts_compile (t : FdtNode) :
    Acts (compile host sink t) []
      (fun d => putAll sink (draft host t) d >>=
        patchHeader host sink
          (.ofNat (56 + (structBlock host t).length + (stringsBlock t).length))
          (.ofNat (structBlock host t).length) (.ofNat (stringsBlock t).length)
          (.ofNat (56 + (structBlock host t).length))) () (nameTable t) := by
  have hnode : Emits sink (writeNode host sink t) [] (encodeNode host (nameTable t) t)
      (encodeNode host (nameTable t) t).length (nameTable t) :=
    emits_writeNode t [] (nameTable t) List.prefix_rfl
  have hend : Emits sink (writeWord host sink FDT_END) (nameTable t) _ _ (nameTable t) :=
    emits_writeWord FDT_END (nameTable t)
  have hstrings : Emits sink (writeStrings sink) (nameTable t) _ _ (nameTable t) :=
    emits_writeStrings (nameTable t)
  intro d
  simp only [compile, Acts.run_bind (emits_writeHeader _), Acts.run_bind hnode,
    Acts.run_bind hend, Acts.run_bind hstrings, acts_finalizeHeader _ _ _ _ _ _,
    ← length_structBlock, draft, putAll_append, bind_assoc, structBlock, stringsBlock]

/-! ## Media -/

/-- A device that is a string of `n` bytes with a position in it. -/
structure Medium (sink : Sink δ) (n : Nat) (mk : Bytes → Nat → δ) : Prop where
  seek : ∀ {buf : Bytes} {p : Nat} {off : UInt32}, buf.length = n → off.toNat < n →
    sink.seek off (mk buf p) = .ok (mk buf off.toNat)
  putc : ∀ {buf : Bytes} {p : Nat} {b : UInt8}, buf.length = n → p < n →
    sink.putc b (mk buf p) = .ok (mk (buf.set p b) (p + 1))

namespace Medium

variable {n : Nat} {mk : Bytes → Nat → δ} (hm : Medium sink n mk)
include hm

theorem putAll_eq {bs buf : Bytes} {p : Nat} (hbuf : buf.length = n) (h : p + bs.length ≤ n) :
    putAll sink bs (mk buf p) = .ok (mk (patch buf p bs) (p + bs.length)) := by
  induction bs generalizing buf p with
  | nil => simp [putAll, patch]
  | cons b bs ih =>
    rw [List.length_cons] at h
    have hlt : p < n := by omega
    rw [putAll, hm.putc hbuf hlt, ok_bind, ih (by rw [List.length_set, hbuf]) (by omega),
      patch_cons (by omega), List.length_cons, Nat.add_assoc, Nat.add_comm 1]

theorem putWordAt_eq {buf : Bytes} {p : Nat} {off x : UInt32} (hbuf : buf.length = n)
    (h : off.toNat + 4 ≤ n) :
    putWordAt host sink off x (mk buf p) =
      .ok (mk (patch buf off.toNat (word host x)) (off.toNat + 4)) := by
  rw [putWordAt, hm.seek hbuf (by omega), ok_bind, hm.putAll_eq hbuf (by rwa [length_word]),
    length_word]

/-- A word is put over another one that stands between words. -/
theorem putWordAt_words (xs ys : List UInt32) {x : UInt32} {rest : Bytes} {p : Nat}
    {off : UInt32} (y : UInt32) (hn : ((xs ++ x :: ys).flatMap (word host) ++ rest).length = n)
    (hoff : off.toNat = 4 * xs.length) :
    putWordAt host sink off y (mk ((xs ++ x :: ys).flatMap (word host) ++ rest) p) =
      .ok (mk ((xs ++ y :: ys).flatMap (word host) ++ rest) (off.toNat + 4)) := by
  have hlen : off.toNat + 4 ≤ n := by
    rw [← hn, List.length_append, length_flatMap_word, List.length_append, List.length_cons]
    omega
  rw [hm.putWordAt_eq hn hlen, hoff, ← length_flatMap_word host xs]
  simp only [List.flatMap_append, List.flatMap_cons, List.append_assoc]
  rw [patch_append (by rw [length_word, length_word])]

theorem patchHeader_eq {rest : Bytes} {p : Nat} (hn : 56 + rest.length = n)
    (total struct strings stringOff : UInt32) :
    patchHeader host sink total struct strings stringOff (mk (header host 0 0 0 0 ++ rest) p) =
      .ok (mk (header host total struct strings stringOff ++ rest) 40) := by
  have hlen : ∀ a b c d, (header host a b c d ++ rest).length = n := fun a b c d => by
    rw [List.length_append, length_header, hn]
  have htotal : putWordAt host sink 0x04 total (mk (header host 0 0 0 0 ++ rest) p) =
      .ok (mk (header host total 0 0 0 ++ rest) 8) :=
    hm.putWordAt_words [FDT_MAGIC] [56, 0, 40, FDT_VERSION, FDT_COMPAT, 0, 0, 0, 0, 0, 0, 0] total
      (hlen _ _ _ _) rfl
  have hoff : putWordAt host sink 0x0c stringOff (mk (header host total 0 0 0 ++ rest) 8) =
      .ok (mk (header host total 0 0 stringOff ++ rest) 16) :=
    hm.putWordAt_words [FDT_MAGIC, total, 56] [40, FDT_VERSION, FDT_COMPAT, 0, 0, 0, 0, 0, 0, 0]
      stringOff (hlen _ _ _ _) rfl
  have hstrings : putWordAt host sink 0x20 strings
        (mk (header host total 0 0 stringOff ++ rest) 16) =
      .ok (mk (header host total 0 strings stringOff ++ rest) 36) :=
    hm.putWordAt_words [FDT_MAGIC, total, 56, stringOff, 40, FDT_VERSION, FDT_COMPAT, 0]
      [0, 0, 0, 0, 0] strings (hlen _ _ _ _) rfl
  have hstruct : putWordAt host sink 0x24 struct
        (mk (header host total 0 strings stringOff ++ rest) 36) =
      .ok (mk (header host total struct strings stringOff ++ rest) 40) :=
    hm.putWordAt_words [FDT_MAGIC, total, 56, stringOff, 40, FDT_VERSION, FDT_COMPAT, 0, strings]
      [0, 0, 0, 0] struct (hlen _ _ _ _) rfl
  rw [patchHeader, htotal, ok_bind, hoff, ok_bind, hstrings, ok_bind, hstruct]

end Medium

/-! ## Memory -/

theorem medium_mem (n : Nat) : Medium memSink n MemWriter.mk where
  seek := by
    intro buf p off hbuf hlt
    exact if_neg (by rw [hbuf]; exact Nat.not_le.mpr hlt)
  putc := by
    intro buf p b hbuf hlt
    exact if_neg (by rw [hbuf]; exact Nat.not_le.mpr hlt)

theorem putAll_mem_short {bs buf : Bytes} {p : Nat} (hp : p ≤ buf.length)
    (h : buf.length < p + bs.length) :
    putAll memSink bs ⟨buf, p⟩ = .error (.report "writing beyond end of buffer") := by
  induction bs generalizing buf p with
  | nil => exact absurd h (Nat.not_lt.2 hp)
  | cons b bs ih =>
    rw [List.length_cons] at h
    by_cases hlt : p < buf.length
    · rw [putAll, (medium_mem buf.length).putc rfl hlt, ok_bind]
      exact ih (by rw [List.length_set]; omega) (by rw [List.length_set]; omega)
    · have hput : memSink.putc b ⟨buf, p⟩ = .error (.report "writing beyond end of buffer") :=
        if_pos (Nat.not_lt.1 hlt)
      rw [putAll, hput, error_bind]

theorem length_draft (t : FdtNode) : (draft host t).length = (blob host t).length := by
  rw [draft, length_blob, List.length_append, length_header, List.length_append, Nat.add_assoc]

/-- A call fills the buffer with the encoding of the tree from its beginning, or
reports that the buffer is too short. -/
theorem fdtcompile_eq (t : FdtNode) (buffer : Bytes) :
    fdtcompile host t buffer =
      if (blob host t).length ≤ buffer.length then
        .ok (blob host t ++ buffer.drop (blob host t).length)
      else
        .error (.report "writing beyond end of buffer") := by
  have hcompile : Acts (compile host memSink t) [] _ _ _ := acts_compile t
  have hrun := hcompile ⟨buffer, 0⟩
  beta_reduce at hrun
  rw [← length_draft]
  split
  next hle =>
    have hput : putAll memSink (draft host t) ⟨buffer, 0⟩ = _ :=
      (medium_mem buffer.length).putAll_eq rfl (by omega)
    have hbuf : patch buffer 0 (draft host t) = header host 0 0 0 0 ++
        (structBlock host t ++ stringsBlock t ++ buffer.drop (draft host t).length) := by
      rw [patch, draft, Nat.zero_add, List.take_zero, List.nil_append]
      simp only [List.append_assoc]
    rw [hput, ok_bind, hbuf, (medium_mem _).patchHeader_eq rfl] at hrun
    rw [fdtcompile, hrun, blob]
    simp only [ok_bind, pure_eq_ok, List.append_assoc]
    rfl
  next hgt =>
    have hput : putAll memSink (draft host t) ⟨buffer, 0⟩ = _ :=
      putAll_mem_short (Nat.zero_le _) (by omega)
    rw [fdtcompile, hrun, hput]
    rfl

end Mwr.Fdt
