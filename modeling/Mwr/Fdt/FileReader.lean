import Mwr.CodeLib.Simulation
import Mwr.Fdt.Untrusted

/-!
# Reading from a file

`fdtreader_mem` refuses to go to a position behind the data, `fdtreader_file` goes there and
fails at the next byte.

* `sim_seek` and `sim_getc` compare the two on one operation.  A file reader that has gone
  too far is `Stranded`.
* `sim_decompile` follows them through the whole reader.  A stranded reader may still leave
  nodes, but it cannot read the token that ends the blob.
* `fdtdecompile_agree` is the result for the two overloads of `fdtdecompile`.
-/

namespace Mwr.Fdt

open Mwr.CodeLib
open Mwr.CodeLib.Bytes
open Mwr.CodeLib.Exec

/-- `class fdtreader_file` on a file with this content.  The state is the position in the
file, and `errno` the number that a failing read leaves. -/
def fileSource (errno : Int) (content : Bytes) : Source Nat where
  getc := do
    let pos ← get
    match content[pos]? with
    | none => throw (.report s!"error reading from file: {errno}")
    | some ch =>
      set (pos + 1)
      return ch
  seek := fun offset => do
    let curoff ← get
    set offset.toNat
    return UInt32.ofNat curoff

/-- `fdtdecompile(filename)`, with the content of the file if it can be opened. -/
def fdtdecompileFile (host : Host) (errno : Int) (filename : Bytes) (file : Option Bytes) :
    Except Fault FdtNode :=
  match file with
  | none => throw (.report s!"cannot open {text filename}")
  | some content => do
    let (root, _) ← (decompile host (fileSource errno content) (content.length + 1)).run 0
    return root

variable {host : Host} {errno : Int} {content : Bytes} {fuel : Nat}

/-- Both readers are at one position, which a reader of the memory can be at. -/
def Same (content : Bytes) (p q : Nat) : Prop := p = q ∧ p ≤ content.length

/-- The reader of the file is at the end of the data or behind it. -/
def Stranded (content : Bytes) (q : Nat) : Prop := content.length ≤ q ∧ q < 2 ^ 32

def IsReport (e : Fault) : Prop := ∃ message, e = .report message

/-! ## One operation -/

theorem sim_getc : Sim (Same content) IsReport nowhere (memSource content).getc
    (fileSource errno content).getc := by
  rintro p q ⟨rfl, hp⟩
  cases hbyte : content[p]? with
  | some b =>
    have hfile : (fileSource errno content).getc.run p = .ok (b, p + 1) := by
      simp [fileSource, hbyte]
    have hlt := (List.getElem?_eq_some_iff.mp hbyte).1
    rw [getc_run hbyte, hfile]
    exact ⟨p + 1, rfl, rfl, hlt⟩
  | none =>
    have hmem : (memSource content).getc.run p =
        .error (.report "reading beyond end of buffer") := by simp [memSource, hbyte]
    have hfile : (fileSource errno content).getc.run p =
        .error (.report s!"error reading from file: {errno}") := by simp [fileSource, hbyte]
    rw [hmem, hfile]
    exact fun _ => ⟨_, rfl⟩

theorem sim_seek (off : UInt32) : Sim (Same content) IsReport (Stranded content)
    ((memSource content).seek off) ((fileSource errno content).seek off) := by
  rintro p q ⟨rfl, hp⟩
  by_cases h : off.toNat < content.length
  · rw [seek_run h]
    exact ⟨off.toNat, rfl, rfl, Nat.le_of_lt h⟩
  · have hmem : ((memSource content).seek off).run p =
        .error (.report "seeking beyond end of buffer") := by
      simp [memSource, Nat.not_lt.mp h]
    rw [hmem]
    exact fun _ => ⟨Nat.not_lt.mp h, UInt32.toNat_lt off⟩

/-- Inside of the data both go to the position. -/
theorem sim_seek_inside {off : UInt32} (h : off.toNat < content.length) :
    Sim (Same content) IsReport nowhere ((memSource content).seek off)
      ((fileSource errno content).seek off) := by
  rintro p q ⟨rfl, hp⟩
  rw [seek_run h]
  exact ⟨off.toNat, rfl, rfl, Nat.le_of_lt h⟩

theorem strays_getc : Strays IsReport (Stranded content) nowhere
    (fileSource errno content).getc := by
  intro q hq
  have hfile : (fileSource errno content).getc.run q =
      .error (.report s!"error reading from file: {errno}") := by
    simp [fileSource, List.getElem?_eq_none hq.1]
  rw [hfile]
  exact ⟨_, rfl⟩

/-- Going back to where the reader is stranded. -/
theorem strays_seek {off : UInt32} (h : Stranded content off.toNat) :
    Strays IsReport (Stranded content) (Stranded content) ((fileSource errno content).seek off) :=
  fun _ _ => h

/-! ## Words and strings -/

theorem sim_read : Sim (Same content) IsReport nowhere (read host (memSource content))
    (read host (fileSource errno content)) := by
  unfold read
  refine Sim.bind_strict sim_getc fun a => Sim.bind_strict sim_getc fun b =>
    Sim.bind_strict sim_getc fun c => Sim.bind_strict sim_getc fun d => ?_
  cases host <;> exact Sim.pure _

theorem strays_read : Strays IsReport (Stranded content) nowhere
    (read host (fileSource errno content)) :=
  Strays.bind_nowhere strays_getc

theorem sim_readStringLoop (s : Bytes) : Sim (Same content) IsReport nowhere
    (readStringLoop (memSource content) fuel s)
    (readStringLoop (fileSource errno content) fuel s) := by
  induction fuel generalizing s with
  | zero => exact Sim.throw _
  | succ fuel ih => exact Sim.bind_strict sim_getc fun ch => Sim.ite (Sim.pure s) (ih _)

theorem sim_alignLoop (len : Nat) : Sim (Same content) IsReport nowhere
    (alignLoop (do let _ ← (memSource content).getc) fuel len)
    (alignLoop (do let _ ← (fileSource errno content).getc) fuel len) := by
  induction fuel generalizing len with
  | zero => exact Sim.throw _
  | succ fuel ih =>
    exact Sim.ite (Sim.pure len)
      ((Sim.bind_strict sim_getc fun _ => Sim.pure ()).bind_strict fun _ => ih _)

theorem sim_readString (align : Bool) : Sim (Same content) IsReport nowhere
    (readString (memSource content) fuel align)
    (readString (fileSource errno content) fuel align) :=
  (sim_readStringLoop []).bind_strict fun s =>
    Sim.ite ((sim_alignLoop _).bind_strict fun _ => Sim.pure s) (Sim.pure s)

theorem strays_readString (align : Bool) : Strays IsReport (Stranded content) nowhere
    (readString (fileSource errno content) (fuel + 1) align) :=
  (Strays.bind_nowhere strays_getc : Strays _ _ nowhere
    (readStringLoop (fileSource errno content) (fuel + 1) [])).bind_nowhere

theorem sim_readStrtab (offset : UInt32) : Sim (Same content) IsReport (Stranded content)
    (readStrtab host (memSource content) (fuel + 1) offset)
    (readStrtab host (fileSource errno content) (fuel + 1) offset) :=
  (sim_seek 12).bind
    (fun curoff => Sim.bind_strict sim_read fun _ =>
      (sim_seek _).bind
        (fun _ => (sim_readString false).bind_strict fun s =>
          (sim_seek curoff).bind (fun _ => Sim.pure s) fun _ => Strays.pure s)
        fun _ => (strays_readString false).bind_nowhere)
    fun _ => Strays.bind_nowhere strays_read

/-! ## Values -/

theorem sim_readIntLoop (n : Nat) (data : List UInt32) : Sim (Same content) IsReport nowhere
    (readIntLoop host (memSource content) n data)
    (readIntLoop host (fileSource errno content) n data) := by
  induction n generalizing data with
  | zero => exact Sim.pure data
  | succ n ih => exact Sim.bind_strict sim_read fun _ => ih _

theorem sim_readIntData (len : UInt32) : Sim (Same content) IsReport (Stranded content)
    (readIntData host (memSource content) len)
    (readIntData host (fileSource errno content) len) :=
  Sim.ite (Sim.pure none) ((sim_readIntLoop _ []).bind_strict fun _ => Sim.pure _)

theorem strays_readIntData (len : UInt32) : Strays IsReport (Stranded content) (Stranded content)
    (readIntData host (fileSource errno content) len) := by
  have hloop : ∀ n, Strays IsReport (Stranded content) (Stranded content)
      (readIntLoop host (fileSource errno content) n []) := by
    intro n
    cases n with
    | zero => exact Strays.pure []
    | succ n => exact Strays.bind_nowhere strays_read
  exact Strays.ite (Strays.pure none) ((hloop _).bind fun _ => Strays.pure _)

/-- `read_str_data` after it has found out where it is. -/
def readStrRest {σ : Type} (src : Source σ) (len curoff : UInt32) :
    Read σ (Option (List Bytes)) := do
  match ← readStrLoop src curoff len.toNat [] [] with
  | none => return none
  | some (result, s) =>
    if s ≠ [] then
      let _ ← src.seek curoff
      return none
    let _ ← alignLoop (do let _ ← src.getc) 4 len.toNat
    return some result

theorem readStrData_eq {σ : Type} (src : Source σ) (len : UInt32) :
    readStrData src len = (do
      let curoff ← src.seek 0
      let _ ← src.seek curoff
      readStrRest src len curoff) := rfl

theorem sim_readStrLoop {curoff : UInt32} (h : curoff.toNat < content.length) (n : Nat)
    (result : List Bytes) (s : Bytes) : Sim (Same content) IsReport nowhere
    (readStrLoop (memSource content) curoff n result s)
    (readStrLoop (fileSource errno content) curoff n result s) := by
  induction n generalizing result s with
  | zero => exact Sim.pure _
  | succ n ih =>
    exact Sim.bind_strict sim_getc fun ch => Sim.ite (ih _ _) <|
      Sim.ite (ih _ _) <| (sim_seek_inside h).bind_strict fun _ => Sim.pure none

theorem sim_readStrRest {curoff : UInt32} (h : curoff.toNat < content.length) (len : UInt32) :
    Sim (Same content) IsReport (Stranded content) (readStrRest (memSource content) len curoff)
      (readStrRest (fileSource errno content) len curoff) := by
  refine (sim_readStrLoop h _ [] []).bind_strict fun r => ?_
  cases r with
  | none => exact Sim.pure none
  | some r =>
    exact Sim.ite ((sim_seek_inside h).bind_strict fun _ => Sim.pure none)
      ((sim_alignLoop _).bind_strict fun _ => Sim.pure _)

theorem strays_readStrRest {curoff : UInt32} (h : Stranded content curoff.toNat) (len : UInt32) :
    Strays IsReport (Stranded content) (Stranded content)
      (readStrRest (fileSource errno content) len curoff) := by
  have hloop : ∀ n, Strays IsReport (Stranded content) (Stranded content)
      (readStrLoop (fileSource errno content) curoff n [] []) := by
    intro n
    cases n with
    | zero => exact Strays.pure _
    | succ n => exact Strays.bind_nowhere strays_getc
  have hskip : ∀ n, Strays IsReport (Stranded content) (Stranded content)
      (alignLoop (do let _ ← (fileSource errno content).getc) 4 n) := by
    intro n
    exact Strays.ite (Strays.pure n)
      (Strays.bind_nowhere strays_getc (g := fun _ => pure ())).bind_nowhere
  refine (hloop _).bind fun r => ?_
  cases r with
  | none => exact Strays.pure none
  | some r =>
    exact Strays.ite ((strays_seek h).bind fun _ => Strays.pure none)
      ((hskip _).bind fun _ => Strays.pure _)

/-- The reader of the file comes back to where it has been. -/
theorem readStrData_file {q : Nat} (hq : q < 2 ^ 32) (len : UInt32) :
    (readStrData (fileSource errno content) len).run q =
      (readStrRest (fileSource errno content) len (UInt32.ofNat q)).run q := by
  have hback : ((fileSource errno content).seek (UInt32.ofNat q)).run (0 : UInt32).toNat =
      .ok (UInt32.ofNat 0, q) := by
    show Except.ok (_, (UInt32.ofNat q).toNat) = _
    rw [toNat_ofNat hq]
    rfl
  have hthere : ((fileSource errno content).seek 0).run q =
      .ok (UInt32.ofNat q, (0 : UInt32).toNat) := rfl
  rw [readStrData_eq, run_bind_of_ok hthere, run_bind_of_ok hback]

theorem strays_readStrData (len : UInt32) : Strays IsReport (Stranded content) (Stranded content)
    (readStrData (fileSource errno content) len) := by
  intro q hq
  rw [readStrData_file hq.2]
  exact strays_readStrRest (by rwa [toNat_ofNat hq.2]) len q hq

theorem sim_readStrData (hlen : content.length < 2 ^ 32) (len : UInt32) :
    Sim (Same content) IsReport (Stranded content) (readStrData (memSource content) len)
      (readStrData (fileSource errno content) len) := by
  rintro p q ⟨rfl, hp⟩
  have hp32 : p < 2 ^ 32 := Nat.lt_of_le_of_lt hp hlen
  rw [readStrData_file hp32]
  by_cases hlt : p < content.length
  · have hthere : ((memSource content).seek 0).run p = .ok (UInt32.ofNat p, (0 : UInt32).toNat) :=
      seek_run (Nat.zero_lt_of_lt hlt)
    have hoff : (UInt32.ofNat p).toNat < content.length := by rwa [toNat_ofNat hp32]
    have hback : ((memSource content).seek (UInt32.ofNat p)).run (0 : UInt32).toNat =
        .ok (UInt32.ofNat 0, p) := by
      rw [seek_run hoff, toNat_ofNat hp32]
      rfl
    rw [readStrData_eq, run_bind_of_ok hthere, run_bind_of_ok hback]
    exact sim_readStrRest hoff len p p ⟨rfl, hp⟩
  · -- at the end of the data the reader of the memory cannot get back
    have hend : Stranded content p := ⟨Nat.not_lt.mp hlt, hp32⟩
    cases h : (readStrData (memSource content) len).run p with
    | error e => exact fun _ => strays_readStrRest (by rwa [toNat_ofNat hp32]) len p hend
    | ok r =>
      rw [readStrData_eq] at h
      obtain ⟨curoff, p₁, hthere, h⟩ := run_bind_eq_ok.mp h
      obtain ⟨_, p₂, hback, h⟩ := run_bind_eq_ok.mp h
      obtain ⟨-, rfl, -⟩ := seek_inv hthere
      have hinside := (seek_inv hback).1
      rw [toNat_ofNat hp32] at hinside
      exact absurd hinside hlt

/-! ## Properties -/

theorem follows_readIntData (len : UInt32) : Follows (Same content) IsReport (Stranded content)
    (readIntData host (memSource content) len)
    (readIntData host (fileSource errno content) len) :=
  ⟨sim_readIntData len, strays_readIntData len⟩

theorem follows_readStrData (hlen : content.length < 2 ^ 32) (len : UInt32) :
    Follows (Same content) IsReport (Stranded content) (readStrData (memSource content) len)
      (readStrData (fileSource errno content) len) :=
  ⟨sim_readStrData hlen len, strays_readStrData len⟩

theorem follows_attempt {α : Type} {m m' : Read Nat (Option α)} {make : α → FdtProp}
    {next next' : Read Nat FdtProp}
    (hm : Follows (Same content) IsReport (Stranded content) m m')
    (hnext : Follows (Same content) IsReport (Stranded content) next next') :
    Follows (Same content) IsReport (Stranded content) (attempt m make next)
      (attempt m' make next') := by
  refine hm.bind fun v => ?_
  cases v with
  | none => exact hnext
  | some v => exact Follows.pure _

theorem follows_readValue (hlen : content.length < 2 ^ 32) (name : Bytes) (len : UInt32) :
    Follows (Same content) IsReport (Stranded content)
      (readValue host (memSource content) name len)
      (readValue host (fileSource errno content) name len) := by
  have hint : ∀ {next next' : Read Nat FdtProp},
      Follows (Same content) IsReport (Stranded content) next next' →
      Follows (Same content) IsReport (Stranded content)
        (attempt (readIntData host (memSource content) len) (.ofNumbers name) next)
        (attempt (readIntData host (fileSource errno content) len) (.ofNumbers name) next') :=
    fun hnext => follows_attempt (follows_readIntData len) hnext
  have hstr : ∀ {next next' : Read Nat FdtProp},
      Follows (Same content) IsReport (Stranded content) next next' →
      Follows (Same content) IsReport (Stranded content)
        (attempt (readStrData (memSource content) len) (.ofStrings name) next)
        (attempt (readStrData (fileSource errno content) len) (.ofStrings name) next') :=
    fun hnext => follows_attempt (follows_readStrData hlen len) hnext
  have hunknown := hstr (hint (Follows.throw ⟨s!"error reading property '{text name}'", rfl⟩))
  have hstrFirst := Follows.ite (c := isStrProperty name) (hstr hunknown) hunknown
  exact Follows.ite (hint hstrFirst) hstrFirst

theorem sim_readProp (hlen : content.length < 2 ^ 32) :
    Sim (Same content) IsReport (Stranded content)
      (readProp host (memSource content) (fuel + 1))
      (readProp host (fileSource errno content) (fuel + 1)) :=
  Sim.bind_strict sim_read fun len => Sim.bind_strict sim_read fun nameoff =>
    (sim_readStrtab nameoff).bind (fun name => (follows_readValue hlen name len).sim)
      fun name => (follows_readValue hlen name len).strays

/-! ## Nodes -/

/-- A reader that is stranded may still leave a node, whose loop has come to its bound. -/
theorem strays_traverseLoop {visit : FdtNode → Read Nat FdtNode} (rounds : Nat)
    (parent : FdtNode) : Strays IsReport (Stranded content) (Stranded content)
      (traverseLoop host (fileSource errno content) fuel visit rounds parent) := by
  cases rounds with
  | zero => exact Strays.pure parent
  | succ rounds => exact Strays.bind_nowhere strays_read

theorem sim_traverseLoop (hlen : content.length < 2 ^ 32)
    {visit visit' : FdtNode → Read Nat FdtNode}
    (hvisit : ∀ child, Sim (Same content) IsReport (Stranded content) (visit child)
      (visit' child)) (rounds : Nat) (parent : FdtNode) :
    Sim (Same content) IsReport (Stranded content)
      (traverseLoop host (memSource content) (fuel + 1) visit rounds parent)
      (traverseLoop host (fileSource errno content) (fuel + 1) visit' rounds parent) := by
  induction rounds generalizing parent with
  | zero => exact Sim.pure parent
  | succ rounds ih =>
    refine Sim.bind_strict sim_read fun token => Sim.ite ?_ <| Sim.ite ?_ <| Sim.ite (ih parent) <|
      Sim.ite (Sim.pure parent) <| Sim.throw _
    · exact (sim_readString true).bind_strict fun name => (hvisit (.new name)).bind
        (fun child => ih _) fun child => strays_traverseLoop rounds _
    · exact (sim_readProp hlen).bind (fun prop => ih _) fun prop => strays_traverseLoop rounds _

theorem sim_traverse (hlen : content.length < 2 ^ 32) (depth : Nat) (parent : FdtNode) :
    Sim (Same content) IsReport (Stranded content)
      (traverse host (memSource content) (fuel + 1) depth parent)
      (traverse host (fileSource errno content) (fuel + 1) depth parent) := by
  induction depth generalizing parent with
  | zero => exact Sim.throw _
  | succ depth ih => exact sim_traverseLoop hlen ih _ parent

/-! ## Blobs -/

theorem sim_reportOn {c : Prop} [Decidable c] (message : String) :
    Sim (Same content) IsReport nowhere (reportOn c message) (reportOn c message) :=
  Sim.ite (Sim.throw _) (Sim.pure ())

theorem sim_decompile (hlen : content.length < 2 ^ 32) :
    Sim (Same content) IsReport nowhere (decompile host (memSource content) (fuel + 1))
      (decompile host (fileSource errno content) (fuel + 1)) := by
  unfold decompile
  refine Sim.bind_strict sim_read fun magic => (sim_reportOn _).bind_strict fun _ => ?_
  refine (sim_seek 24).bind (fun _ => ?_) fun _ => Strays.bind_nowhere strays_read
  refine Sim.bind_strict sim_read fun compat => (sim_reportOn _).bind_strict fun _ => ?_
  refine (sim_seek 8).bind (fun _ => ?_) fun _ => Strays.bind_nowhere strays_read
  refine Sim.bind_strict sim_read fun offset => ?_
  refine (sim_seek offset).bind (fun _ => ?_) fun _ => Strays.bind_nowhere strays_read
  refine Sim.bind_strict sim_read fun token => (sim_reportOn _).bind_strict fun _ => ?_
  refine (sim_readString true).bind_strict fun name => ?_
  -- the token that ends the blob cannot be read by a stranded reader
  refine (sim_traverse hlen _ _).bind (fun root => ?_) fun _ => Strays.bind_nowhere strays_read
  exact Sim.bind_strict sim_read fun token => (sim_reportOn _).bind_strict fun _ => Sim.pure root

/-- A buffer and a file with the same content are both refused with a report, or both are
read as the same tree. -/
theorem fdtdecompile_agree (host : Host) (errno : Int) (filename b : Bytes)
    (hlen : b.length < 2 ^ 32) :
    (∃ t, fdtdecompile host b = .ok t ∧ fdtdecompileFile host errno filename (some b) = .ok t) ∨
    ∃ message message', fdtdecompile host b = .error (.report message) ∧
      fdtdecompileFile host errno filename (some b) = .error (.report message') := by
  have hagree : Agree (Same b) IsReport nowhere
      ((decompile host (memSource b) (b.length + 1)).run 0)
      ((decompile host (fileSource errno b) (b.length + 1)).run 0) :=
    sim_decompile hlen 0 0 ⟨rfl, Nat.zero_le _⟩
  unfold fdtdecompile fdtdecompileFile
  dsimp only
  cases hmem : (decompile host (memSource b) (b.length + 1)).run 0 with
  | ok r =>
    obtain ⟨t, p⟩ := r
    rw [hmem] at hagree
    obtain ⟨q, hfile, -⟩ := hagree
    rw [hfile]
    exact .inl ⟨t, rfl, rfl⟩
  | error e =>
    obtain ⟨message, rfl⟩ := decompile_error hlen hmem
    rw [hmem] at hagree
    have hlost := hagree ⟨message, rfl⟩
    cases hfile : (decompile host (fileSource errno b) (b.length + 1)).run 0 with
    | ok r =>
      rw [hfile] at hlost
      exact hlost.elim
    | error e' =>
      rw [hfile] at hlost
      obtain ⟨message', rfl⟩ := hlost
      exact .inr ⟨message, message', rfl, rfl⟩

/-- A root with numbers, and a child with strings and with a name alone. -/
def boardTree : FdtNode :=
  .mk (str "/") [.ofNumbers (str "reg") [1, 0x10000]]
    [.mk (str "uart") [.ofStrings (str "compatible") [str "ns16550", str "uart"], .named (str "on")]
      []]

theorem fdtdecompile_agree_board :
    ∃ t, fdtdecompile .littleEndian (blob .littleEndian boardTree) = .ok t ∧
      fdtdecompileFile .littleEndian 0 (str "a.dtb") (some (blob .littleEndian boardTree)) =
        .ok t := by
  have hreads : fdtdecompile .littleEndian (blob .littleEndian boardTree) = .ok boardTree := by
    decide +kernel
  rcases fdtdecompile_agree .littleEndian 0 (str "a.dtb") (blob .littleEndian boardTree)
    (by decide +kernel) with h | ⟨_, _, hreport, -⟩
  · exact h
  · cases hreads.symm.trans hreport

end Mwr.Fdt
