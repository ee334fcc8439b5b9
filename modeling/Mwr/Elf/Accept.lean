import Mwr.Elf.Image

/-!
# What the reader accepts

The reader without libelf returns the object of an image, `Image.toElf`, if the image
is accepted (`openElf_of_accepted`), and aborts otherwise (`openElf_of_not_accepted`).

The reader seeks before it reads a table, so what it does with a part of the file does
not depend on where the file stands.  `Reads` says this of a computation, and has a
rule for each way in which the reader is put together.
-/

namespace Mwr.Elf

open Mwr.CodeLib (Bytes ByteOrder)
open Mwr.CodeLib.Exec

variable {α β : Type} {c : ElfClass}

/-! ## Computations that do not depend on the position -/

/-- From wherever the file stands the computation gives the result, or aborts if there
is none. -/
def Reads (data : Bytes) (p : Fd α) : Option α → Prop
  | some a => ∀ pos, ∃ pos', p.run { data := data, pos := pos } =
      .ok (a, { data := data, pos := pos' })
  | none => ∀ pos, ∃ fault, p.run { data := data, pos := pos } = .error fault

namespace Reads

variable {data : Bytes} {p : Fd α} {f : α → Fd β}

theorem pure (a : α) : Reads data (pure a) (some a) := fun pos => ⟨pos, rfl⟩

theorem abort (message : String) : Reads data (abort message : Fd α) none :=
  fun _ => ⟨.error message, rfl⟩

theorem bind_some {a : α} {r : Option β} (hp : Reads data p (some a)) (hf : Reads data (f a) r) :
    Reads data (p >>= f) r := by
  cases r with
  | some b =>
    intro pos
    rcases hp pos with ⟨pos₁, hrun⟩
    rw [run_bind_of_ok hrun]
    exact hf pos₁
  | none =>
    intro pos
    rcases hp pos with ⟨pos₁, hrun⟩
    rw [run_bind_of_ok hrun]
    exact hf pos₁

theorem bind_none (hp : Reads data p none) : Reads data (p >>= f) none := by
  intro pos
  rcases hp pos with ⟨fault, hrun⟩
  exact ⟨fault, run_bind_of_error hrun⟩

/-- A loop whose rounds all succeed. -/
theorem mapM_some {ι : Type} {f : ι → Fd α} {g : ι → α} {l : List ι}
    (h : ∀ i ∈ l, Reads data (f i) (some (g i))) : Reads data (l.mapM f) (some (l.map g)) := by
  induction l with
  | nil => exact pure []
  | cons i l ih =>
    rw [List.mapM_cons]
    refine bind_some (h i List.mem_cons_self) (bind_some ?_ (pure _))
    exact ih fun j hj => h j (List.mem_cons_of_mem i hj)

/-- A loop with a round that aborts. -/
theorem mapM_none {ι : Type} {f : ι → Fd α} {pre : List ι} {i : ι} (post : List ι)
    (h : ∀ j ∈ pre, ∃ r, Reads data (f j) r) (hnone : Reads data (f i) none) :
    Reads data ((pre ++ i :: post).mapM f) none := by
  induction pre with
  | nil =>
    rw [List.nil_append, List.mapM_cons]
    exact bind_none hnone
  | cons j pre ih =>
    rw [List.cons_append, List.mapM_cons]
    rcases h j List.mem_cons_self with ⟨_ | a, hj⟩
    · exact bind_none hj
    · exact bind_some hj (bind_none (ih fun k hk => h k (List.mem_cons_of_mem j hk)))

end Reads

/-! ## Seeking and reading -/

theorem slice_length {data : Bytes} {pos size : Nat} :
    (slice data pos size).length = size ↔ size = 0 ∨ pos + size ≤ data.length := by
  rw [slice, List.length_take, List.length_drop]
  omega

theorem toNat_setWidth (w : Word c) : (w.setWidth 64).toNat = w.toNat := by
  refine BitVec.toNat_setWidth_of_le ?_
  cases c <;> decide

/-- The entry `i` of a table of headers at `base`, decoded. -/
def readEntry (base : Word c) (i : Nat) (size : Nat) (decode : Bytes → α) (nowhere eof : String) :
    Fd α := do
  seekTo (base.setWidth 64 + BitVec.ofNat 64 i * BitVec.ofNat 64 size) nowhere
  let bytes ← readExactly size eof
  return decode bytes

section Entry

variable {data : Bytes} {base : Word c} {i size : Nat}

/-- The offset of an entry. -/
theorem toNat_entry (base : Word c) (hsize : 0 < size ∧ size ≤ 64)
    (hbase : base.toNat < 2 ^ 63) (hi : i < 2 ^ 32) :
    (base.setWidth 64 + BitVec.ofNat 64 i * BitVec.ofNat 64 size).toNat =
      base.toNat + i * size ∧ base.toNat + i * size < 2 ^ 64 - 1 := by
  have hmul : i * size ≤ 2 ^ 32 * 64 := Nat.mul_le_mul (Nat.le_of_lt hi) hsize.2
  refine ⟨?_, by omega⟩
  rw [BitVec.toNat_add, BitVec.toNat_mul, BitVec.toNat_ofNat, BitVec.toNat_ofNat, toNat_setWidth,
    Nat.mod_eq_of_lt (a := i) (by omega), Nat.mod_eq_of_lt (a := size) (by omega),
    Nat.mod_eq_of_lt (a := i * size) (by omega), Nat.mod_eq_of_lt (by omega)]

/-- An entry that lies in the file. -/
theorem readEntry_run (hlen : data.length < 2 ^ 63) (hsize : 0 < size ∧ size ≤ 64)
    (decode : Bytes → α) (nowhere eof : String) (hi : i < 2 ^ 32)
    (hle : base.toNat + i * size + size ≤ data.length) (pos : Nat) :
    (readEntry base i size decode nowhere eof).run { data := data, pos := pos } =
      .ok (decode (slice data (base.toNat + i * size) size),
        { data := data, pos := base.toNat + i * size + size }) := by
  have hoffset := (toNat_entry base hsize (i := i) (by omega) hi).1
  have hread : ((data.drop (base.toNat + i * size)).take size).length = size :=
    slice_length.mpr (.inr hle)
  rw [readEntry, run_bind_of_ok (seekTo_run (by omega) nowhere _), hoffset,
    run_bind_of_ok (readExactly_run hread eof)]
  rfl

/-- An entry that does not. -/
theorem readEntry_none (hsize : 0 < size ∧ size ≤ 64) (decode : Bytes → α)
    (nowhere eof : String) (hi : i < 2 ^ 32) (hbase : base.toNat < 2 ^ 63)
    (hnot : ¬ base.toNat + i * size + size ≤ data.length) :
    Reads data (readEntry base i size decode nowhere eof) none := by
  intro pos
  rcases toNat_entry base hsize hbase hi with ⟨hoffset, hlt⟩
  rw [readEntry]
  by_cases hreach : base.toNat + i * size < 2 ^ 63
  · rw [run_bind_of_ok (seekTo_run (by omega) nowhere _), hoffset]
    refine ⟨.error eof, run_bind_of_error (readExactly_run_error ?_ eof)⟩
    intro hlength
    rcases slice_length.mp hlength with hzero | hle
    · omega
    · exact hnot hle
  · refine ⟨.error nowhere, run_bind_of_error (seekTo_run_error (by omega) ?_ nowhere _)⟩
    intro heq
    rw [heq, show (-1 : BitVec 64).toNat = 2 ^ 64 - 1 from rfl] at hoffset
    omega

/-- The first entry of a table that starts out of reach. -/
theorem readEntry_zero_none (decode : Bytes → α) (nowhere eof : String)
    (hbase : ¬ base.toNat < 2 ^ 63) (hne : base.setWidth 64 ≠ (-1 : BitVec 64)) :
    Reads data (readEntry base 0 size decode nowhere eof) none := by
  intro pos
  have hzero : base.setWidth 64 + BitVec.ofNat 64 0 * BitVec.ofNat 64 size = base.setWidth 64 := by
    rw [BitVec.zero_mul, BitVec.add_zero]
  rw [readEntry, hzero]
  refine ⟨.error nowhere, run_bind_of_error (seekTo_run_error ?_ hne nowhere _)⟩
  rw [toNat_setWidth]
  exact hbase

/-- A loop over a table that does not lie in the file, whose rounds start with the entry. -/
theorem loop_none (decode : Bytes → α) {f : Nat → Fd β} {k : Nat → α → Fd β}
    (message : Nat → String × String)
    (hf : ∀ i, f i = readEntry base i size decode (message i).1 (message i).2 >>= k i)
    (hfirst : ∀ i < 2 ^ 16, base.toNat < 2 ^ 63 → ∃ r, Reads data (f i) r)
    (hsize : 0 < size ∧ size ≤ 64) {n : Nat} (hn : n < 2 ^ 16) (hn0 : n ≠ 0)
    (hne : base.setWidth 64 ≠ (-1 : BitVec 64)) (h : ¬ base.toNat + n * size ≤ data.length) :
    Reads data ((List.range n).mapM f) none := by
  cases n with
  | zero => exact absurd rfl hn0
  | succ n =>
    by_cases hbase : base.toNat < 2 ^ 63
    · rw [List.range_succ]
      refine Reads.mapM_none [] (fun j hj => ?_) ?_
      · have hj := List.mem_range.mp hj
        exact hfirst j (by omega) hbase
      · rw [hf]
        refine Reads.bind_none (readEntry_none hsize decode _ _ (by omega) hbase ?_)
        rw [Nat.add_assoc, ← Nat.succ_mul]
        exact h
    · rw [List.range_succ_eq_map]
      rw [List.mapM_cons, hf]
      exact Reads.bind_none (Reads.bind_none (readEntry_zero_none decode _ _ hbase hne))

end Entry

/-! ## The program headers -/

/-- The sizes of the headers. -/
theorem phdr_bytes (c : ElfClass) : 0 < Phdr.bytes c ∧ Phdr.bytes c ≤ 64 := by
  cases c <;> decide

theorem shdr_bytes (c : ElfClass) : 0 < Shdr.bytes c ∧ Shdr.bytes c ≤ 64 := by
  cases c <;> decide

namespace Image

variable {im : Image c}

theorem shdrPos_succ (i : Nat) : im.shdrPos (i + 1) = im.shdrPos i + Shdr.bytes c := by
  rw [shdrPos, shdrPos, Nat.succ_mul, Nat.add_assoc]

theorem phdrPos_succ_le {i n : Nat} (h : i < n) :
    im.phdrPos i + Phdr.bytes c ≤ im.phdrPos n := by
  rw [phdrPos, phdrPos, Nat.add_assoc, ← Nat.succ_mul]
  exact Nat.add_le_add_left (Nat.mul_le_mul_right _ h) _

theorem shdrPos_succ_le {i n : Nat} (h : i < n) :
    im.shdrPos i + Shdr.bytes c ≤ im.shdrPos n := by
  rw [shdrPos, shdrPos, Nat.add_assoc, ← Nat.succ_mul]
  exact Nat.add_le_add_left (Nat.mul_le_mul_right _ h) _

theorem reads_phdrs (hlen : im.data.length < 2 ^ 63) {n : Nat} (hn : n < 2 ^ 16)
    (h : n ≠ 0 → im.phdrPos n ≤ im.data.length) :
    Reads im.data ((List.range n).mapM (readPhdr im.order im.ehdr)) (some (im.phdrs n)) := by
  refine Reads.mapM_some fun i hi pos => ?_
  have hi := List.mem_range.mp hi
  have hle := Nat.le_trans (phdrPos_succ_le hi) (h (by omega))
  exact ⟨_, readEntry_run hlen (phdr_bytes c) _ _ _ (by omega) hle pos⟩

theorem reads_phdrs_none (hlen : im.data.length < 2 ^ 63) {n : Nat} (hn : n < 2 ^ 16)
    (hne : im.ehdr.phoff.setWidth 64 ≠ (-1 : BitVec 64)) (hn0 : n ≠ 0)
    (h : ¬ im.phdrPos n ≤ im.data.length) :
    Reads im.data ((List.range n).mapM (readPhdr im.order im.ehdr)) none := by
  refine loop_none (Phdr.decode im.order c) (k := fun _ => pure)
    (fun i => ("cannot find elf program header " ++ toString i,
      "eof while reading program header " ++ toString i))
    (fun i => ?_) (fun i hi hbase => ?_) (phdr_bytes c) hn hn0 hne h
  · rw [bind_pure]
    rfl
  · by_cases hle : im.phdrPos i + Phdr.bytes c ≤ im.data.length
    · exact ⟨some _, fun pos =>
        ⟨_, readEntry_run hlen (phdr_bytes c) _ _ _ (by omega) hle pos⟩⟩
    · exact ⟨none, readEntry_none (phdr_bytes c) _ _ _ (by omega) hbase hle⟩

/-! ## The data of a section -/

theorem readShdr_run (hlen : im.data.length < 2 ^ 63) {i : Nat} (hi : i < 2 ^ 32)
    (hfit : im.shdrPos i + Shdr.bytes c ≤ im.data.length) (nowhere eof : String) (pos : Nat) :
    (readShdr im.order im.ehdr (BitVec.ofNat 64 i) nowhere eof).run
        { data := im.data, pos := pos } =
      .ok (im.shdr i, { data := im.data, pos := im.shdrPos i + Shdr.bytes c }) :=
  readEntry_run hlen (shdr_bytes c) _ nowhere eof hi hfit pos

theorem readShdr_none {i : Nat} (hi : i < 2 ^ 32) (hshoff : im.ehdr.shoff.toNat < 2 ^ 63)
    (hfit : ¬ im.shdrPos i + Shdr.bytes c ≤ im.data.length) (nowhere eof : String) :
    Reads im.data (readShdr im.order im.ehdr (BitVec.ofNat 64 i) nowhere eof) none :=
  readEntry_none (shdr_bytes c) _ nowhere eof hi hshoff hfit

/-- Seeking to the data of a section, right behind its header. -/
theorem seekData_run {i : Nat} (h : (im.offset i).toNat < 2 ^ 63 ∨ im.offset i = -1)
    (message : String) :
    (seekTo (im.offset i) message).run
        { data := im.data, pos := im.shdrPos i + Shdr.bytes c } =
      .ok ((), { data := im.data, pos := im.dataPos i }) := by
  by_cases hneg : im.offset i = -1
  · rw [hneg, dataPos, if_pos hneg, shdrPos_succ]
    rfl
  · have hlt := h.resolve_right hneg
    rw [seekTo_run hlt, dataPos, if_neg hneg]

theorem seekData_error {i : Nat} (h : ¬ ((im.offset i).toNat < 2 ^ 63 ∨ im.offset i = -1))
    (message : String) (file : File) :
    (seekTo (im.offset i) message).run file = .error (.error message) := by
  rw [not_or] at h
  exact seekTo_run_error h.1 h.2 message file

theorem reads_strings (hlen : im.data.length < 2 ^ 63) {i : Nat} (hi : i < 2 ^ 32)
    (hfit : im.shdrPos i + Shdr.bytes c ≤ im.data.length)
    (h : im.HasData i (im.shdr i).size.toNat) :
    Reads im.data (readStrings im.order im.ehdr (BitVec.ofNat 64 i)) (some (im.strings i)) := by
  intro pos
  rw [readStrings, run_bind_of_ok (readShdr_run hlen hi hfit _ _ pos)]
  refine ⟨im.dataPos i + (im.shdr i).size.toNat, ?_⟩
  refine (run_bind_of_ok (seekData_run h.1 _)).trans ?_
  exact readExactly_run (slice_length.mpr h.2) _

theorem reads_strings_none (hlen : im.data.length < 2 ^ 63) {i : Nat} (hi : i < 2 ^ 32)
    (hshoff : im.ehdr.shoff.toNat < 2 ^ 63)
    (h : ¬ (im.shdrPos i + Shdr.bytes c ≤ im.data.length ∧
      im.HasData i (im.shdr i).size.toNat)) :
    Reads im.data (readStrings im.order im.ehdr (BitVec.ofNat 64 i)) none := by
  by_cases hfit : im.shdrPos i + Shdr.bytes c ≤ im.data.length
  · intro pos
    rw [readStrings, run_bind_of_ok (readShdr_run hlen hi hfit _ _ pos)]
    by_cases hseek : (im.offset i).toNat < 2 ^ 63 ∨ im.offset i = -1
    · refine ⟨_, (run_bind_of_ok (seekData_run hseek _)).trans (readExactly_run_error ?_ _)⟩
      intro hlength
      exact h ⟨hfit, hseek, slice_length.mp hlength⟩
    · exact ⟨_, run_bind_of_error (seekData_error hseek _ _)⟩
  · exact Reads.bind_none (readShdr_none hi hshoff hfit _ _)

end Image

/-! ## The entries of a symbol table -/

/-- The symbols of some entries, of a kind that the object keeps. -/
def tableSymbols (strtab : Bytes) (syms : List (Sym c)) : List Symbol :=
  (syms.map fun sym => symbolOf sym (stringAt strtab sym.name.toNat)).filter (·.kind ≠ .none)

theorem tableSymbols_cons (strtab : Bytes) (sym : Sym c) (syms : List (Sym c)) :
    tableSymbols strtab (sym :: syms) =
      if (symbolOf sym (stringAt strtab sym.name.toNat)).kind ≠ .none then
        symbolOf sym (stringAt strtab sym.name.toNat) :: tableSymbols strtab syms
      else tableSymbols strtab syms := by
  rw [tableSymbols, List.map_cons, List.filter_cons]
  simp only [decide_eq_true_eq]
  rfl

theorem reads_table (data : Bytes) {strtab : Bytes} {syms : List (Sym c)}
    (h : ∀ sym ∈ syms, sym.name.toNat < strtab.length) :
    Reads data (readTable strtab syms) (some (tableSymbols strtab syms)) := by
  induction syms with
  | nil => exact Reads.pure []
  | cons sym syms ih =>
    have hname : ¬ sym.name.toNat ≥ strtab.length := Nat.not_le.mpr (h sym List.mem_cons_self)
    have htail := ih fun sym' hsym' => h sym' (List.mem_cons_of_mem sym hsym')
    have hstring : Reads data (getString strtab sym.name)
        (some (stringAt strtab sym.name.toNat)) := by
      rw [getString, if_neg hname]
      exact Reads.pure _
    rw [tableSymbols_cons]
    exact hstring.bind_some (htail.bind_some (Reads.pure _))

theorem reads_table_none (data : Bytes) {strtab : Bytes} {syms : List (Sym c)}
    (h : ¬ ∀ sym ∈ syms, sym.name.toNat < strtab.length) :
    Reads data (readTable strtab syms) none := by
  induction syms with
  | nil => exact absurd (fun sym hsym => by cases hsym) h
  | cons sym syms ih =>
    by_cases hname : sym.name.toNat < strtab.length
    · have hstring : Reads data (getString strtab sym.name)
          (some (stringAt strtab sym.name.toNat)) := by
        rw [getString, if_neg (Nat.not_le.mpr hname)]
        exact Reads.pure _
      refine hstring.bind_some (Reads.bind_none (ih fun htail => h ?_))
      exact List.forall_mem_cons.mpr ⟨hname, htail⟩
    · refine Reads.bind_none ?_
      rw [getString, if_pos (Nat.not_lt.mp hname)]
      exact Reads.abort _

namespace Image

variable {im : Image c}

/-! ## A section -/

theorem link_lt (im : Image c) (i : Nat) : im.link i < 2 ^ 32 := (im.shdr i).link.isLt

theorem setWidth_link (im : Image c) (i : Nat) :
    (im.shdr i).link.setWidth 64 = BitVec.ofNat 64 (im.link i) := by
  have hlt := im.link_lt i
  apply BitVec.eq_of_toNat_eq
  rw [BitVec.toNat_setWidth_of_le (by decide), BitVec.toNat_ofNat, Nat.mod_eq_of_lt (by omega)]
  rfl

theorem reads_section (hlen : im.data.length < 2 ^ 63) {i : Nat} (hi : i < 2 ^ 16)
    (hfit : im.shdrPos i + Shdr.bytes c ≤ im.data.length)
    (h : (im.shdr i).type = SHT_SYMTAB → im.SymtabReadable i) :
    Reads im.data (readSection im.order im.ehdr i) (some (im.sectionSymbols i)) := by
  intro pos
  rw [readSection, run_bind_of_ok (readShdr_run hlen (by omega) hfit _ _ pos)]
  by_cases htype : (im.shdr i).type = SHT_SYMTAB
  · have hread := h htype
    have hdata : ((im.data.drop (im.dataPos i)).take (im.symCount i * Sym.bytes c)).length =
        im.symCount i * Sym.bytes c := slice_length.mpr hread.data.2
    have hnames : ∀ sym ∈ im.syms i, sym.name.toNat < (im.strings (im.link i)).length := by
      rw [strings, slice_length.mpr hread.strings.2]
      exact hread.names
    have htail := (reads_strings hlen (im.link_lt i) hread.link hread.strings).bind_some
      (f := fun strtab => readTable strtab (im.syms i)) (reads_table im.data hnames)
    rcases htail (im.dataPos i + im.symCount i * Sym.bytes c) with ⟨pos', hrun⟩
    rw [sectionSymbols, if_pos htype, if_neg (not_not.mpr htype), setWidth_link]
    exact ⟨pos', (run_bind_of_ok (seekData_run hread.data.1 _)).trans
      ((run_bind_of_ok (readExactly_run hdata _)).trans hrun)⟩
  · rw [sectionSymbols, if_neg htype, if_pos htype]
    exact ⟨_, rfl⟩

/-- A symbol table that cannot be read. -/
theorem reads_section_none (hlen : im.data.length < 2 ^ 63) {i : Nat} (hi : i < 2 ^ 16)
    (hshoff : im.ehdr.shoff.toNat < 2 ^ 63)
    (hfit : im.shdrPos i + Shdr.bytes c ≤ im.data.length) (htype : (im.shdr i).type = SHT_SYMTAB)
    (h : ¬ im.SymtabReadable i) : Reads im.data (readSection im.order im.ehdr i) none := by
  intro pos
  rw [readSection, run_bind_of_ok (readShdr_run hlen (by omega) hfit _ _ pos),
    if_neg (not_not.mpr htype), setWidth_link]
  by_cases hseek : (im.offset i).toNat < 2 ^ 63 ∨ im.offset i = -1
  · by_cases hsize : im.symCount i * Sym.bytes c = 0 ∨
        im.dataPos i + im.symCount i * Sym.bytes c ≤ im.data.length
    · have hdata : ((im.data.drop (im.dataPos i)).take (im.symCount i * Sym.bytes c)).length =
          im.symCount i * Sym.bytes c := slice_length.mpr hsize
      have htail : Reads im.data (readStrings im.order im.ehdr (BitVec.ofNat 64 (im.link i)) >>=
          fun strtab => readTable strtab (im.syms i)) none := by
        by_cases hstrings : im.shdrPos (im.link i) + Shdr.bytes c ≤ im.data.length ∧
            im.HasData (im.link i) (im.shdr (im.link i)).size.toNat
        · refine (reads_strings hlen (im.link_lt i) hstrings.1 hstrings.2).bind_some
            (reads_table_none im.data fun hnames => h ?_)
          rw [strings, slice_length.mpr hstrings.2.2] at hnames
          exact ⟨⟨hseek, hsize⟩, hstrings.1, hstrings.2, hnames⟩
        · exact Reads.bind_none (reads_strings_none hlen (im.link_lt i) hshoff hstrings)
      rcases htail (im.dataPos i + im.symCount i * Sym.bytes c) with ⟨fault, hrun⟩
      exact ⟨fault, (run_bind_of_ok (seekData_run hseek _)).trans
        ((run_bind_of_ok (readExactly_run hdata _)).trans hrun)⟩
    · have hdata : ((im.data.drop (im.dataPos i)).take (im.symCount i * Sym.bytes c)).length ≠
          im.symCount i * Sym.bytes c := fun hlength => hsize (slice_length.mp hlength)
      exact ⟨_, (run_bind_of_ok (seekData_run hseek _)).trans
        (run_bind_of_error (readExactly_run_error hdata _))⟩
  · exact ⟨_, run_bind_of_error (seekData_error hseek _ _)⟩

/-! ## All sections -/

theorem reads_symbols (hlen : im.data.length < 2 ^ 63)
    (h : im.ehdr.shnum ≠ 0 → im.shdrPos im.ehdr.shnum.toNat ≤ im.data.length)
    (hsymtabs : ∀ i < im.ehdr.shnum.toNat, (im.shdr i).type = SHT_SYMTAB → im.SymtabReadable i) :
    Reads im.data (readSymbols im.order im.ehdr)
      (some ((List.range im.ehdr.shnum.toNat).flatMap im.sectionSymbols)) := by
  have hn : im.ehdr.shnum.toNat < 2 ^ 16 := im.ehdr.shnum.isLt
  refine (Reads.mapM_some (g := im.sectionSymbols) fun i hi => ?_).bind_some (Reads.pure _)
  have hi := List.mem_range.mp hi
  have hfit := Nat.le_trans (shdrPos_succ_le hi) (h fun hzero => by rw [hzero] at hi; cases hi)
  exact reads_section hlen (by omega) hfit (hsymtabs i hi)

/-- What happens to a section does not depend on the position. -/
theorem exists_reads_section (hlen : im.data.length < 2 ^ 63) {i : Nat} (hi : i < 2 ^ 16)
    (hshoff : im.ehdr.shoff.toNat < 2 ^ 63) :
    ∃ r, Reads im.data (readSection im.order im.ehdr i) r := by
  by_cases hfit : im.shdrPos i + Shdr.bytes c ≤ im.data.length
  · by_cases hread : (im.shdr i).type = SHT_SYMTAB → im.SymtabReadable i
    · exact ⟨_, reads_section hlen hi hfit hread⟩
    · rw [Classical.not_imp] at hread
      exact ⟨_, reads_section_none hlen hi hshoff hfit hread.1 hread.2⟩
  · exact ⟨none, Reads.bind_none (readShdr_none (by omega) hshoff hfit _ _)⟩

theorem reads_symbols_none (hlen : im.data.length < 2 ^ 63)
    (hne : im.ehdr.shnum ≠ 0 → im.ehdr.shoff.setWidth 64 ≠ (-1 : BitVec 64))
    (h : ¬ ((im.ehdr.shnum ≠ 0 → im.shdrPos im.ehdr.shnum.toNat ≤ im.data.length) ∧
      ∀ i < im.ehdr.shnum.toNat, (im.shdr i).type = SHT_SYMTAB → im.SymtabReadable i)) :
    Reads im.data (readSymbols im.order im.ehdr) none := by
  have hn : im.ehdr.shnum.toNat < 2 ^ 16 := im.ehdr.shnum.isLt
  refine Reads.bind_none ?_
  by_cases hfits : im.ehdr.shnum ≠ 0 → im.shdrPos im.ehdr.shnum.toNat ≤ im.data.length
  · have hsymtab : ∃ i < im.ehdr.shnum.toNat, (im.shdr i).type = SHT_SYMTAB ∧
        ¬ im.SymtabReadable i := by
      by_contra hnone
      refine h ⟨hfits, fun i hi htype => ?_⟩
      by_contra hread
      exact hnone ⟨i, hi, htype, hread⟩
    rcases hsymtab with ⟨i, hi, htype, hread⟩
    have hle := hfits fun hzero => by rw [hzero] at hi; cases hi
    have hshoff : im.ehdr.shoff.toNat < 2 ^ 63 := by
      rw [shdrPos] at hle
      omega
    rcases List.append_of_mem (List.mem_range.mpr hi) with ⟨pre, post, hsplit⟩
    rw [hsplit]
    refine Reads.mapM_none post (fun j hj => ?_) ?_
    · have hmem : j ∈ List.range im.ehdr.shnum.toNat := by
        rw [hsplit]
        exact List.mem_append_left _ hj
      exact exists_reads_section hlen (Nat.lt_trans (List.mem_range.mp hmem) hn) hshoff
    · exact reads_section_none hlen (by omega) hshoff
        (Nat.le_trans (shdrPos_succ_le hi) hle) htype hread
  · rw [Classical.not_imp] at hfits
    have hn0 : im.ehdr.shnum.toNat ≠ 0 := fun hzero =>
      hfits.1 (BitVec.eq_of_toNat_eq hzero)
    exact loop_none (Shdr.decode im.order c)
      (fun i => ("cannot find elf program header " ++ toString i,
        "EOF while reading section header " ++ toString i))
      (fun i => rfl) (fun i hi hshoff => exists_reads_section hlen hi hshoff) (shdr_bytes c) hn hn0
      (hne hfits.1) hfits.2

/-! ## The constructor -/

/-- The file starts like an ELF file of the class. -/
structure Identified (im : Image c) : Prop where
  magic : im.data.take 4 = [0x7f, 'E'.toUInt8, 'L'.toUInt8, 'F'.toUInt8]
  elfClass : im.data[4]? = some 2 ↔ c = .elf64

/-- No table starts at the offset that the reader cannot tell from a failed seek. -/
structure Seekable (im : Image c) : Prop where
  phoff : im.ehdr.phnum ≠ 0 → im.ehdr.phoff.setWidth 64 ≠ (-1 : BitVec 64)
  shoff : im.ehdr.shnum ≠ 0 → im.ehdr.shoff.setWidth 64 ≠ (-1 : BitVec 64)

/-- The identification leads to the part of the constructor for the class. -/
theorem elf_run (h : im.Identified) (hle : 16 ≤ im.data.length) (filename : Bytes) :
    (elf im.order filename).run { data := im.data, pos := 0 } =
      (construct im.order filename c (im.data[5]? = some 2)).run
        { data := im.data, pos := 16 } := by
  have hident : ((im.data.drop 0).take 16).length = 16 := by
    rw [List.length_take, List.length_drop]
    omega
  have hfour : ((im.data.drop 0).take 16)[4]? = im.data[4]? := by
    rw [List.drop_zero, List.getElem?_take_of_lt (by decide)]
  have hfive : ((im.data.drop 0).take 16)[5]? = im.data[5]? := by
    rw [List.drop_zero, List.getElem?_take_of_lt (by decide)]
  have hmagic : ((im.data.drop 0).take 16).take 4 =
      [0x7f, 'E'.toUInt8, 'L'.toUInt8, 'F'.toUInt8] := by
    rw [List.drop_zero, List.take_take]
    exact h.magic
  have hread : ∀ message, (readExactly 16 message).run { data := im.data, pos := 0 } =
      .ok ((im.data.drop 0).take 16, { data := im.data, pos := 16 }) :=
    fun message => readExactly_run hident message
  rw [elf, run_bind_of_ok (hread _), if_neg (not_not.mpr hmagic), hfour, hfive]
  by_cases hc : c = .elf64
  · rw [if_pos (h.elfClass.mpr hc)]
    subst hc
    rfl
  · rw [if_neg fun hfour => hc (h.elfClass.mp hfour)]
    cases c with
    | elf32 => rfl
    | elf64 => exact absurd rfl hc

theorem ehdr_run (h : 16 + Ehdr.bytes c ≤ im.data.length) (message : String) :
    (readExactly (Ehdr.bytes c) message).run { data := im.data, pos := 16 } =
      .ok (slice im.data 16 (Ehdr.bytes c),
        { data := im.data, pos := 16 + Ehdr.bytes c }) :=
  readExactly_run (slice_length.mpr (.inr h)) message

/-- The constructor behind the header of the file. -/
def finish (host : ByteOrder) (hdr : Ehdr c) (bigEndian : Bool) : Fd ElfFile := do
  let segments ← readSegments host hdr
  let symbols ← readSymbols host hdr
  return {
    entry := hdr.entry.setWidth 64
    machine := hdr.machine
    bigEndian := bigEndian
    asize := c.bits / 8
    segments := segments
    symbols := symbols.map fun sym => { sym with phys := toPhys segments sym.virt } }

/-- The constructor makes the object of an accepted image. -/
theorem openElf_of_accepted (hlen : im.data.length < 2 ^ 63) (hident : im.Identified)
    (h : im.Accepted) (filename : Bytes) :
    ∃ file, openElf im.order filename (some im.data) =
      .ok (im.toElf (im.data[5]? = some 2), file) := by
  have hphdrs := reads_phdrs hlen im.ehdr.phnum.isLt fun hne =>
    h.phdrs fun hzero => hne (by rw [hzero]; rfl)
  have hsegments : Reads im.data (readSegments im.order im.ehdr) (some _) :=
    hphdrs.bind_some (Reads.pure _)
  have hsymbols := reads_symbols hlen h.shdrs h.symtabs
  have htail : Reads im.data (finish im.order im.ehdr (im.data[5]? = some 2))
      (some (im.toElf (im.data[5]? = some 2))) :=
    hsegments.bind_some (hsymbols.bind_some (Reads.pure _))
  rcases htail (16 + Ehdr.bytes c) with ⟨pos, hrun⟩
  refine ⟨{ data := im.data, pos := pos }, ?_⟩
  refine (elf_run hident (Nat.le_trans (Nat.le_add_right _ _) h.ehdr) filename).trans ?_
  exact (run_bind_of_ok (ehdr_run h.ehdr _)).trans hrun

/-- It aborts on any other image. -/
theorem openElf_of_not_accepted (hlen : im.data.length < 2 ^ 63) (hident : im.Identified)
    (hle : 16 ≤ im.data.length) (hseek : im.Seekable) (h : ¬ im.Accepted) (filename : Bytes) :
    ∃ fault, openElf im.order filename (some im.data) = .error fault := by
  suffices herror : ∃ fault, (construct im.order filename c (im.data[5]? = some 2)).run
      { data := im.data, pos := 16 } = .error fault by
    rcases herror with ⟨fault, herror⟩
    exact ⟨fault, (elf_run hident hle filename).trans herror⟩
  by_cases hehdr : 16 + Ehdr.bytes c ≤ im.data.length
  · have htail : Reads im.data (finish im.order im.ehdr (im.data[5]? = some 2)) none := by
      by_cases hphdrs : im.ehdr.phnum ≠ 0 → im.phdrPos im.ehdr.phnum.toNat ≤ im.data.length
      · have hreads := reads_phdrs hlen im.ehdr.phnum.isLt fun hne =>
          hphdrs fun hzero => hne (by rw [hzero]; rfl)
        have hsegments : Reads im.data (readSegments im.order im.ehdr) (some _) :=
          hreads.bind_some (Reads.pure _)
        refine hsegments.bind_some (Reads.bind_none (reads_symbols_none hlen hseek.shoff ?_))
        rintro ⟨hshdrs, hsymtabs⟩
        exact h ⟨hehdr, hphdrs, hshdrs, hsymtabs⟩
      · rw [Classical.not_imp] at hphdrs
        have hn0 : im.ehdr.phnum.toNat ≠ 0 := fun hzero =>
          hphdrs.1 (BitVec.eq_of_toNat_eq hzero)
        exact Reads.bind_none (Reads.bind_none (reads_phdrs_none hlen im.ehdr.phnum.isLt
          (hseek.phoff hphdrs.1) hn0 hphdrs.2))
    rcases htail (16 + Ehdr.bytes c) with ⟨fault, hrun⟩
    exact ⟨fault, (run_bind_of_ok (ehdr_run hehdr _)).trans hrun⟩
  · have hnot : ((im.data.drop 16).take (Ehdr.bytes c)).length ≠ Ehdr.bytes c := by
      intro hlength
      rcases slice_length.mp hlength with hzero | hle
      · cases c <;> cases hzero
      · exact hehdr hle
    exact ⟨_, run_bind_of_error (readExactly_run_error hnot _)⟩

end Image

end Mwr.Elf
