import Mwr.CodeLib.Exec
import Mwr.CodeLib.Saturation
import Mwr.Logging.Output
import Mwr.Stl.Numbers

/-!
# The frames of a backtrace

`backtrace` of `src/mwr/core/report.cpp` on Linux.  The C library describes a frame by a line of
text, as in `lib.so(symbol+0x1c) [0x7f00]`, and the function looks for the parentheses and the plus
in it.  The loop that does so goes two characters ahead where it finds one of them.

* `findMarks` is the loop, `symbolOf` what is made of a line, and `Described` the lines that there
  are.
* `leave` says how the loop comes out of the path of a module, and the lemmas `findMarks_*` follow
  it.
* `symbolOf_named_iff` says for which paths the symbols are found, and `backtrace_reads` is the
  result for a whole stack.
-/

namespace Mwr.Logging

open Mwr.CodeLib (Bytes)
open Mwr.CodeLib.Bytes (str)
open Mwr.CodeLib.Digits
open Mwr.CodeLib.Exec (mapM_forall₂)
open Mwr.CodeLib.Saturation
open Mwr.Numbers (takeSign)
open Mwr.Strings (isspace)

/-! ## The code -/

/-- Where `func`, `offset` and `end` point to in a line. -/
structure Marks where
  func : Option Nat
  offset : Option Nat
  stop : Option Nat
  deriving DecidableEq, Repr

/-- The loop over the characters of a line, of which the list begins at position `p`.  The null
character stands behind the list, and what is read behind that one is not part of the line. -/
def findMarks (p : Nat) : Bytes → Marks → Except Fault Marks
  | [], marks => .ok marks
  | ch :: rest, marks =>
    if ch = '('.toUInt8 then
      match rest with
      | [] => .error .segfault
      | _ :: rest => findMarks (p + 2) rest { marks with func := some p }
    else if ch = '+'.toUInt8 then
      match rest with
      | [] => .error .segfault
      | _ :: rest => findMarks (p + 2) rest { marks with offset := some p }
    else if ch = ')'.toUInt8 then .ok { marks with stop := some p }
    else findMarks (p + 1) rest marks

/-- `strtol(s, NULL, 16)`. -/
def strtol (s : Bytes) : Int :=
  let (negative, s) := takeSign (s.dropWhile isspace)
  let marked := s.head? = some '0'.toUInt8 ∧
    (s.tail.head? = some 'x'.toUInt8 ∨ s.tail.head? = some 'X'.toUInt8)
  let n : Int := value 16 ((if marked then s.drop 2 else s).takeWhile (isDigit 16))
  clamp (-2 ^ 63) (2 ^ 63 - 1) (if negative then -n else n)

/-- What a line has in parentheses: the argument of `demangle`, and the offset. -/
def symbolOf (line : Bytes) : Except Fault (Option (Bytes × UInt64)) := do
  match ← findMarks 0 line ⟨none, none, none⟩ with
  | ⟨some func, some offset, some stop⟩ =>
    let line := ((line.set func 0).set offset 0).set stop 0
    return some (cStr (line.drop (func + 1)), .ofInt (strtol (cStr (line.drop (offset + 1)))))
  | _ => return none

/-- A round of the loop over the frames.  `junk` is an offset that nothing is assigned to. -/
def stackframe (demangle : Bytes → Bytes) (junk : UInt64) (address : UInt64) (line : Bytes) :
    Except Fault Stackframe := do
  match ← symbolOf line with
  | some (func, offset) => return ⟨address, demangle func, offset⟩
  | none => return ⟨address, [], junk⟩

/-- `backtrace(frames, skip)`.  The stack has the addresses that the program is at, each with the
line that the C library has for it. -/
def backtrace (demangle : Bytes → Bytes) (junk : UInt64) (stack : List (UInt64 × Bytes))
    (frames skip : Nat) : Except Fault (List Stackframe) :=
  let symbols := stack.take (frames + skip)
  if symbols.length ≤ skip then .ok []
  else (symbols.drop skip).mapM fun (address, line) => stackframe demangle junk address line

/-! ## The lines -/

/-- What the C library says about a frame. -/
inductive Described where
  | named (path symbol : Bytes) (offset : Nat)
  | unnamed (path : Bytes) (offset : Nat)
  | bare (path : Bytes)
  | unknown

/-- A number in the format `%#x`. -/
def hexNumber (n : Nat) : Bytes := if n = 0 then str "0" else str "0x" ++ numeral 16 n

/-- The end of a line. -/
def atAddress (address : UInt64) : Bytes := str "[0x" ++ numeral 16 address.toNat ++ str "]"

/-- The line for a frame. -/
def Described.text (address : UInt64) : Described → Bytes
  | named path symbol offset =>
    path ++ str "(" ++ symbol ++ str "+" ++ hexNumber offset ++ str ") " ++ atAddress address
  | unnamed path offset => path ++ str "(+" ++ hexNumber offset ++ str ") " ++ atAddress address
  | bare path => path ++ str "() " ++ atAddress address
  | unknown => atAddress address

/-- A text without a character that the loop looks for. -/
def Plain (s : Bytes) : Prop := ∀ ch ∈ s, ch ≠ '('.toUInt8 ∧ ch ≠ '+'.toUInt8 ∧ ch ≠ ')'.toUInt8

/-- How the loop comes out of a text. -/
inductive Leave where
  /-- It stands behind the text. -/
  | whole
  /-- It is one character further. -/
  | beyond
  /-- It has ended in the text. -/
  | inside
  deriving DecidableEq, Repr

/-- How the loop comes out of the path of a module. -/
def leave : Bytes → Leave
  | [] => .whole
  | ch :: rest =>
    if ch = '('.toUInt8 ∨ ch = '+'.toUInt8 then
      match rest with
      | [] => .beyond
      | _ :: rest => leave rest
    else if ch = ')'.toUInt8 then .inside
    else leave rest

/-! ## The loop -/

/-- A text that does not end with a mark. -/
def Closed (s : Bytes) : Prop := ∀ ch ∈ s.getLast?, ch ≠ '('.toUInt8 ∧ ch ≠ '+'.toUInt8

theorem Closed.tail {ch : UInt8} {s : Bytes} (h : Closed (ch :: s)) : Closed s := by
  cases s with
  | nil =>
    intro ch' hch'
    cases hch'
  | cons ch' s =>
    rw [Closed, List.getLast?_cons_cons] at h
    exact h

/-- The loop reads nothing behind a line that does not end with a mark. -/
theorem findMarks_ok {line : Bytes} (p : Nat) (marks : Marks) (h : Closed line) :
    ∃ marks', findMarks p line marks = .ok marks' := by
  fun_induction findMarks p line marks with
  | case1 p marks => exact ⟨marks, rfl⟩
  | case2 p marks => exact absurd rfl (h _ rfl).1
  | case3 p marks ch rest ih => exact ih h.tail.tail
  | case4 p marks hne => exact absurd rfl (h _ rfl).2
  | case5 p marks hne ch rest ih => exact ih h.tail.tail
  | case6 p rest marks hne hne' => exact ⟨_, rfl⟩
  | case7 p ch rest marks hne hne' hne'' ih => exact ih h.tail

theorem findMarks_stop (rest : Bytes) (p : Nat) (marks : Marks) :
    findMarks p (')'.toUInt8 :: rest) marks = .ok { marks with stop := some p } := by
  rw [findMarks.eq_def]
  simp only [show ¬ ')'.toUInt8 = '('.toUInt8 by decide, show ¬ ')'.toUInt8 = '+'.toUInt8 by decide,
    if_false, if_true]

/-- The loop goes on behind a plain text. -/
theorem findMarks_plain {s : Bytes} (h : Plain s) (p : Nat) (rest : Bytes) (marks : Marks) :
    findMarks p (s ++ rest) marks = findMarks (p + s.length) rest marks := by
  induction s generalizing p with
  | nil => rfl
  | cons ch s ih =>
    obtain ⟨hfunc, hoffset, hstop⟩ := h ch List.mem_cons_self
    rw [List.cons_append, findMarks.eq_def]
    simp only [hfunc, hoffset, hstop, if_false]
    rw [ih (fun ch' hch' => h ch' (List.mem_cons_of_mem _ hch')), List.length_cons,
      Nat.add_right_comm, Nat.add_assoc]

/-- The loop goes over the character behind a parenthesis. -/
theorem findMarks_skip (p : Nat) (ch : UInt8) (rest : Bytes) (marks : Marks) :
    findMarks p ('('.toUInt8 :: ch :: rest) marks =
      findMarks (p + 2) rest { marks with func := some p } := rfl

/-- The marks that have been found stand before a position. -/
def Marks.Before (marks : Marks) (p : Nat) : Prop :=
  (∀ i ∈ marks.func, i < p) ∧ (∀ i ∈ marks.offset, i < p)

theorem Marks.Before.mono {marks : Marks} {p q : Nat} (h : marks.Before p) (hpq : p ≤ q) :
    marks.Before q :=
  ⟨fun i hi => Nat.lt_of_lt_of_le (h.1 i hi) hpq, fun i hi => Nat.lt_of_lt_of_le (h.2 i hi) hpq⟩

theorem Marks.Before.func {marks : Marks} {p : Nat} (h : marks.Before p) :
    Marks.Before { marks with func := some p } (p + 1) := by
  refine ⟨fun i hi => ?_, (h.mono (Nat.le_succ p)).2⟩
  cases hi
  exact Nat.lt_succ_self p

theorem Marks.Before.offset {marks : Marks} {p : Nat} (h : marks.Before p) :
    Marks.Before { marks with offset := some p } (p + 1) := by
  refine ⟨(h.mono (Nat.le_succ p)).1, fun i hi => ?_⟩
  cases hi
  exact Nat.lt_succ_self p

/-- What the loop has found when it comes out of a path. -/
def Leave.Finds (path : Bytes) (p : Nat) (marks marks' : Marks) : Leave → Prop
  | whole => marks'.Before (p + path.length) ∧
      ∀ rest, findMarks p (path ++ rest) marks = findMarks (p + path.length) rest marks'
  | beyond => marks'.Before (p + path.length) ∧
      ∀ ch rest, findMarks p (path ++ ch :: rest) marks =
        findMarks (p + path.length + 1) rest marks'
  | inside => ∃ stop, marks'.stop = some stop ∧ stop < p + path.length ∧ marks'.Before stop ∧
      ∀ rest, findMarks p (path ++ rest) marks = .ok marks'

/-- What it finds behind a mark and the character after it, or behind another character. -/
theorem Leave.Finds.step {l : Leave} (pre : Bytes) {path : Bytes} {p : Nat}
    {marks marks₁ marks' : Marks} (h : l.Finds path (p + pre.length) marks₁ marks')
    (hstep : ∀ rest, findMarks p (pre ++ rest) marks = findMarks (p + pre.length) rest marks₁) :
    l.Finds (pre ++ path) p marks marks' := by
  have hlength : p + (pre ++ path).length = p + pre.length + path.length := by
    rw [List.length_append, Nat.add_assoc]
  cases l with
  | whole =>
    rw [Leave.Finds, hlength]
    exact ⟨h.1, fun rest => by rw [List.append_assoc, hstep, h.2]⟩
  | beyond =>
    rw [Leave.Finds, hlength]
    exact ⟨h.1, fun ch rest => by rw [List.append_assoc, hstep, h.2]⟩
  | inside =>
    obtain ⟨stop, hstop, hlt, hbefore, hrest⟩ := h
    exact ⟨stop, hstop, hlength ▸ hlt, hbefore,
      fun rest => by rw [List.append_assoc, hstep, hrest]⟩

theorem finds_leave (path : Bytes) (p : Nat) (marks : Marks) (h : marks.Before p) :
    ∃ marks', (leave path).Finds path p marks marks' := by
  fun_induction leave path generalizing p marks with
  | case1 => exact ⟨marks, h, fun rest => rfl⟩
  | case2 ch hch =>
    rcases hch with rfl | rfl
    · exact ⟨_, h.func, fun ch rest => rfl⟩
    · exact ⟨_, h.offset, fun ch rest => rfl⟩
  | case3 ch hch ch' rest ih =>
    rcases hch with rfl | rfl
    · obtain ⟨marks', hmarks'⟩ := ih (p + 2) _ (h.func.mono (Nat.le_succ _))
      exact ⟨marks', hmarks'.step ['('.toUInt8, ch'] fun rest => rfl⟩
    · obtain ⟨marks', hmarks'⟩ := ih (p + 2) _ (h.offset.mono (Nat.le_succ _))
      exact ⟨marks', hmarks'.step ['+'.toUInt8, ch'] fun rest => rfl⟩
  | case4 rest hne =>
    exact ⟨{ marks with stop := some p }, p, rfl, by simp, h, fun _ => findMarks_stop _ p marks⟩
  | case5 ch rest hne hstop ih =>
    obtain ⟨marks', hmarks'⟩ := ih (p + 1) marks (h.mono (Nat.le_succ p))
    rw [not_or] at hne
    refine ⟨marks', hmarks'.step [ch] fun rest => ?_⟩
    exact findMarks_plain (s := [ch]) (by simpa [Plain] using ⟨hne.1, hne.2, hstop⟩) p rest marks

/-! ## The line of a symbol -/

theorem cStr_append_zero {s : Bytes} (h : 0 ∉ s) (rest : Bytes) : cStr (s ++ 0 :: rest) = s := by
  rw [cStr, List.takeWhile_append_of_pos, List.takeWhile_cons_of_neg (by simp), List.append_nil]
  intro ch hch
  exact decide_eq_true fun hzero => h (hzero ▸ hch)

/-- A digit of the base 16 is plain, and neither a blank nor a sign nor a null character. -/
theorem plain_of_isDigit {ch : UInt8} (h : isDigit 16 ch = true) :
    ch ≠ '('.toUInt8 ∧ ch ≠ '+'.toUInt8 ∧ ch ≠ ')'.toUInt8 ∧ ch ≠ 0 := by
  refine ⟨?_, ?_, ?_, ?_⟩
  all_goals
    rintro rfl
    exact absurd h (by decide)

theorem plain_hexNumber (n : Nat) : Plain (hexNumber n) ∧ 0 ∉ hexNumber n := by
  have hall : ∀ ch ∈ hexNumber n,
      ch ≠ '('.toUInt8 ∧ ch ≠ '+'.toUInt8 ∧ ch ≠ ')'.toUInt8 ∧ ch ≠ 0 := by
    intro ch hch
    rw [hexNumber] at hch
    split at hch
    · rw [List.mem_singleton.1 hch]
      decide
    · rcases List.mem_append.1 hch with hch | hch
      · have hmark : ch ∈ ['0'.toUInt8, 'x'.toUInt8] := hch
        rcases List.mem_pair.1 hmark with rfl | rfl <;> decide
      · exact plain_of_isDigit (isDigit_of_mem_numeral (by decide) (by decide) hch)
  exact ⟨fun ch hch => ⟨(hall ch hch).1, (hall ch hch).2.1, (hall ch hch).2.2.1⟩,
    fun hzero => (hall 0 hzero).2.2.2 rfl⟩

theorem hexNumber_ne_nil (n : Nat) : hexNumber n ≠ [] := by
  rw [hexNumber]
  split
  · decide
  · exact List.cons_ne_nil _ _

/-- An offset is read as it is printed. -/
theorem strtol_hexNumber {n : Nat} (hn : n < 2 ^ 63) : strtol (hexNumber n) = n := by
  have hin : clamp (-2 ^ 63) (2 ^ 63 - 1) (n : Int) = n := by
    refine clamp_of_not_outside ?_
    rw [Outside]
    omega
  by_cases hzero : n = 0
  · subst hzero
    decide +kernel
  · have hdigits : (numeral 16 n).takeWhile (isDigit 16) = numeral 16 n :=
      List.takeWhile_eq_self_iff.2 fun ch => isDigit_of_mem_numeral (by decide) (by decide)
    have hvalue : value 16 (numeral 16 n) = n := value_numeral (by decide) (by decide) n
    rw [hexNumber, if_neg hzero]
    show clamp (-2 ^ 63) (2 ^ 63 - 1)
      (Nat.cast (value 16 ((numeral 16 n).takeWhile (isDigit 16)))) = _
    rw [hdigits, hvalue, hin]

theorem set_append_cons (xs : Bytes) {i : Nat} (hi : i = xs.length) (x y : UInt8) (ys : Bytes) :
    (xs ++ x :: ys).set i y = xs ++ y :: ys := by
  rw [hi, List.set_append_right _ _ (Nat.le_refl _), Nat.sub_self, List.set_cons_zero]

/-- The null characters at the plus and at the end of the parentheses. -/
theorem set_offset_stop (xs ys zs : Bytes) {i j : Nat} (hi : i = xs.length + ys.length)
    (hj : j = i + 1 + zs.length) (y z : UInt8) (rest : Bytes) :
    ((xs ++ (ys ++ y :: (zs ++ z :: rest))).set i 0).set j 0 =
      xs ++ (ys ++ 0 :: (zs ++ 0 :: rest)) := by
  have hoffset := set_append_cons (xs ++ ys) (i := i) (by rw [hi, List.length_append]) y 0
    (zs ++ z :: rest)
  have hstop := set_append_cons (xs ++ ys ++ 0 :: zs) (i := j)
    (by rw [hj, hi, List.length_append, List.length_append, List.length_cons]; omega) z 0 rest
  rw [List.append_assoc] at hoffset
  rw [List.append_assoc, List.append_assoc, List.cons_append] at hstop
  rw [hoffset, List.append_assoc, hstop, List.append_assoc, List.append_assoc, List.cons_append]

/-- From the opening parenthesis of a symbol to the closing one. -/
theorem findMarks_symbol {symbol : Bytes} (hsymbol : Plain symbol) (offset p : Nat)
    (rest : Bytes) (marks : Marks) :
    findMarks p (symbol ++ '+'.toUInt8 :: (hexNumber offset ++ ')'.toUInt8 :: rest)) marks =
      .ok { marks with
        offset := some (p + symbol.length)
        stop := some (p + symbol.length + 1 + (hexNumber offset).length) } := by
  rw [findMarks_plain hsymbol]
  obtain ⟨digit, digits, hdigits⟩ := List.exists_cons_of_ne_nil (hexNumber_ne_nil offset)
  have hplain := (plain_hexNumber offset).1
  rw [hdigits] at hplain ⊢
  have hskip : findMarks (p + symbol.length)
      ('+'.toUInt8 :: (digit :: digits ++ ')'.toUInt8 :: rest)) marks =
        findMarks (p + symbol.length + 2) (digits ++ ')'.toUInt8 :: rest)
          { marks with offset := some (p + symbol.length) } := rfl
  rw [hskip, findMarks_plain fun ch hch => hplain ch (List.mem_cons_of_mem _ hch), findMarks_stop,
    List.length_cons]
  simp only [Except.ok.injEq, Marks.mk.injEq, Option.some.injEq, true_and]
  omega

theorem ofInt_natCast (n : Nat) : UInt64.ofInt n = .ofNat n := by
  rw [UInt64.ofInt, ← UInt64.toNat_inj, UInt64.toNat_ofNat', UInt64.toNat_ofNat']
  omega

/-- A line with all three marks. -/
theorem symbolOf_of_findMarks {line cut : Bytes} {func offset stop : Nat}
    (h : findMarks 0 line ⟨none, none, none⟩ = .ok ⟨some func, some offset, some stop⟩)
    (hcut : ((line.set func 0).set offset 0).set stop 0 = cut) :
    symbolOf line = .ok (some (cStr (cut.drop (func + 1)),
      .ofInt (strtol (cStr (cut.drop (offset + 1)))))) := by
  rw [symbolOf, h, ← hcut]
  rfl

/-- The parts of a line with a symbol. -/
theorem text_named (path symbol : Bytes) (offset : Nat) (address : UInt64) :
    (Described.named path symbol offset).text address = path ++ '('.toUInt8 ::
      (symbol ++ '+'.toUInt8 :: (hexNumber offset ++ ')'.toUInt8 ::
        (' '.toUInt8 :: atAddress address))) := by
  simp only [Described.text, List.append_assoc]
  rfl

/-- A line with all three marks, the last two of which are the right ones. -/
theorem symbolOf_marked {pre symbol rest : Bytes} {offset : Nat} (func : Nat)
    (hfunc : func < pre.length) (hoffset : offset < 2 ^ 63)
    (h : findMarks 0 (pre ++ (symbol ++ '+'.toUInt8 :: (hexNumber offset ++ ')'.toUInt8 :: rest)))
      ⟨none, none, none⟩ = .ok ⟨some func, some (pre.length + symbol.length),
        some (pre.length + symbol.length + 1 + (hexNumber offset).length)⟩) :
    symbolOf (pre ++ (symbol ++ '+'.toUInt8 :: (hexNumber offset ++ ')'.toUInt8 :: rest))) =
      .ok (some (cStr (pre.drop (func + 1) ++ (symbol ++ 0 :: (hexNumber offset ++ 0 :: rest))),
        .ofNat offset)) := by
  have hbuffer := set_offset_stop (pre.set func 0) symbol (hexNumber offset)
    (i := pre.length + symbol.length) (by rw [List.length_set]) rfl '+'.toUInt8 ')'.toUInt8 rest
  have hnumber : cStr ((pre.set func 0 ++ (symbol ++ 0 :: (hexNumber offset ++ 0 :: rest))).drop
      (pre.length + symbol.length + 1)) = hexNumber offset := by
    have hlength : (pre.set func 0 ++ symbol ++ [0]).length = pre.length + symbol.length + 1 := by
      rw [List.length_append, List.length_append, List.length_set]
      rfl
    have hlist : pre.set func 0 ++ (symbol ++ 0 :: (hexNumber offset ++ 0 :: rest)) =
        pre.set func 0 ++ symbol ++ [0] ++ (hexNumber offset ++ 0 :: rest) := by
      simp only [List.append_assoc, List.singleton_append]
    rw [hlist, ← hlength, List.drop_left, cStr_append_zero (plain_hexNumber offset).2]
  rw [← List.set_append_left _ _ hfunc] at hbuffer
  rw [symbolOf_of_findMarks h hbuffer, hnumber, strtol_hexNumber hoffset, ofInt_natCast,
    List.drop_append_of_le_length (by rw [List.length_set]; exact hfunc),
    List.drop_set_of_lt (Nat.lt_succ_self func)]

/-- The line of a symbol in a module whose path the loop leaves in the right place. -/
theorem symbolOf_named {path symbol : Bytes} {offset : Nat} (hleave : leave path = .whole)
    (hplain : Plain symbol) (hnull : 0 ∉ symbol) (hne : symbol ≠ []) (hoffset : offset < 2 ^ 63)
    (address : UInt64) :
    symbolOf ((Described.named path symbol offset).text address) =
      .ok (some (symbol, .ofNat offset)) := by
  obtain ⟨ch, rest, rfl⟩ := List.exists_cons_of_ne_nil hne
  obtain ⟨marks, hmarks⟩ := finds_leave path 0 ⟨none, none, none⟩ ⟨by simp, by simp⟩
  rw [hleave] at hmarks
  have hrest : Plain rest := fun ch hch => hplain ch (List.mem_cons_of_mem _ hch)
  have hfind := (hmarks.2 _).trans ((findMarks_skip (0 + path.length) ch _ marks).trans
    (findMarks_symbol hrest offset _ (' '.toUInt8 :: atAddress address) _))
  rw [text_named, List.append_cons path, symbolOf_marked path.length (by simp) hoffset,
    List.drop_eq_nil_of_le (by simp), List.nil_append, cStr_append_zero hnull]
  rw [← List.append_cons path, List.cons_append, hfind]
  simp only [Except.ok.injEq, Marks.mk.injEq, Option.some.injEq, List.length_append,
    List.length_cons, List.length_nil]
  omega

/-! ## The other paths -/

theorem length_cStr_le {s : Bytes} {k : Nat} (h : s[k]? = some 0) : (cStr s).length ≤ k := by
  induction s generalizing k with
  | nil => cases h
  | cons ch s ih =>
    cases k with
    | zero =>
      rw [List.getElem?_cons_zero, Option.some.injEq] at h
      rw [cStr, List.takeWhile_cons_of_neg (by simp [h])]
      exact Nat.le_refl 0
    | succ k =>
      rw [List.getElem?_cons_succ] at h
      rw [cStr, List.takeWhile_cons]
      split
      · exact Nat.succ_le_succ (ih h)
      · exact Nat.zero_le _

/-- A symbol that is found in the path is no longer than the path. -/
theorem length_of_inside {path rest : Bytes} {marks : Marks} {symbol : Bytes} {offset : UInt64}
    (h : Leave.Finds path 0 ⟨none, none, none⟩ marks .inside)
    (hsymbol : symbolOf (path ++ rest) = .ok (some (symbol, offset))) :
    symbol.length ≤ path.length := by
  obtain ⟨stop, hstop, hlt, hbefore, hrest⟩ := h
  have hfind := hrest rest
  obtain ⟨func, offset, stop'⟩ := marks
  cases hstop
  cases func with
  | none =>
    rw [symbolOf, hfind] at hsymbol
    cases hsymbol
  | some func =>
    cases offset with
    | none =>
      rw [symbolOf, hfind] at hsymbol
      cases hsymbol
    | some offset =>
      have hfunc : func < stop := hbefore.1 func rfl
      rw [symbolOf_of_findMarks hfind rfl, Except.ok.injEq, Option.some.injEq,
        Prod.mk.injEq] at hsymbol
      have hzero : ((((path ++ rest).set func 0).set offset 0).set stop 0)[stop]? = some 0 := by
        refine List.getElem?_set_self ?_
        rw [List.length_set, List.length_set, List.length_append]
        omega
      have hle : symbol.length ≤ stop - (func + 1) := by
        rw [← hsymbol.1]
        refine length_cStr_le ?_
        rw [List.getElem?_drop, Nat.add_sub_cancel' hfunc, hzero]
      omega

/-- A symbol that is found behind a path that hides the parenthesis has another length. -/
theorem symbolOf_of_beyond {path symbol : Bytes} {marks : Marks} {offset : Nat}
    (h : Leave.Finds path 0 ⟨none, none, none⟩ marks .beyond) (hplain : Plain symbol)
    (hnull : 0 ∉ symbol) (hlength : path.length < symbol.length) (hoffset : offset < 2 ^ 63)
    (address : UInt64) (value : UInt64) :
    symbolOf ((Described.named path symbol offset).text address) ≠ .ok (some (symbol, value)) := by
  have hfind := (h.2 '('.toUInt8 _).trans
    (findMarks_symbol hplain offset _ (' '.toUInt8 :: atAddress address) marks)
  rw [text_named]
  obtain ⟨func, offset', stop⟩ := marks
  intro hsymbol
  cases func with
  | none =>
    rw [symbolOf, hfind] at hsymbol
    cases hsymbol
  | some func =>
    have hfunc : func < 0 + path.length := h.1.1 func rfl
    have hpre : (path ++ ['('.toUInt8]).length = path.length + 1 := by
      rw [List.length_append, List.length_singleton]
    rw [Nat.zero_add] at hfunc hfind
    rw [List.append_cons path] at hsymbol hfind
    rw [symbolOf_marked func (by omega) hoffset (by rw [hfind, hpre]), Except.ok.injEq,
      Option.some.injEq, Prod.mk.injEq] at hsymbol
    have htext := congrArg List.length hsymbol.1
    rw [cStr, List.takeWhile_append] at htext
    have hdrop : ((path ++ ['('.toUInt8]).drop (func + 1)).length = path.length - func := by
      rw [List.length_drop, hpre]
      omega
    split at htext
    · -- the text has the parenthesis in front of the symbol
      rw [List.length_append, ← cStr, cStr_append_zero hnull] at htext
      omega
    · -- the text ends in the path
      have hle := (List.takeWhile_sublist (· ≠ 0)
        (l := (path ++ ['('.toUInt8]).drop (func + 1))).length_le
      omega

/-- The symbols of a module are found exactly if the loop comes out of the module's path in the
right place. -/
theorem symbolOf_named_iff (path : Bytes) :
    (∀ symbol offset address, Plain symbol → 0 ∉ symbol → symbol ≠ [] → offset < 2 ^ 63 →
      symbolOf ((Described.named path symbol offset).text address) =
        .ok (some (symbol, .ofNat offset))) ↔ leave path = .whole := by
  refine ⟨fun h => ?_, fun h symbol offset address hplain hnull hne hoffset =>
    symbolOf_named h hplain hnull hne hoffset address⟩
  -- a symbol that is longer than the path cannot be taken from it
  have hall : ∀ ch ∈ List.replicate (path.length + 1) 'a'.toUInt8, ch = 'a'.toUInt8 :=
    fun ch hch => (List.mem_replicate.1 hch).2
  have hplain : Plain (List.replicate (path.length + 1) 'a'.toUInt8) := by
    intro ch hch
    rw [hall ch hch]
    decide
  have hnull : 0 ∉ List.replicate (path.length + 1) 'a'.toUInt8 :=
    fun hzero => absurd (hall 0 hzero) (by decide)
  have hright := h _ 0 0 hplain hnull (by simp) (by decide)
  obtain ⟨marks, hmarks⟩ := finds_leave path 0 ⟨none, none, none⟩ ⟨by simp, by simp⟩
  cases hleave : leave path with
  | whole => rfl
  | beyond =>
    rw [hleave] at hmarks
    exact absurd hright (symbolOf_of_beyond hmarks hplain hnull (by simp) (by decide) 0 _)
  | inside =>
    rw [hleave] at hmarks
    rw [text_named] at hright
    have hle := length_of_inside hmarks hright
    rw [List.length_replicate] at hle
    omega

/-! ## The stack -/

/-- A line that can be read: the loop comes out of the path in the right place, and a symbol is one
that compilers make. -/
def Described.Readable : Described → Prop
  | named path symbol offset =>
    leave path = .whole ∧ Plain symbol ∧ 0 ∉ symbol ∧ symbol ≠ [] ∧ offset < 2 ^ 63
  | unnamed path _ | bare path => Plain path
  | unknown => True

/-- What should be in a frame. -/
def Described.Shown (demangle : Bytes → Bytes) (frame : Stackframe) : Described → Prop
  | named _ symbol offset => frame.symbol = demangle symbol ∧ frame.offset = .ofNat offset
  | _ => frame.symbol = []

theorem plain_atAddress (address : UInt64) : Plain (atAddress address) := by
  intro ch hch
  rcases List.mem_append.1 hch with hch | hch
  · rcases List.mem_append.1 hch with hch | hch
    · have hmark : ch ∈ ['['.toUInt8, '0'.toUInt8, 'x'.toUInt8] := hch
      simp only [List.mem_cons, List.not_mem_nil, or_false] at hmark
      rcases hmark with rfl | rfl | rfl <;> decide
    · have hplain := plain_of_isDigit (isDigit_of_mem_numeral (by decide) (by decide) hch)
      exact ⟨hplain.1, hplain.2.1, hplain.2.2.1⟩
  · rw [List.mem_singleton.1 hch]
    decide

theorem closed_text (address : UInt64) (d : Described) : Closed (d.text address) := by
  have hend : ∀ s : Bytes, Closed (s ++ atAddress address) := by
    intro s ch hch
    rw [atAddress, ← List.append_assoc, show str "]" = [']'.toUInt8] from rfl,
      List.getLast?_concat] at hch
    cases hch
    decide
  cases d with
  | named path symbol offset => exact hend _
  | unnamed path offset => exact hend _
  | bare path => exact hend _
  | unknown => exact hend []

/-- A line without a symbol. -/
theorem symbolOf_unnamed {path : Bytes} (hpath : Plain path) (offset : Nat) (address : UInt64) :
    symbolOf ((Described.unnamed path offset).text address) = .ok none := by
  have htext : (Described.unnamed path offset).text address = path ++ '('.toUInt8 ::
      '+'.toUInt8 :: (hexNumber offset ++ ')'.toUInt8 :: (' '.toUInt8 :: atAddress address)) := by
    simp only [Described.text, List.append_assoc]
    rfl
  -- the plus behind the parenthesis is not seen
  rw [symbolOf, htext, findMarks_plain hpath, findMarks_skip,
    findMarks_plain (plain_hexNumber offset).1, findMarks_stop]
  rfl

theorem symbolOf_bare {path : Bytes} (hpath : Plain path) (address : UInt64) :
    symbolOf ((Described.bare path).text address) = .ok none := by
  have htext : (Described.bare path).text address = path ++ '('.toUInt8 ::
      ')'.toUInt8 :: (' '.toUInt8 :: atAddress address ++ []) := by
    simp only [Described.text, List.append_assoc, List.append_nil]
    rfl
  have hrest : Plain (' '.toUInt8 :: atAddress address) := by
    intro ch hch
    rcases List.mem_cons.1 hch with rfl | hch
    · decide
    · exact plain_atAddress address ch hch
  rw [symbolOf, htext, findMarks_plain hpath, findMarks_skip, findMarks_plain hrest]
  rfl

theorem symbolOf_unknown (address : UInt64) :
    symbolOf (Described.unknown.text address) = .ok none := by
  rw [symbolOf, Described.text, ← List.append_nil (atAddress address),
    findMarks_plain (plain_atAddress address)]
  rfl

/-- A frame is made of each line, and of a readable one the right frame. -/
theorem stackframe_shown (demangle : Bytes → Bytes) (junk address : UInt64) (d : Described) :
    ∃ frame, stackframe demangle junk address (d.text address) = .ok frame ∧
      frame.address = address ∧ (d.Readable → d.Shown demangle frame) := by
  have hsome : ∃ found, symbolOf (d.text address) = .ok found := by
    obtain ⟨⟨func, offset, stop⟩, hmarks⟩ :=
      findMarks_ok 0 ⟨none, none, none⟩ (closed_text address d)
    rw [symbolOf, hmarks]
    cases func <;> cases offset <;> cases stop <;> exact ⟨_, rfl⟩
  have hright : d.Readable → symbolOf (d.text address) = .ok
      (match d with
      | .named _ symbol offset => some (symbol, .ofNat offset)
      | _ => none) := by
    intro h
    cases d with
    | named path symbol offset =>
      obtain ⟨hleave, hplain, hnull, hne, hoffset⟩ := h
      exact symbolOf_named hleave hplain hnull hne hoffset address
    | unnamed path offset => exact symbolOf_unnamed h offset address
    | bare path => exact symbolOf_bare h address
    | unknown => exact symbolOf_unknown address
  obtain ⟨found, hfound⟩ := hsome
  refine ⟨⟨address, (found.map fun f => demangle f.1).getD [], (found.map Prod.snd).getD junk⟩,
    ?_, rfl, fun h => ?_⟩
  · rw [stackframe, hfound]
    cases found <;> rfl
  · have heq := Except.ok.inj (hfound.symm.trans (hright h))
    cases d with
    | named path symbol offset =>
      rw [heq]
      exact ⟨rfl, rfl⟩
    | unnamed path offset | bare path | unknown =>
      rw [heq]
      rfl

/-- The backtrace has a frame for each line of the stack, the right one if the line can be read, and
no line is read beyond its end.  The symbols of a module are found exactly if the loop comes out of
its path in the right place. -/
theorem backtrace_reads :
    (∀ (demangle : Bytes → Bytes) (junk : UInt64) (stack : List (UInt64 × Described))
        (frames skip : Nat),
      ∃ bt, backtrace demangle junk (stack.map fun e => (e.1, e.2.text e.1)) frames skip = .ok bt ∧
        ((stack.take (frames + skip)).drop skip).Forall₂
          (fun e frame => frame.address = e.1 ∧ (e.2.Readable → e.2.Shown demangle frame)) bt) ∧
    ∀ path : Bytes,
      (∀ symbol offset address, Plain symbol → 0 ∉ symbol → symbol ≠ [] → offset < 2 ^ 63 →
        symbolOf ((Described.named path symbol offset).text address) =
          .ok (some (symbol, .ofNat offset))) ↔ leave path = .whole := by
  refine ⟨fun demangle junk stack frames skip => ?_, symbolOf_named_iff⟩
  rw [backtrace, ← List.map_take, List.length_map, ← List.map_drop, List.mapM_map]
  split
  next hle => exact ⟨[], rfl, by rw [List.drop_eq_nil_of_le hle]; exact .nil⟩
  next hlt => exact mapM_forall₂ fun e _ => stackframe_shown demangle junk e.1 e.2

end Mwr.Logging
