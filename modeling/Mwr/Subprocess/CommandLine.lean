import Mathlib.Algebra.Ring.Nat
import Mathlib.Algebra.BigOperators.Group.List.Basic
import Mwr.Subprocess.Environment

/-!
# The command line of a child on Windows

`subprocess::run` of `src/mwr/utils/subprocess_win32.cpp` hands the new process one string for all
of its arguments and one block for its environment.  It puts the path in quotes and takes the
arguments as they are.

* `cmdline` and `envstr` are the two strings, and `createProcess` is what arrives in the child.
* `program` and `argsLoop` are the rules by which the C runtime of the child takes the command
  line apart.
* `weight` measures the arguments that come out against the characters that went in, and
  `weight_lt` says that a quote costs a character.
* `argv_iff` and `environ_iff` say when the child gets what the parent meant.
-/

namespace Mwr.Subprocess.Win32

open Mwr.CodeLib
open Mwr.Options (CString cStr)

/-! ## The code -/

/-- `cmdline`. -/
def cmdline (path : Bytes) (args : List Bytes) : Bytes :=
  args.foldl (fun cmdline arg => cmdline ++ Bytes.str " " ++ arg)
    (Bytes.str "\"" ++ path ++ Bytes.str "\"")

/-- `name=value`, for an entry of the map. -/
def entry (e : Bytes × Bytes) : Bytes := e.1 ++ Bytes.str "=" ++ e.2

/-- `envstr`. -/
def envstr (env : Env) : Bytes :=
  if env.isEmpty then []
  else env.toList.foldl (fun envstr e => envstr ++ (entry e ++ [0])) [] ++ [0]

/-! ## The rules of the system -/

/-- A character between two arguments. -/
def blank (ch : UInt8) : Bool := ch == ' '.toUInt8 || ch == '\t'.toUInt8

def slashes (n : Nat) : Bytes := List.replicate n '\\'.toUInt8

/-- The name of the program and what is behind it: quotes are left out, and there is no escape. -/
def program : Bool → Bytes → Bytes × Bytes
  | _, [] => ([], [])
  | quoted, ch :: rest =>
    if ch = '"'.toUInt8 then program (!quoted) rest
    else if blank ch && !quoted then ([], rest)
    else (ch :: (program quoted rest).1, (program quoted rest).2)

/-- Whether a blank ends an argument. -/
inductive Mode where
  | plain
  | quoted
  /-- A quote has ended a part in quotes, unless another quote follows. -/
  | closing
  deriving DecidableEq

/-- Behind a character that is not a quote. -/
def Mode.next : Mode → Mode
  | closing => plain
  | mode => mode

/-- Behind a quote. -/
def Mode.quote : Mode → Mode
  | plain => quoted
  | quoted => closing
  | closing => quoted

/-- The arguments: the one that has begun, and the number of backslashes before the next character.
Two backslashes before a quote are one, an odd one makes the quote a character, and other
backslashes are what they are. -/
def argsLoop : Option Bytes → Mode → Nat → Bytes → List Bytes
  | cur, _, n, [] => (cur.map (· ++ slashes n)).toList
  | cur, mode, n, ch :: rest =>
    let arg := cur.getD []
    if ch = '\\'.toUInt8 then argsLoop (some arg) mode.next (n + 1) rest
    else if ch = '"'.toUInt8 then
      if n % 2 = 1 then argsLoop (some (arg ++ slashes (n / 2) ++ [ch])) mode 0 rest
      else if mode = .closing then argsLoop (some (arg ++ slashes (n / 2) ++ [ch])) .quoted 0 rest
      else argsLoop (some (arg ++ slashes (n / 2))) mode.quote 0 rest
    else if blank ch && mode ≠ .quoted then
      (cur.map (· ++ slashes n)).toList ++ argsLoop none .plain 0 rest
    else argsLoop (some (arg ++ slashes n ++ [ch])) mode.next 0 rest

/-- `argv` of a program with the command line. -/
def argv (line : CString) : List Bytes :=
  (program false line.1).1 :: argsLoop none .plain 0 (program false line.1).2

/-- The strings of a block, up to an empty one. -/
def blockLoop (cur : Bytes) : Bytes → List Bytes
  | [] => []
  | ch :: rest =>
    if ch = 0 then if cur = [] then [] else cur :: blockLoop [] rest
    else blockLoop (cur ++ [ch]) rest

/-- What the child of a process with the environment `parent` finds. -/
def createProcess (path : Bytes) (args : List Bytes) (env : Env) (parent : List Bytes) :
    List Bytes × List Bytes :=
  (argv (cStr (cmdline path args)),
    if (envstr env).isEmpty then parent else blockLoop [] (envstr env))

/-! ## The two strings -/

theorem cmdline_eq (path : Bytes) (args : List Bytes) :
    cmdline path args =
      '"'.toUInt8 :: path ++ '"'.toUInt8 :: args.flatMap fun arg => ' '.toUInt8 :: arg := by
  have hfold : ∀ front : Bytes, args.foldl (fun line arg => line ++ Bytes.str " " ++ arg) front =
      front ++ args.flatMap fun arg => ' '.toUInt8 :: arg := by
    induction args with
    | nil => exact fun front => (List.append_nil front).symm
    | cons arg args ih =>
      intro front
      rw [List.foldl_cons, ih, List.flatMap_cons, List.append_assoc, List.append_assoc]
      rfl
  rw [cmdline, hfold, List.append_assoc]
  rfl

/-! ## What comes out -/

/-- A character that means nothing to the system. -/
def Plain (ch : UInt8) : Prop := ch ≠ 0 ∧ blank ch = false ∧ ch ≠ '"'.toUInt8

/-- The characters of the arguments, with one for each gap. -/
def weight (args : List Bytes) : Nat := (args.map fun arg => 1 + arg.length).sum

theorem weight_append (args args' : List Bytes) :
    weight (args ++ args') = weight args + weight args' := by
  rw [weight, List.map_append, List.sum_append]
  rfl

theorem weight_flatMap (args : List Bytes) :
    (args.flatMap fun arg => ' '.toUInt8 :: arg).length = weight args := by
  rw [List.length_flatMap, weight]
  congr 1
  exact List.map_congr_left fun arg _ => Nat.add_comm _ _

theorem length_slashes (n : Nat) : (slashes n).length = n := List.length_replicate

theorem weight_toList (cur : Option Bytes) (n : Nat) :
    weight (cur.map (· ++ slashes n)).toList ≤ 1 + (cur.getD []).length + n := by
  cases cur with
  | none => exact Nat.zero_le _
  | some arg =>
    show 1 + (arg ++ slashes n).length + 0 ≤ 1 + arg.length + n
    rw [List.length_append, length_slashes]
    omega

/-! ## The loop -/

section Loop

variable {cur : Option Bytes} {mode : Mode} {n : Nat} {ch : UInt8} {rest : Bytes}

theorem argsLoop_slash :
    argsLoop cur mode n ('\\'.toUInt8 :: rest) =
      argsLoop (some (cur.getD [])) mode.next (n + 1) rest := by
  rw [argsLoop, if_pos rfl]

theorem argsLoop_odd (h : n % 2 = 1) :
    argsLoop cur mode n ('"'.toUInt8 :: rest) =
      argsLoop (some (cur.getD [] ++ slashes (n / 2) ++ ['"'.toUInt8])) mode 0 rest := by
  rw [argsLoop, if_neg (by decide), if_pos rfl, if_pos h]

theorem argsLoop_blank (h : blank ch = true) (hmode : mode ≠ .quoted) :
    argsLoop cur mode n (ch :: rest) =
      (cur.map (· ++ slashes n)).toList ++ argsLoop none .plain 0 rest := by
  have hslash : ch ≠ '\\'.toUInt8 := by
    rintro rfl
    exact absurd h (by decide)
  have hquote : ch ≠ '"'.toUInt8 := by
    rintro rfl
    exact absurd h (by decide)
  rw [argsLoop, if_neg hslash, if_neg hquote, if_pos (by simp [h, hmode])]

theorem argsLoop_char (hslash : ch ≠ '\\'.toUInt8) (hquote : ch ≠ '"'.toUInt8)
    (h : blank ch = false ∨ mode = .quoted) :
    argsLoop cur mode n (ch :: rest) =
      argsLoop (some (cur.getD [] ++ slashes n ++ [ch])) mode.next 0 rest := by
  rw [argsLoop, if_neg hslash, if_neg hquote, if_neg]
  rcases h with hblank | hmode
  · simp [hblank]
  · simp [hmode]

/-- The arguments weigh no more than the characters, and less if a quote is left out. -/
theorem weight_argsLoop (input : Bytes) (cur : Option Bytes) (mode : Mode) (n : Nat) :
    weight (argsLoop cur mode n input) +
        (if '"'.toUInt8 ∈ input ∧ mode ≠ Mode.closing then 1 else 0) ≤
      1 + (cur.getD []).length + n + input.length := by
  induction input generalizing cur mode n with
  | nil =>
    rw [argsLoop, if_neg fun h => List.not_mem_nil h.1]
    exact weight_toList cur n
  | cons ch rest ih =>
    have hbonus : (if '"'.toUInt8 ∈ ch :: rest ∧ mode ≠ Mode.closing then 1 else 0) ≤ 1 := by
      split <;> omega
    -- the quote is behind the character
    have hlater : ∀ mode', ch ≠ '"'.toUInt8 → (mode ≠ Mode.closing → mode' ≠ Mode.closing) →
        (if '"'.toUInt8 ∈ ch :: rest ∧ mode ≠ Mode.closing then 1 else 0) ≤
          if '"'.toUInt8 ∈ rest ∧ mode' ≠ Mode.closing then 1 else 0 := by
      intro mode' hne hmode
      split
      next h =>
        rcases List.mem_cons.1 h.1 with heq | hmem
        · exact absurd heq.symm hne
        · rw [if_pos ⟨hmem, hmode h.2⟩]
      next => exact Nat.zero_le _
    have hnext : mode.next ≠ .closing := by
      cases mode <;> decide
    rw [List.length_cons]
    by_cases hslash : ch = '\\'.toUInt8
    · subst hslash
      rw [argsLoop_slash]
      have hrest := ih (some (cur.getD [])) mode.next (n + 1)
      have hlater := hlater mode.next (by decide) fun _ => hnext
      rw [Option.getD_some] at hrest
      omega
    · by_cases hquote : ch = '"'.toUInt8
      · subst hquote
        by_cases hodd : n % 2 = 1
        · rw [argsLoop_odd hodd]
          have hrest := ih (some (cur.getD [] ++ slashes (n / 2) ++ ['"'.toUInt8])) mode 0
          rw [Option.getD_some, List.length_append, List.length_append, length_slashes,
            List.length_singleton] at hrest
          omega
        · rw [argsLoop, if_neg hslash, if_pos rfl, if_neg hodd]
          by_cases hclosing : mode = .closing
          · have hrest := ih (some (cur.getD [] ++ slashes (n / 2) ++ ['"'.toUInt8])) .quoted 0
            rw [Option.getD_some, List.length_append, List.length_append, length_slashes,
              List.length_singleton] at hrest
            rw [if_pos hclosing, if_neg fun h => h.2 hclosing]
            omega
          · have hrest := ih (some (cur.getD [] ++ slashes (n / 2))) mode.quote 0
            rw [Option.getD_some, List.length_append, length_slashes] at hrest
            rw [if_neg hclosing]
            omega
      · by_cases hblank : blank ch = true ∧ mode ≠ .quoted
        · rw [argsLoop_blank hblank.1 hblank.2, weight_append]
          have hrest := ih none .plain 0
          have hcur := weight_toList cur n
          have hlater := hlater .plain hquote fun _ => by decide
          rw [Option.getD_none, List.length_nil] at hrest
          omega
        · have hkeep : blank ch = false ∨ mode = .quoted := by
            rw [not_and, not_not] at hblank
            by_cases hb : blank ch = true
            · exact .inr (hblank hb)
            · exact .inl (Bool.eq_false_iff.2 hb)
          rw [argsLoop_char hslash hquote hkeep]
          have hrest := ih (some (cur.getD [] ++ slashes n ++ [ch])) mode.next 0
          have hlater := hlater mode.next hquote fun _ => hnext
          rw [Option.getD_some, List.length_append, List.length_append, length_slashes,
            List.length_singleton] at hrest
          omega

/-- Without quotes, the arguments are the words. -/
theorem plain_argsLoop {input : Bytes} (hinput : ∀ ch ∈ input, ch ≠ 0 ∧ ch ≠ '"'.toUInt8)
    (hcur : ∀ arg ∈ cur, (arg ≠ [] ∨ 0 < n) ∧ ∀ ch ∈ arg, Plain ch) :
    ∀ arg ∈ argsLoop cur .plain n input, arg ≠ [] ∧ ∀ ch ∈ arg, Plain ch := by
  have hslashes : ∀ n, ∀ ch ∈ slashes n, Plain ch := by
    intro n ch hch
    rw [List.eq_of_mem_replicate hch]
    exact ⟨by decide, by decide, by decide⟩
  have hlast : ∀ (cur : Option Bytes) (n : Nat),
      (∀ arg ∈ cur, (arg ≠ [] ∨ 0 < n) ∧ ∀ ch ∈ arg, Plain ch) →
      ∀ arg ∈ (cur.map (· ++ slashes n)).toList, arg ≠ [] ∧ ∀ ch ∈ arg, Plain ch := by
    intro cur n hcur arg harg
    rw [Option.mem_toList, Option.map_eq_some_iff] at harg
    obtain ⟨a, ha, rfl⟩ := harg
    obtain ⟨hne, hall⟩ := hcur a ha
    refine ⟨fun hnil => ?_, fun ch hch => ?_⟩
    · rw [List.append_eq_nil_iff] at hnil
      have hn : n = 0 := by rw [← length_slashes n, hnil.2]; rfl
      rcases hne with hne | hpos
      · exact hne hnil.1
      · omega
    · rcases List.mem_append.1 hch with hch | hch
      · exact hall ch hch
      · exact hslashes n ch hch
  have hall : ∀ ch ∈ cur.getD [], Plain ch := by
    cases cur with
    | none => exact nofun
    | some arg => exact (hcur arg rfl).2
  induction input generalizing cur n with
  | nil =>
    rw [argsLoop]
    exact hlast cur n hcur
  | cons ch rest ih =>
    have hrest := fun c hc => hinput c (List.mem_cons_of_mem ch hc)
    obtain ⟨hzero, hquote⟩ := hinput ch List.mem_cons_self
    by_cases hslash : ch = '\\'.toUInt8
    · subst hslash
      rw [argsLoop_slash]
      refine ih hrest ?_ hall
      intro arg harg
      cases harg
      exact ⟨.inr (Nat.succ_pos n), hall⟩
    · by_cases hblank : blank ch = true
      · rw [argsLoop_blank hblank (by decide)]
        intro arg harg
        rcases List.mem_append.1 harg with harg | harg
        · exact hlast cur n hcur arg harg
        · exact ih hrest (fun a ha => absurd ha (Option.not_mem_none a))
            (fun c hc => absurd hc List.not_mem_nil) arg harg
      · have hplain : Plain ch := ⟨hzero, Bool.eq_false_iff.2 hblank, hquote⟩
        have hnew : ∀ c ∈ cur.getD [] ++ slashes n ++ [ch], Plain c := by
          intro c hc
          rw [List.append_assoc, List.mem_append, List.mem_append, List.mem_singleton] at hc
          rcases hc with hc | hc | rfl
          · exact hall c hc
          · exact hslashes n c hc
          · exact hplain
        rw [argsLoop_char hslash hquote (.inl hplain.2.1)]
        refine ih hrest ?_ hnew
        intro arg harg
        cases harg
        exact ⟨.inl (by simp), hnew⟩

/-- A word goes to the argument that has begun. -/
theorem argsLoop_word {tail : Bytes} {args : List Bytes}
    (htail : ∀ arg n, argsLoop (some arg) .plain n tail = (arg ++ slashes n) :: args) {w : Bytes}
    (hw : ∀ ch ∈ w, Plain ch) (arg : Bytes) (n : Nat) :
    argsLoop (some arg) .plain n (w ++ tail) = (arg ++ slashes n ++ w) :: args := by
  induction w generalizing arg n with
  | nil =>
    rw [List.append_nil]
    exact htail arg n
  | cons ch w ih =>
    have hrest := fun c hc => hw c (List.mem_cons_of_mem ch hc)
    obtain ⟨-, hblank, hquote⟩ := hw ch List.mem_cons_self
    rw [List.cons_append]
    by_cases hslash : ch = '\\'.toUInt8
    · subst hslash
      rw [argsLoop_slash]
      show argsLoop (some arg) .plain (n + 1) _ = _
      have hslashes : slashes (n + 1) = slashes n ++ ['\\'.toUInt8] := List.replicate_succ'
      rw [ih hrest, hslashes, List.append_assoc, List.append_assoc, List.append_assoc]
      rfl
    · rw [argsLoop_char hslash hquote (.inl hblank)]
      show argsLoop (some (arg ++ slashes n ++ [ch])) .plain 0 _ = _
      rw [ih hrest]
      show (arg ++ slashes n ++ [ch] ++ [] ++ w) :: args = _
      rw [List.append_nil, List.append_assoc _ [ch]]
      rfl

/-- An argument begins with a character that is not a blank. -/
theorem argsLoop_none (h : blank ch = false) :
    argsLoop none .plain 0 (ch :: rest) = argsLoop (some []) .plain 0 (ch :: rest) := by
  rw [argsLoop, argsLoop]
  simp only [h, Bool.false_and, Option.getD_none, Option.getD_some, Bool.false_eq_true, if_false]

/-- Words with a blank before each of them. -/
theorem argsLoop_words {args : List Bytes} (h : ∀ arg ∈ args, arg ≠ [] ∧ ∀ ch ∈ arg, Plain ch)
    (arg : Bytes) (n : Nat) :
    argsLoop (some arg) .plain n (args.flatMap fun arg => ' '.toUInt8 :: arg) =
      (arg ++ slashes n) :: args := by
  induction args generalizing arg n with
  | nil => rfl
  | cons a args ih =>
    obtain ⟨hne, hplain⟩ := h a List.mem_cons_self
    have htail := ih fun b hb => h b (List.mem_cons_of_mem a hb)
    obtain ⟨ch, w, rfl⟩ := List.exists_cons_of_ne_nil hne
    rw [List.flatMap_cons, List.cons_append, argsLoop_blank (by decide) (by decide),
      List.cons_append, argsLoop_none (hplain ch List.mem_cons_self).2.1, ← List.cons_append,
      argsLoop_word htail hplain]
    rfl

end Loop

/-! ## The program -/

/-- The name has no quote, and its characters are those of the command line. -/
theorem mem_program {quoted : Bool} {line : Bytes} {ch : UInt8} (h : ch ∈ (program quoted line).1) :
    ch ∈ line ∧ ch ≠ '"'.toUInt8 := by
  induction line generalizing quoted with
  | nil => cases h
  | cons c rest ih =>
    rw [program] at h
    split at h
    next =>
      obtain ⟨hmem, hne⟩ := ih h
      exact ⟨List.mem_cons_of_mem c hmem, hne⟩
    next hc =>
      split at h
      next => cases h
      next =>
        rcases List.mem_cons.1 h with rfl | h
        · exact ⟨List.mem_cons_self, hc⟩
        · obtain ⟨hmem, hne⟩ := ih h
          exact ⟨List.mem_cons_of_mem c hmem, hne⟩

/-- A path in quotes. -/
theorem program_quoted {path tail : Bytes} (h : '"'.toUInt8 ∉ path) :
    program true (path ++ '"'.toUInt8 :: tail) =
      (path ++ (program false tail).1, (program false tail).2) := by
  induction path with
  | nil => rfl
  | cons ch path ih =>
    have hne : ch ≠ '"'.toUInt8 := fun heq => h (by rw [heq]; exact List.mem_cons_self)
    have ih := ih fun hmem => h (List.mem_cons_of_mem ch hmem)
    rw [List.cons_append, program, if_neg hne, if_neg (by simp), ih]
    rfl

theorem cStr_eq_self {s : Bytes} (h : 0 ∉ s) : (cStr s).1 = s :=
  congrArg Subtype.val (@Options.cStr_eq s ⟨s, h⟩ rfl)

theorem cStr_append {s t : Bytes} (h : 0 ∉ s) : (cStr (s ++ t)).1 = s ++ (cStr t).1 := by
  unfold cStr
  refine List.takeWhile_append_of_pos fun b hb => decide_eq_true ?_
  rintro rfl
  exact h hb

/-- Behind the path, `argv` of the arguments with a blank before each of them. -/
theorem program_words (args : List Bytes) :
    program false (args.flatMap fun arg => ' '.toUInt8 :: arg) =
      ([], (args.flatMap fun arg => ' '.toUInt8 :: arg).drop 1) := by
  cases args with
  | nil => rfl
  | cons arg args => rfl

theorem argsLoop_drop {args : List Bytes} (h : ∀ arg ∈ args, arg ≠ [] ∧ ∀ ch ∈ arg, Plain ch) :
    argsLoop none .plain 0 ((args.flatMap fun arg => ' '.toUInt8 :: arg).drop 1) = args := by
  cases args with
  | nil => rfl
  | cons a args =>
    obtain ⟨hne, hplain⟩ := h a List.mem_cons_self
    have htail := argsLoop_words fun b hb => h b (List.mem_cons_of_mem a hb)
    obtain ⟨ch, w, rfl⟩ := List.exists_cons_of_ne_nil hne
    show argsLoop none .plain 0
      (ch :: (w ++ args.flatMap fun arg => ' '.toUInt8 :: arg)) = _
    rw [argsLoop_none (hplain ch List.mem_cons_self).2.1, ← List.cons_append,
      argsLoop_word htail hplain]
    rfl

theorem zero_not_mem_words {args : List Bytes} (h : ∀ arg ∈ args, 0 ∉ arg) :
    0 ∉ args.flatMap fun arg => ' '.toUInt8 :: arg := by
  intro hmem
  obtain ⟨arg, harg, hzero⟩ := List.mem_flatMap.1 hmem
  rcases List.mem_cons.1 hzero with heq | hzero
  · exact absurd heq (by decide)
  · exact h arg harg hzero

/-- Arguments that come out as they went in are words. -/
theorem plain_of_argsLoop {args : List Bytes}
    (h : argsLoop none .plain 0 (cStr ((args.flatMap fun arg => ' '.toUInt8 :: arg).drop 1)).1 =
      args) : ∀ arg ∈ args, arg ≠ [] ∧ ∀ ch ∈ arg, Plain ch := by
  cases args with
  | nil => exact nofun
  | cons a args =>
    have hlength := weight_flatMap (a :: args)
    have hdrop : ((a :: args).flatMap fun arg => ' '.toUInt8 :: arg).drop 1 =
        a ++ args.flatMap fun arg => ' '.toUInt8 :: arg := rfl
    have hflat : ((a :: args).flatMap fun arg => ' '.toUInt8 :: arg).length =
        (a ++ args.flatMap fun arg => ' '.toUInt8 :: arg).length + 1 := rfl
    rw [hdrop] at h
    rw [hflat] at hlength
    generalize (a ++ args.flatMap fun arg => ' '.toUInt8 :: arg) = more at h hlength
    have hweight := weight_argsLoop (cStr more).1 none .plain 0
    rw [h, ← hlength] at hweight
    have hzero := (cStr more).2
    -- a null and a quote cost a character
    have hquote : '"'.toUInt8 ∉ (cStr more).1 := by
      intro hmem
      have hle : (cStr more).1.length ≤ more.length := (List.takeWhile_sublist _).length_le
      rw [if_pos ⟨hmem, by decide⟩, Option.getD_none, List.length_nil] at hweight
      omega
    have hinput : ∀ ch ∈ (cStr more).1, ch ≠ 0 ∧ ch ≠ '"'.toUInt8 := by
      intro ch hch
      refine ⟨?_, ?_⟩
      · rintro rfl
        exact hzero hch
      · rintro rfl
        exact hquote hch
    rw [← h]
    exact plain_argsLoop hinput fun arg harg => absurd harg (Option.not_mem_none arg)

/-- The arguments that reach the child are the path and `args` exactly if the path has no quote,
each of the others has characters and no blank or quote among them, and there is no null. -/
theorem argv_iff (path : Bytes) (args : List Bytes) :
    argv (cStr (cmdline path args)) = path :: args ↔
      '"'.toUInt8 ∉ path ∧ 0 ∉ path ∧ ∀ arg ∈ args, arg ≠ [] ∧ ∀ ch ∈ arg, Plain ch := by
  have hline : ∀ line, 0 ∉ path → '"'.toUInt8 ∉ path →
      (cStr (cmdline path args)).1 = '"'.toUInt8 :: path ++ '"'.toUInt8 :: line →
      argv (cStr (cmdline path args)) =
        (path ++ (program false line).1) :: argsLoop none .plain 0 (program false line).2 := by
    intro line _ hquote heq
    rw [argv, heq, List.cons_append, program, if_pos rfl]
    show (program true _).1 :: argsLoop none .plain 0 (program true _).2 = _
    rw [program_quoted hquote]
  have hcut : 0 ∉ path → (cStr (cmdline path args)).1 = '"'.toUInt8 :: path ++ '"'.toUInt8 ::
      (cStr (args.flatMap fun arg => ' '.toUInt8 :: arg)).1 := by
    intro hzero
    have hfront : 0 ∉ '"'.toUInt8 :: path ++ ['"'.toUInt8] := by
      simp only [List.cons_append, List.mem_cons, List.mem_append, List.not_mem_nil, or_false]
      rintro (h | h | h)
      · exact absurd h (by decide)
      · exact hzero h
      · exact absurd h (by decide)
    rw [cmdline_eq, List.append_cons, cStr_append hfront, ← List.append_cons]
  constructor
  · intro h
    have hname : ∀ ch ∈ path, ch ∈ (cStr (cmdline path args)).1 ∧ ch ≠ '"'.toUInt8 := by
      intro ch hch
      have hhead : (program false (cStr (cmdline path args)).1).1 = path :=
        List.head_eq_of_cons_eq h
      rw [← hhead] at hch
      exact mem_program hch
    have hquote : '"'.toUInt8 ∉ path := fun hmem => (hname _ hmem).2 rfl
    have hzero : 0 ∉ path := fun hmem => (cStr (cmdline path args)).2 (hname 0 hmem).1
    refine ⟨hquote, hzero, ?_⟩
    rw [hline _ hzero hquote (hcut hzero)] at h
    have htail := List.tail_eq_of_cons_eq h
    refine plain_of_argsLoop ?_
    cases args with
    | nil => rfl
    | cons a args => exact htail
  · rintro ⟨hquote, hzero, hplain⟩
    have hwords := zero_not_mem_words fun arg harg hmem => ((hplain arg harg).2 0 hmem).1 rfl
    rw [hline _ hzero hquote (hcut hzero), cStr_eq_self hwords, program_words, List.append_nil,
      argsLoop_drop hplain]

/-! ## The environment -/

theorem envstr_eq {env : Env} (h : env.isEmpty = false) :
    envstr env = (env.toList.map entry).flatMap (· ++ [0]) ++ [0] := by
  have hfold : ∀ (es : List (Bytes × Bytes)) (front : Bytes),
      es.foldl (fun envstr e => envstr ++ (entry e ++ [0])) front =
        front ++ (es.map entry).flatMap (· ++ [0]) := by
    intro es
    induction es with
    | nil => exact fun front => (List.append_nil front).symm
    | cons e es ih =>
      intro front
      rw [List.foldl_cons, ih, List.map_cons, List.flatMap_cons, List.append_assoc]
  rw [envstr, if_neg (by rw [h]; exact Bool.false_ne_true), hfold, List.nil_append]

/-- A string of the block has no null. -/
theorem zero_not_mem_blockLoop {cur block : Bytes} (hcur : 0 ∉ cur) :
    ∀ s ∈ blockLoop cur block, 0 ∉ s := by
  induction block generalizing cur with
  | nil => exact fun s hs => absurd hs List.not_mem_nil
  | cons ch rest ih =>
    rw [blockLoop]
    split
    next =>
      split
      next => exact fun s hs => absurd hs List.not_mem_nil
      next =>
        intro s hs
        rcases List.mem_cons.1 hs with rfl | hs
        · exact hcur
        · exact ih List.not_mem_nil s hs
    next hne =>
      refine ih fun hmem => ?_
      rcases List.mem_append.1 hmem with hmem | hmem
      · exact hcur hmem
      · exact hne (List.mem_singleton.1 hmem).symm

theorem blockLoop_string {w : Bytes} (hw : 0 ∉ w) (cur rest : Bytes) (hne : cur ++ w ≠ []) :
    blockLoop cur (w ++ [0] ++ rest) = (cur ++ w) :: blockLoop [] rest := by
  induction w generalizing cur with
  | nil =>
    rw [List.append_nil] at hne ⊢
    show blockLoop cur (0 :: rest) = _
    rw [blockLoop, if_pos rfl, if_neg hne]
  | cons ch w ih =>
    have hch : ch ≠ 0 := fun heq => hw (by rw [heq]; exact List.mem_cons_self)
    have hassoc : cur ++ ch :: w = (cur ++ [ch]) ++ w := List.append_cons cur ch w
    rw [List.cons_append, List.cons_append, blockLoop, if_neg hch, hassoc]
    rw [hassoc] at hne
    exact ih (fun hmem => hw (List.mem_cons_of_mem ch hmem)) _ hne

theorem blockLoop_strings {ss : List Bytes} (h : ∀ s ∈ ss, s ≠ [] ∧ 0 ∉ s) :
    blockLoop [] (ss.flatMap (· ++ [0]) ++ [0]) = ss := by
  induction ss with
  | nil => rfl
  | cons s ss ih =>
    obtain ⟨hne, hzero⟩ := h s List.mem_cons_self
    rw [List.flatMap_cons, List.append_assoc, blockLoop_string hzero [] _ hne,
      ih fun t ht => h t (List.mem_cons_of_mem s ht)]
    rfl

theorem zero_not_mem_entry (e : Bytes × Bytes) : 0 ∉ entry e ↔ 0 ∉ e.1 ∧ 0 ∉ e.2 := by
  have hequals : (0 : UInt8) ∉ Bytes.str "=" := by decide
  unfold entry
  rw [List.mem_append, List.mem_append, not_or, not_or]
  exact ⟨fun h => ⟨h.1.1, h.2⟩, fun h => ⟨⟨h.1, hequals⟩, h.2⟩⟩

/-- The child of a parent that sets variables finds them in the order of the map exactly if there
is no null in them. -/
theorem environ_iff {env : Env} (hne : env.isEmpty = false) :
    blockLoop [] (envstr env) = env.toList.map entry ↔
      ∀ e ∈ env.toList, 0 ∉ e.1 ∧ 0 ∉ e.2 := by
  constructor
  · intro h e he
    rw [← zero_not_mem_entry]
    have hmem : entry e ∈ blockLoop [] (envstr env) := by
      rw [h]
      exact List.mem_map_of_mem he
    exact zero_not_mem_blockLoop List.not_mem_nil _ hmem
  · intro h
    rw [envstr_eq hne]
    refine blockLoop_strings fun s hs => ?_
    obtain ⟨e, he, rfl⟩ := List.mem_map.1 hs
    refine ⟨?_, (zero_not_mem_entry e).2 (h e he)⟩
    simp [entry, Bytes.str]

/-- What a child on Windows is given.  Its arguments are those of the call exactly if the path has
no quote, no argument is empty or has a blank or a quote, and there is no null; and its variables
are the strings `name=value` of `env`, or those of the parent if there are none, exactly if there
is no null. -/
theorem createProcess_iff (path : Bytes) (args : List Bytes) (env : Env) (parent : List Bytes) :
    ((createProcess path args env parent).1 = path :: args ↔
      '"'.toUInt8 ∉ path ∧ 0 ∉ path ∧ ∀ arg ∈ args, arg ≠ [] ∧ ∀ ch ∈ arg, Plain ch) ∧
    ((createProcess path args env parent).2 =
        (if env.isEmpty then parent else env.toList.map entry) ↔
      ∀ e ∈ env.toList, 0 ∉ e.1 ∧ 0 ∉ e.2) := by
  refine ⟨argv_iff path args, ?_⟩
  cases hempty : env.isEmpty with
  | true =>
    have hnil : env.toList = [] := by
      rw [← List.isEmpty_iff, Std.TreeMap.isEmpty_toList]
      exact hempty
    have hstr : envstr env = [] := by
      rw [envstr, if_pos hempty]
    rw [createProcess, hstr, hnil]
    exact ⟨fun _ e he => absurd he List.not_mem_nil, fun _ => rfl⟩
  | false =>
    have hsome : (envstr env).isEmpty = false := by
      rw [envstr_eq hempty]
      simp
    rw [createProcess, hsome]
    exact environ_iff hempty

/-- An argument with a blank is two arguments for the child. -/
example : argv (cStr (cmdline (Bytes.str "a.exe") [Bytes.str "b c"])) =
    [Bytes.str "a.exe", Bytes.str "b", Bytes.str "c"] := by
  decide +kernel

end Mwr.Subprocess.Win32
