import Mathlib.Data.UInt
import Mwr.Stl.Strings

/-!
# Escaping, joining and splitting

A translation of `unescape` and `join` of the strings library, and how they and
`split` undo `escape`.  `escape` writes a backslash for each time that a
character is listed, so that most results depend on the number of times.

* The lemmas `splitLoop_*` say what `split` does with an escaped string, in the
  middle of a run.
* `split_join` is the round trip of a list, and `split_escape` the split of an
  escaped string at characters that are not escaped.
* The lemmas `length_unescape_*` bound what `unescape` removes, which leads to
  `unescape_escape_iff`.
* `split_quoted_iff` is about strings in quotes.
-/

namespace Mwr.Strings

open Mwr.CodeLib (Bytes)

/-! ## The code -/

/-- `unescape(s, chars)`. -/
def unescape (s chars : Bytes) : Bytes :=
  match s with
  | [] => []
  | [ch] => [ch]
  | ch :: next :: rest =>
    if ch == '\\'.toUInt8 && (chars ++ quotes).contains next then
      next :: unescape rest chars
    else
      ch :: unescape (next :: rest) chars

/-- `join(v, separator)`. -/
def join (v : List Bytes) (separator : UInt8) : Bytes :=
  match v with
  | [] => []
  | first :: rest => first ++ rest.flatMap fun it => separator :: it

/-! ## Escaped strings -/

/-- The number of backslashes that `escape` writes in front of a character. -/
def listed (chars : Bytes) (ch : UInt8) : Nat :=
  (chars ++ quotes).count ch

theorem escape_cons (ch : UInt8) (s chars : Bytes) :
    escape (ch :: s) chars =
      List.replicate (listed chars ch) '\\'.toUInt8 ++ ch :: escape s chars := by
  have hlength : ((chars ++ quotes).filter (ch == ·)).length = listed chars ch := by
    rw [← List.countP_eq_length_filter, listed, List.count]
    refine List.countP_congr fun x _ => ?_
    rw [Bool.beq_comm]
  rw [escape, List.flatMap_cons, List.map_const', hlength, List.append_assoc,
    List.singleton_append]
  rfl

theorem listed_quotes {chars : Bytes} {ch : UInt8} (h : ch ∈ quotes) : 0 < listed chars ch := by
  rw [listed, List.count_pos_iff]
  exact List.mem_append_right chars h

theorem not_mem_quotes {ch : UInt8} (h : ch ∉ quotes) :
    ch ≠ '\\'.toUInt8 ∧ ch ≠ '"'.toUInt8 ∧ ch ≠ '\''.toUInt8 := by
  simpa [quotes] using h

theorem not_mem_quotes_of_listed {chars : Bytes} {ch : UInt8} (h : listed chars ch = 0) :
    ch ∉ quotes :=
  fun hmem => absurd h (Nat.ne_of_gt (listed_quotes hmem))

/-! ## What `split` does with a character -/

section Split

variable {f : UInt8 → Bool} {flag : Bool} {ch : UInt8}

/-- A character that means nothing. -/
theorem splitLoop_plain (hch : ch ∉ quotes) (hf : (f ch && !flag) = false) (buf : Bytes)
    (vec : List Bytes) (rest : Bytes) :
    splitLoop f flag buf vec (ch :: rest) = splitLoop f flag (buf ++ [ch]) vec rest := by
  obtain ⟨hbackslash, hdouble, hsingle⟩ := not_mem_quotes hch
  rw [splitLoop.eq_def]
  dsimp only
  rw [if_neg (by simp [hdouble, hsingle]), if_neg (by simp [hbackslash]),
    if_neg (by simp [hf])]

/-- A separator outside of quotes. -/
theorem splitLoop_separator (hch : ch ∉ quotes) (hf : f ch = true) (buf : Bytes)
    (vec : List Bytes) (rest : Bytes) :
    splitLoop f false buf vec (ch :: rest) = splitLoop f false [] (pushWord vec buf) rest := by
  obtain ⟨hbackslash, hdouble, hsingle⟩ := not_mem_quotes hch
  rw [splitLoop.eq_def]
  dsimp only
  rw [if_neg (by simp [hdouble, hsingle]), if_neg (by simp [hbackslash]),
    if_pos (by simp [hf])]

/-- A quote of either kind. -/
theorem splitLoop_quote (hch : ch = '"'.toUInt8 ∨ ch = '\''.toUInt8) (buf : Bytes)
    (vec : List Bytes) (rest : Bytes) :
    splitLoop f flag buf vec (ch :: rest) = splitLoop f (!flag) buf vec rest := by
  rw [splitLoop.eq_def]
  dsimp only
  rw [if_pos (by simpa using hch)]

/-- A backslash with a character behind it. -/
theorem splitLoop_backslash (next : UInt8) (buf : Bytes) (vec : List Bytes) (rest : Bytes) :
    splitLoop f flag buf vec ('\\'.toUInt8 :: next :: rest) =
      splitLoop f flag (buf ++ [next]) vec rest := by
  rw [splitLoop, if_neg (by decide), if_pos (by decide)]

/-! ## What `split` does with an escaped string -/

/-- `escape` neither writes two backslashes nor leaves a separator bare. -/
def Literal (f : UInt8 → Bool) (chars s : Bytes) : Prop :=
  ∀ ch ∈ s, listed chars ch ≤ 1 ∧ (f ch = true → 0 < listed chars ch)

/-- An escaped string is read as the string that it stands for. -/
theorem splitLoop_escape {chars s : Bytes} (h : Literal f chars s) (buf : Bytes)
    (vec : List Bytes) (rest : Bytes) :
    splitLoop f flag buf vec (escape s chars ++ rest) = splitLoop f flag (buf ++ s) vec rest := by
  induction s generalizing buf with
  | nil => rw [List.append_nil]; rfl
  | cons ch s ih =>
    have hs : Literal f chars s := fun c hc => h c (List.mem_cons_of_mem ch hc)
    obtain ⟨hle, hbare⟩ := h ch List.mem_cons_self
    rw [escape_cons, List.append_assoc, List.cons_append, List.append_cons buf ch s]
    obtain hzero | hone : listed chars ch = 0 ∨ listed chars ch = 1 := by omega
    · have hf : f ch = false := by
        by_contra hsep
        have := hbare (Bool.eq_true_of_not_eq_false hsep)
        omega
      rw [hzero, List.replicate_zero, List.nil_append,
        splitLoop_plain (not_mem_quotes_of_listed hzero) (by rw [hf, Bool.false_and]), ih hs]
    · rw [hone, List.replicate_one, List.singleton_append, splitLoop_backslash, ih hs]

/-- The fields of a list behind the first one. -/
theorem splitLoop_fields {chars : Bytes} {v : List Bytes} (hch : ch ∉ quotes) (hf : f ch = true)
    (hv : ∀ s ∈ v, Literal f chars s) (buf : Bytes) (vec : List Bytes) :
    splitLoop f false buf vec ((v.map (escape · chars)).flatMap fun it => ch :: it) =
      pushWord vec buf ++ v.filter fun s => !s.isEmpty := by
  induction v generalizing buf vec with
  | nil => rw [List.filter_nil, List.append_nil]; rfl
  | cons s v ih =>
    have hfields := ih fun t ht => hv t (List.mem_cons_of_mem s ht)
    rw [List.map_cons, List.flatMap_cons, List.cons_append, splitLoop_separator hch hf,
      splitLoop_escape (hv s List.mem_cons_self), List.nil_append, hfields, List.filter_cons]
    cases s <;> simp [pushWord]

end Split

/-! ## Lists of strings -/

/-- `split` takes apart what `join` put together from escaped fields, except that
empty fields are lost. -/
theorem split_join (v : List Bytes) (c : UInt8) (hc : c ∉ quotes) :
    splitChar (join (v.map fun s => escape s [c]) c) c = v.filter fun s => !s.isEmpty := by
  have hliteral : ∀ s, Literal (· == c) [c] s := by
    intro s ch _
    have hcount : listed [c] ch = (if c == ch then 1 else 0) + quotes.count ch := by
      rw [listed, List.count_append, List.count_singleton]
    have hquotes : quotes.count ch ≤ 1 := List.nodup_iff_count_le_one.mp (by decide) ch
    by_cases hch : c = ch
    · subst hch
      rw [hcount, if_pos (beq_self_eq_true c), List.count_eq_zero.mpr hc]
      exact ⟨Nat.le_refl 1, fun _ => Nat.one_pos⟩
    · rw [hcount, if_neg (by simpa using hch), Nat.zero_add]
      exact ⟨hquotes, fun h => absurd (eq_of_beq h).symm hch⟩
  cases v with
  | nil => rfl
  | cons s v =>
    rw [List.map_cons, join, splitChar, splitLoop_escape (hliteral s),
      splitLoop_fields (f := (· == c)) hc (beq_self_eq_true c) fun t _ => hliteral t,
      List.nil_append, List.filter_cons]
    cases s <;> simp [pushWord]

theorem split_join_example :
    splitChar (join (List.map (fun s => escape s [','.toUInt8])
        [['a'.toUInt8, ','.toUInt8, '"'.toUInt8], [], ['\\'.toUInt8]]) ','.toUInt8) ','.toUInt8 =
      List.filter (fun s => !s.isEmpty)
        [['a'.toUInt8, ','.toUInt8, '"'.toUInt8], [], ['\\'.toUInt8]] :=
  split_join _ _ (by decide)

/-! ## Separators that are not escaped -/

theorem escape_append (s t chars : Bytes) :
    escape (s ++ t) chars = escape s chars ++ escape t chars :=
  List.flatMap_append

theorem modifyHead_nil_append (v : List Bytes) : v.modifyHead ([] ++ ·) = v := by
  cases v <;> rfl

/-- The words that `split` still finds in an escaped string are its segments, the
first one behind what is in `buf` already. -/
theorem splitLoop_segments {f : UInt8 → Bool} {chars str : Bytes}
    (h : ∀ ch ∈ str, listed chars ch ≤ 1 ∧ (f ch = true → listed chars ch = 0)) (buf : Bytes)
    (vec : List Bytes) :
    splitLoop f false buf vec (escape str chars) =
      vec ++ ((str.splitOnP f).modifyHead (buf ++ ·)).filter fun s => !s.isEmpty := by
  induction str generalizing buf vec with
  | nil => cases buf <;> simp [escape, splitLoop, pushWord]
  | cons ch str ih =>
    have hstr := ih fun c hc => h c (List.mem_cons_of_mem ch hc)
    obtain ⟨hle, hbare⟩ := h ch List.mem_cons_self
    rw [List.splitOnP_cons_eq_if_modifyHead]
    by_cases hf : f ch = true
    · have hzero := hbare hf
      rw [escape_cons, hzero, List.replicate_zero, List.nil_append,
        splitLoop_separator (not_mem_quotes_of_listed hzero) hf, hstr, if_pos hf,
        modifyHead_nil_append]
      cases buf <;> simp [pushWord]
    · have hliteral : Literal f chars [ch] := by
        intro c hc
        rw [List.mem_singleton.mp hc]
        exact ⟨hle, fun hsep => absurd hsep hf⟩
      rw [← List.singleton_append, escape_append, splitLoop_escape hliteral, hstr, if_neg hf,
        List.modifyHead_modifyHead]
      simp [Function.comp_def]

/-- `split` finds the segments of an escaped string between separators that
`escape` leaves alone. -/
theorem split_escape {f : UInt8 → Bool} {chars str : Bytes}
    (h : ∀ ch ∈ str, listed chars ch ≤ 1 ∧ (f ch = true → listed chars ch = 0)) :
    split (escape str chars) f = (str.splitOnP f).filter fun s => !s.isEmpty := by
  rw [split, splitLoop_segments h, modifyHead_nil_append, List.nil_append]

/-! ## Unescaping -/

section Unescape

variable {chars : Bytes} {ch next : UInt8}

theorem unescape_plain (h : ch ≠ '\\'.toUInt8) (rest : Bytes) :
    unescape (ch :: rest) chars = ch :: unescape rest chars := by
  cases rest with
  | nil => rfl
  | cons next rest => rw [unescape, if_neg (by simp [h])]

theorem unescape_listed (h : 0 < listed chars next) (rest : Bytes) :
    unescape ('\\'.toUInt8 :: next :: rest) chars = next :: unescape rest chars := by
  rw [listed, List.count_pos_iff] at h
  rw [unescape, if_pos (by simpa using h)]

theorem unescape_not_listed (h : listed chars next = 0) (rest : Bytes) :
    unescape ('\\'.toUInt8 :: next :: rest) chars =
      '\\'.toUInt8 :: unescape (next :: rest) chars := by
  rw [listed, List.count_eq_zero] at h
  rw [unescape, if_neg (by simpa using h)]

theorem listed_backslash (chars : Bytes) : 0 < listed chars '\\'.toUInt8 :=
  listed_quotes (by decide)

/-- A character that is listed once is escaped once and comes back. -/
theorem unescape_escape_of_le {s : Bytes} (h : ∀ ch ∈ s, listed chars ch ≤ 1) :
    unescape (escape s chars) chars = s := by
  induction s with
  | nil => rfl
  | cons ch s ih =>
    have hle := h ch List.mem_cons_self
    have hs := ih fun c hc => h c (List.mem_cons_of_mem ch hc)
    rw [escape_cons]
    obtain hzero | hone : listed chars ch = 0 ∨ listed chars ch = 1 := by omega
    · have hplain := (not_mem_quotes (not_mem_quotes_of_listed hzero)).1
      rw [hzero, List.replicate_zero, List.nil_append, unescape_plain hplain, hs]
    · rw [hone, List.replicate_one, List.singleton_append, unescape_listed (by omega), hs]

/-- A character in front makes the result longer by one at most, and never
shorter. -/
theorem length_unescape_cons (chars : Bytes) (ch : UInt8) (t : Bytes) :
    (unescape t chars).length ≤ (unescape (ch :: t) chars).length ∧
      (unescape (ch :: t) chars).length ≤ (unescape t chars).length + 1 := by
  induction t generalizing ch with
  | nil => simp [unescape]
  | cons next t ih =>
    by_cases hch : ch = '\\'.toUInt8
    · have hnext := ih next
      subst hch
      by_cases hlisted : listed chars next = 0
      · rw [unescape_not_listed hlisted, List.length_cons]
        omega
      · rw [unescape_listed (Nat.pos_of_ne_zero hlisted), List.length_cons]
        omega
    · rw [unescape_plain hch, List.length_cons]
      omega

/-- Of a row of backslashes one in two is left, at least. -/
theorem length_unescape_replicate (chars : Bytes) (n : Nat) (t : Bytes) :
    n / 2 + (unescape t chars).length ≤
      (unescape (List.replicate n '\\'.toUInt8 ++ t) chars).length := by
  induction n using Nat.twoStepInduction with
  | zero => simp
  | one =>
    have := (length_unescape_cons chars '\\'.toUInt8 t).1
    simpa using this
  | more n ih _ =>
    rw [List.replicate_succ, List.replicate_succ, List.cons_append, List.cons_append,
      unescape_listed (listed_backslash chars), List.length_cons]
    omega

/-- A row of backslashes in front of another character. -/
theorem length_unescape_row (chars : Bytes) (n : Nat) (hch : ch ≠ '\\'.toUInt8) (t : Bytes) :
    n / 2 + 1 + (unescape t chars).length ≤
      (unescape (List.replicate n '\\'.toUInt8 ++ ch :: t) chars).length := by
  have hrow := length_unescape_replicate chars n (ch :: t)
  rw [unescape_plain hch, List.length_cons] at hrow
  omega

/-- A row of backslashes in front of one more. -/
theorem length_unescape_row_backslash (chars : Bytes) (n : Nat) (t : Bytes) :
    (n + 1) / 2 + (unescape t chars).length ≤
      (unescape (List.replicate n '\\'.toUInt8 ++ '\\'.toUInt8 :: t) chars).length := by
  have hrow := length_unescape_replicate chars (n + 1) t
  rwa [List.replicate_succ', List.append_assoc, List.singleton_append] at hrow

/-- An escaped character is not lost. -/
theorem length_unescape_block (chars : Bytes) (ch : UInt8) (t : Bytes) :
    (unescape t chars).length + 1 ≤
      (unescape (List.replicate (listed chars ch) '\\'.toUInt8 ++ ch :: t) chars).length := by
  by_cases hch : ch = '\\'.toUInt8
  · subst hch
    have hpos := listed_backslash chars
    have hrow := length_unescape_row_backslash chars (listed chars '\\'.toUInt8) t
    omega
  · have hrow := length_unescape_row chars (listed chars ch) hch t
    omega

theorem length_le_unescape_escape (chars s : Bytes) :
    s.length ≤ (unescape (escape s chars) chars).length := by
  induction s with
  | nil => exact Nat.zero_le _
  | cons ch s ih =>
    have hblock := length_unescape_block chars ch (escape s chars)
    rw [escape_cons, List.length_cons]
    omega

/-- One backslash in front of an escaped string, when `chars` lists the backslash
too, is not lost: it either stays or takes the place of another one. -/
theorem length_unescape_backslash_escape (h : 2 ≤ listed chars '\\'.toUInt8) (s : Bytes) :
    s.length + 1 ≤ (unescape ('\\'.toUInt8 :: escape s chars) chars).length := by
  cases s with
  | nil => exact Nat.le_refl 1
  | cons ch s =>
    have hs := length_le_unescape_escape chars s
    rw [escape_cons, ← List.cons_append, ← List.replicate_succ, List.length_cons]
    by_cases hch : ch = '\\'.toUInt8
    · subst hch
      have hrow := length_unescape_row_backslash chars (listed chars '\\'.toUInt8 + 1)
        (escape s chars)
      omega
    · by_cases hzero : listed chars ch = 0
      · rw [hzero, List.replicate_one, List.singleton_append, unescape_not_listed hzero,
          unescape_plain hch, List.length_cons, List.length_cons]
        omega
      · have hrow := length_unescape_row chars (listed chars ch + 1) hch (escape s chars)
        omega

/-- A character that is listed twice leaves a backslash behind. -/
theorem length_lt_unescape_escape {s : Bytes} (h : ∃ ch ∈ s, 2 ≤ listed chars ch) :
    s.length < (unescape (escape s chars) chars).length := by
  induction s with
  | nil =>
    obtain ⟨ch, hmem, -⟩ := h
    cases hmem
  | cons ch s ih =>
    obtain ⟨c, hmem, htwo⟩ := h
    rw [escape_cons, List.length_cons]
    rcases List.mem_cons.mp hmem with rfl | hmem
    · by_cases hch : c = '\\'.toUInt8
      · subst hch
        have hrow := length_unescape_replicate chars (listed chars '\\'.toUInt8)
          ('\\'.toUInt8 :: escape s chars)
        have hlast := length_unescape_backslash_escape htwo s
        omega
      · have hrow := length_unescape_row chars (listed chars c) hch (escape s chars)
        have hs := length_le_unescape_escape chars s
        omega
    · have htail := ih ⟨c, hmem, htwo⟩
      have hblock := length_unescape_block chars ch (escape s chars)
      omega

end Unescape

/-- `unescape` undoes `escape` exactly when no character of the string is listed
twice, in `chars` and the three quotes together. -/
theorem unescape_escape_iff (s chars : Bytes) :
    unescape (escape s chars) chars = s ↔ ∀ ch ∈ s, (chars ++ quotes).count ch ≤ 1 := by
  refine ⟨fun h => ?_, unescape_escape_of_le⟩
  by_contra htwice
  push Not at htwice
  have hlt : s.length < (unescape (escape s chars) chars).length :=
    length_lt_unescape_escape htwice
  rw [h] at hlt
  exact Nat.lt_irrefl _ hlt

/-- A quote that is listed once more. -/
theorem unescape_escape_fails :
    escape ['"'.toUInt8] ['"'.toUInt8] = ['\\'.toUInt8, '\\'.toUInt8, '"'.toUInt8] ∧
      unescape (escape ['"'.toUInt8] ['"'.toUInt8]) ['"'.toUInt8] ≠ ['"'.toUInt8] := by
  decide

/-! ## Strings in quotes -/

section Quoted

variable {f : UInt8 → Bool} {w : Bytes}

/-- In quotes everything is read as it is, up to the next quote of either kind. -/
theorem splitLoop_quoted (hw : ∀ ch ∈ w, ch ∉ quotes) (buf : Bytes) (vec : List Bytes)
    (rest : Bytes) :
    splitLoop f true buf vec (w ++ rest) = splitLoop f true (buf ++ w) vec rest := by
  induction w generalizing buf with
  | nil => rw [List.append_nil]; rfl
  | cons ch w ih =>
    have htail := ih fun c hc => hw c (List.mem_cons_of_mem ch hc)
    rw [List.cons_append, List.append_cons buf ch w,
      splitLoop_plain (hw ch List.mem_cons_self) (Bool.and_false _), htail]

/-- A quote is never in a word that is pushed. -/
theorem not_mem_pushWord {q : UInt8} {buf : Bytes} {vec : List Bytes} (hbuf : q ∉ buf)
    (hvec : ∀ word ∈ vec, q ∉ word) : ∀ word ∈ pushWord vec buf, q ∉ word := by
  intro word hword
  rw [pushWord] at hword
  split at hword
  · exact hvec word hword
  · rcases List.mem_append.mp hword with hword | hword
    · exact hvec word hword
    · exact List.mem_singleton.mp hword ▸ hbuf

/-- Without backslashes no quote gets into a word. -/
theorem not_mem_splitLoop {flag : Bool} {q : UInt8} (hq : q = '"'.toUInt8 ∨ q = '\''.toUInt8)
    {str : Bytes} (hstr : '\\'.toUInt8 ∉ str) {buf : Bytes} {vec : List Bytes} (hbuf : q ∉ buf)
    (hvec : ∀ word ∈ vec, q ∉ word) : ∀ word ∈ splitLoop f flag buf vec str, q ∉ word := by
  induction str generalizing flag buf vec with
  | nil => exact not_mem_pushWord hbuf hvec
  | cons ch str ih =>
    have htail : '\\'.toUInt8 ∉ str := fun h => hstr (List.mem_cons_of_mem ch h)
    have hbackslash : ch ≠ '\\'.toUInt8 := fun h => hstr (h ▸ List.mem_cons_self)
    by_cases hch : ch = '"'.toUInt8 ∨ ch = '\''.toUInt8
    · rw [splitLoop_quote hch]
      exact ih htail hbuf hvec
    · have hquotes : ch ∉ quotes := by
        rw [not_or] at hch
        simp [quotes, hbackslash, hch]
      by_cases hf : (f ch && !flag) = true
      · rw [Bool.and_eq_true, Bool.not_eq_true'] at hf
        rw [hf.2, splitLoop_separator hquotes hf.1]
        exact ih htail List.not_mem_nil (not_mem_pushWord hbuf hvec)
      · have hne : q ≠ ch := by
          rintro rfl
          exact hch hq
        rw [splitLoop_plain hquotes (Bool.eq_false_iff.mpr hf)]
        exact ih htail (by simp [hbuf, hne]) hvec

/-- Two different quotes are all that there are. -/
theorem eq_or_eq_of_quote {q q' ch : UInt8} (hq : q = '"'.toUInt8 ∨ q = '\''.toUInt8)
    (hq' : q' = '"'.toUInt8 ∨ q' = '\''.toUInt8) (hne : q ≠ q')
    (hch : ch = '"'.toUInt8 ∨ ch = '\''.toUInt8) : ch = q ∨ ch = q' := by
  rcases hq with rfl | rfl <;> rcases hq' with rfl | rfl
  · exact absurd rfl hne
  · exact hch
  · exact hch.symm
  · exact absurd rfl hne

/-- A string in quotes of one kind is one word exactly when it has no quote of the
other kind. -/
theorem split_quoted_iff (f : UInt8 → Bool) {q q' : UInt8}
    (hq : q = '"'.toUInt8 ∨ q = '\''.toUInt8) (hq' : q' = '"'.toUInt8 ∨ q' = '\''.toUInt8)
    (hne : q ≠ q') (hw : w ≠ []) (hbackslash : '\\'.toUInt8 ∉ w) (hfree : q ∉ w) :
    split (q :: w ++ [q]) f = [w] ↔ q' ∉ w := by
  constructor
  · intro h
    have hq : '\\'.toUInt8 ≠ q := by
      rcases hq with rfl | rfl <;> decide
    have hstr : '\\'.toUInt8 ∉ q :: w ++ [q] := by
      simp [hbackslash, hq]
    have hwords : ∀ word ∈ splitLoop f false [] [] (q :: w ++ [q]), q' ∉ word :=
      not_mem_splitLoop hq' hstr List.not_mem_nil fun _ h => absurd h List.not_mem_nil
    rw [split] at h
    rw [h] at hwords
    exact hwords w List.mem_cons_self
  · intro hother
    have hplain : ∀ ch ∈ w, ch ∉ quotes := by
      intro ch hch hmem
      obtain rfl | hquote : ch = '\\'.toUInt8 ∨ ch = '"'.toUInt8 ∨ ch = '\''.toUInt8 := by
        simpa [quotes] using hmem
      · exact hbackslash hch
      · obtain rfl | rfl := eq_or_eq_of_quote hq hq' hne hquote
        · exact hfree hch
        · exact hother hch
    rw [split, List.cons_append, splitLoop_quote hq, Bool.not_false, splitLoop_quoted hplain,
      splitLoop_quote hq, List.nil_append]
    cases w with
    | nil => exact absurd rfl hw
    | cons ch w => rfl

end Quoted

/-- A string without quotes of one kind, wrapped in these, is one word exactly when
it has no quotes of the other kind either. -/
theorem split_quotes_iff (c : UInt8) (w : Bytes) (hw : w ≠ []) (hbackslash : '\\'.toUInt8 ∉ w) :
    ('"'.toUInt8 ∉ w →
        (splitChar ('"'.toUInt8 :: w ++ ['"'.toUInt8]) c = [w] ↔ '\''.toUInt8 ∉ w)) ∧
      ('\''.toUInt8 ∉ w →
        (splitChar ('\''.toUInt8 :: w ++ ['\''.toUInt8]) c = [w] ↔ '"'.toUInt8 ∉ w)) :=
  ⟨split_quoted_iff (· == c) (.inl rfl) (.inr rfl) (by decide) hw hbackslash,
    split_quoted_iff (· == c) (.inr rfl) (.inl rfl) (by decide) hw hbackslash⟩

theorem split_quotes_iff_example :
    ('"'.toUInt8 ∉ ['a'.toUInt8, ' '.toUInt8, 'b'.toUInt8] →
        (splitChar ('"'.toUInt8 :: ['a'.toUInt8, ' '.toUInt8, 'b'.toUInt8] ++ ['"'.toUInt8])
            ' '.toUInt8 = [['a'.toUInt8, ' '.toUInt8, 'b'.toUInt8]] ↔
          '\''.toUInt8 ∉ ['a'.toUInt8, ' '.toUInt8, 'b'.toUInt8])) ∧
      ('\''.toUInt8 ∉ ['a'.toUInt8, ' '.toUInt8, 'b'.toUInt8] →
        (splitChar ('\''.toUInt8 :: ['a'.toUInt8, ' '.toUInt8, 'b'.toUInt8] ++ ['\''.toUInt8])
            ' '.toUInt8 = [['a'.toUInt8, ' '.toUInt8, 'b'.toUInt8]] ↔
          '"'.toUInt8 ∉ ['a'.toUInt8, ' '.toUInt8, 'b'.toUInt8])) :=
  split_quotes_iff ' '.toUInt8 ['a'.toUInt8, ' '.toUInt8, 'b'.toUInt8] (by decide) (by decide)

/-- An apostrophe ends the double quotes and is lost. -/
theorem split_quotes_fails :
    '"'.toUInt8 ∉ ['i'.toUInt8, 't'.toUInt8, '\''.toUInt8, 's'.toUInt8] ∧
      splitChar ('"'.toUInt8 :: ['i'.toUInt8, 't'.toUInt8, '\''.toUInt8, 's'.toUInt8] ++
          ['"'.toUInt8]) ' '.toUInt8 ≠
        [['i'.toUInt8, 't'.toUInt8, '\''.toUInt8, 's'.toUInt8]] := by
  decide

end Mwr.Strings
