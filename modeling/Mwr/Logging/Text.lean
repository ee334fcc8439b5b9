import Mwr.Logging.Lines
import Mwr.Logging.Output

/-!
# Reading the output

What can be told from the text of a message.  The brackets of a prefix close before anything that
a user has chosen, and the time has a fixed shape, so that the parts of a text can be found again.

* `splitOn_printLogmsg` takes a text apart into the lines of the message.
* `printPrefix_injective` finds level and time in a prefix.
* `printLogmsg_readable` is the result for two messages of one sender.
-/

namespace Mwr.Logging

open Mwr.CodeLib (Bytes)
open Mwr.CodeLib.Bytes (str)
open Mwr.CodeLib.Digits
open Mwr.Strings

/-! ## Lists -/

/-- A piece between two separators does not contain one. -/
theorem not_mem_of_mem_splitOn {ch : UInt8} {s line : Bytes} (h : line ∈ s.splitOn ch) :
    ch ∉ line := by
  induction s generalizing line with
  | nil =>
    rw [List.splitOn_nil, List.mem_singleton] at h
    rw [h]
    exact List.not_mem_nil
  | cons x s ih =>
    rw [List.splitOn_cons_eq_if_modifyHead] at h
    split at h
    next =>
      rcases List.mem_cons.1 h with rfl | h
      · exact List.not_mem_nil
      · exact ih h
    next hx =>
      cases hs : s.splitOn ch with
      | nil => exact absurd hs (List.splitOn_ne_nil ch s)
      | cons first rest =>
        rw [hs] at ih
        rw [hs, List.modifyHead_cons, List.mem_cons] at h
        rcases h with rfl | h
        · rw [List.mem_cons, not_or]
          refine ⟨fun heq => hx ?_, ih List.mem_cons_self⟩
          rw [heq]
          exact beq_self_eq_true x
        · exact ih (List.mem_cons_of_mem first h)

/-- The first occurrence of a separator splits a list in one way. -/
theorem append_cons_inj {ch : UInt8} {a a' b b' : Bytes} (ha : ch ∉ a) (ha' : ch ∉ a')
    (h : a ++ ch :: b = a' ++ ch :: b') : a = a' ∧ b = b' := by
  induction a generalizing a' with
  | nil =>
    cases a' with
    | nil => exact ⟨rfl, (List.cons.inj h).2⟩
    | cons x a' => exact absurd ((List.cons.inj h).1 ▸ List.mem_cons_self) ha'
  | cons x a ih =>
    cases a' with
    | nil => exact absurd ((List.cons.inj h).1 ▸ List.mem_cons_self) ha
    | cons x' a' =>
      obtain ⟨rfl, htail⟩ := List.cons.inj h
      obtain ⟨rfl, rfl⟩ := ih (fun hmem => ha (List.mem_cons_of_mem x hmem))
        (fun hmem => ha' (List.mem_cons_of_mem x hmem)) htail
      exact ⟨rfl, rfl⟩

/-- The digits of a number are no punctuation. -/
theorem not_mem_of_isDigit {ch : UInt8} {s : Bytes} (hs : ∀ c ∈ s, isDigit 10 c = true)
    (hch : isDigit 10 ch = false) : ch ∉ s := by
  intro hmem
  rw [hs ch hmem] at hch
  cases hch

/-! ## Lines -/

theorem newline_not_mem_textLines {s line : Bytes} (h : line ∈ textLines s) :
    '\n'.toUInt8 ∉ line :=
  not_mem_of_mem_splitOn (List.mem_of_mem_filter h)

/-- The lines stand behind the prefix, with line breaks between them. -/
theorem printLines_eq (head : Bytes) (lines : List Bytes) :
    printLines head lines =
      ['\n'.toUInt8].intercalate (lines.map fun line => head ++ str " " ++ line) := by
  induction lines with
  | nil => rfl
  | cons line lines ih =>
    cases lines with
    | nil =>
      rw [List.map_singleton, List.intercalate_singleton]
      rfl
    | cons line' lines =>
      rw [List.map_cons, List.map_cons, List.intercalate_cons_cons, ← List.map_cons, ← ih]
      rfl

/-- What stands before the sender in a prefix. -/
def bracket (flags : Flags) (lvl : LogLevel) (now : UInt64) : Bytes :=
  str "[" ++ lvl.letter ++ printTiming flags now

/-- What stands behind the bracket. -/
def senderPart (flags : Flags) (sender : Bytes) : Bytes :=
  if flags.printSender && !sender.isEmpty then str " " ++ sender ++ str ":" else []

theorem printPrefix_eq (flags : Flags) (msg : Logmsg) :
    printPrefix flags msg =
      bracket flags msg.level msg.timestamp ++ ']'.toUInt8 :: senderPart flags msg.sender := by
  unfold printPrefix bracket senderPart
  rw [List.append_assoc]
  rfl

/-- A timing consists of digits, a space and a point. -/
theorem not_mem_printTiming (flags : Flags) (now : UInt64) {ch : UInt8}
    (hch : isDigit 10 ch = false) (hspace : ch ≠ ' '.toUInt8) (hpoint : ch ≠ '.'.toUInt8) :
    ch ∉ printTiming flags now := by
  have hnumeral : ∀ n, ch ∉ numeral 10 n := fun n =>
    not_mem_of_isDigit (fun c hc => isDigit_of_mem_numeral (by decide) (by decide) hc) hch
  have hpadded : ∀ n, ch ∉ padded 10 9 n := fun n =>
    not_mem_of_isDigit (fun c hc => isDigit_of_mem_padded (by decide) (by decide) hc) hch
  unfold printTiming
  split
  next =>
    simp only [List.mem_append, not_or]
    exact ⟨⟨⟨fun h => hspace (List.mem_singleton.1 h), hnumeral _⟩,
      fun h => hpoint (List.mem_singleton.1 h)⟩, hpadded _⟩
  next => exact List.not_mem_nil

theorem not_mem_bracket (flags : Flags) (lvl : LogLevel) (now : UInt64) {ch : UInt8}
    (hch : ch = ']'.toUInt8 ∨ ch = '\n'.toUInt8) : ch ∉ bracket flags lvl now := by
  have htiming : ch ∉ printTiming flags now := by
    rcases hch with rfl | rfl <;>
      exact not_mem_printTiming flags now (by decide) (by decide) (by decide)
  unfold bracket
  rw [List.mem_append, not_or]
  refine ⟨?_, htiming⟩
  rcases hch with rfl | rfl <;> cases lvl <;> decide

theorem newline_not_mem_printPrefix (flags : Flags) (msg : Logmsg)
    (hsender : '\n'.toUInt8 ∉ msg.sender) : '\n'.toUInt8 ∉ printPrefix flags msg := by
  rw [printPrefix_eq, List.mem_append, not_or, List.mem_cons, not_or]
  refine ⟨not_mem_bracket flags msg.level msg.timestamp (.inr rfl), by decide, ?_⟩
  unfold senderPart
  split
  next =>
    simp only [List.mem_append, not_or]
    exact ⟨⟨by decide, hsender⟩, by decide⟩
  next => exact List.not_mem_nil

/-- The lines of the text are those of the message, each behind the prefix. -/
theorem splitOn_printLogmsg {flags : Flags} (hsource : flags.printSource = false) (now : UInt64)
    (lvl : LogLevel) {sender : Bytes} (hsender : '\n'.toUInt8 ∉ sender) {text : Bytes}
    (htext : textLines text ≠ []) (file : Option Bytes) (line : Int) :
    (printLogmsg flags (logmsg now lvl sender text file line)).splitOn '\n'.toUInt8 =
      (textLines text).map fun l =>
        printPrefix flags (logmsg now lvl sender text file line) ++ str " " ++ l := by
  have hhead := newline_not_mem_printPrefix flags (logmsg now lvl sender text file line) hsender
  unfold printLogmsg
  rw [hsource, if_neg Bool.false_ne_true, List.append_nil, printLines_eq, lines_logmsg,
    List.splitOn_intercalate]
  · intro l hl
    obtain ⟨line', hline', rfl⟩ := List.mem_map.1 hl
    simp only [List.mem_append, not_or]
    exact ⟨⟨hhead, by decide⟩, newline_not_mem_textLines hline'⟩
  · exact fun hnil => htext (List.map_eq_nil_iff.1 hnil)

/-! ## Prefixes -/

theorem printTiming_injective {flags : Flags} (hflag : flags.printTimestamp = true)
    {now now' : UInt64} (h : printTiming flags now = printTiming flags now') : now = now' := by
  have hpoint : ∀ n, '.'.toUInt8 ∉ numeral 10 n := fun n => not_mem_of_isDigit
    (fun c hc => isDigit_of_mem_numeral (by decide) (by decide) hc) (by decide)
  unfold printTiming at h
  simp only [hflag, if_true, List.append_assoc] at h
  -- the point separates the seconds from the rest
  have hsplit : numeral 10 (now / 1000000000).toNat ++
      '.'.toUInt8 :: padded 10 9 (now % 1000000000).toNat =
      numeral 10 (now' / 1000000000).toNat ++
        '.'.toUInt8 :: padded 10 9 (now' % 1000000000).toNat := List.append_cancel_left h
  obtain ⟨hsec, hnano⟩ := append_cons_inj (hpoint _) (hpoint _) hsplit
  have hsec := congrArg (value 10) hsec
  have hnano := congrArg (value 10) hnano
  rw [value_numeral (by decide) (by decide), value_numeral (by decide) (by decide)] at hsec
  rw [value_padded (by decide) (by decide), value_padded (by decide) (by decide)] at hnano
  apply UInt64.toNat_inj.1
  rw [UInt64.toNat_div, UInt64.toNat_div] at hsec
  rw [UInt64.toNat_mod, UInt64.toNat_mod] at hnano
  rw [← Nat.div_add_mod now.toNat (1000000000 : UInt64).toNat, hsec, hnano, Nat.div_add_mod]

theorem letter_injective {lvl lvl' : LogLevel} (hlvl : lvl ≤ .debug) (hlvl' : lvl' ≤ .debug)
    (h : lvl.letter = lvl'.letter) : lvl = lvl' := by
  revert hlvl hlvl' h
  cases lvl <;> cases lvl' <;> decide

theorem length_letter {lvl : LogLevel} (hlvl : lvl ≤ .debug) : lvl.letter.length = 1 := by
  revert hlvl
  cases lvl <;> decide

/-- The closing bracket separates level and time from the rest. -/
theorem printPrefix_injective {flags : Flags} {msg msg' : Logmsg} {rest rest' : Bytes}
    (hlvl : msg.level ≤ .debug) (hlvl' : msg'.level ≤ .debug) (hsender : msg.sender = msg'.sender)
    (h : printPrefix flags msg ++ rest = printPrefix flags msg' ++ rest') :
    msg.level = msg'.level ∧ (flags.printTimestamp = true → msg.timestamp = msg'.timestamp) ∧
      printPrefix flags msg = printPrefix flags msg' := by
  rw [printPrefix_eq, printPrefix_eq, List.append_assoc, List.append_assoc, List.cons_append,
    List.cons_append] at h
  obtain ⟨hbracket, -⟩ := append_cons_inj (not_mem_bracket flags _ _ (.inl rfl))
    (not_mem_bracket flags _ _ (.inl rfl)) h
  have hshown : printPrefix flags msg = printPrefix flags msg' := by
    rw [printPrefix_eq, printPrefix_eq, hbracket, hsender]
  unfold bracket at hbracket
  obtain ⟨hhead, htiming⟩ := List.append_inj hbracket
    (by rw [List.length_append, List.length_append, length_letter hlvl, length_letter hlvl'])
  exact ⟨letter_injective hlvl hlvl' (List.append_cancel_left hhead),
    fun hflag => printTiming_injective hflag htiming, hshown⟩

/-- The text of a message that has a line can be read back, if the sender is known and has no
line break: its lines are those of the message, each behind the same prefix, and no message of
the sender with another level, other lines or, if it is printed, another time has this text. -/
theorem printLogmsg_readable (flags : Flags) (hsource : flags.printSource = false) (now : UInt64)
    (lvl : LogLevel) (hlvl : lvl ≤ .debug) (sender : Bytes) (hsender : '\n'.toUInt8 ∉ sender)
    (text : Bytes) (htext : textLines text ≠ []) (file : Option Bytes) (line : Int) :
    (printLogmsg flags (logmsg now lvl sender text file line)).splitOn '\n'.toUInt8 =
      (textLines text).map (fun l =>
        printPrefix flags (logmsg now lvl sender text file line) ++ str " " ++ l) ∧
    ∀ now' lvl' text' file' line', lvl' ≤ .debug → textLines text' ≠ [] →
      printLogmsg flags (logmsg now' lvl' sender text' file' line') =
        printLogmsg flags (logmsg now lvl sender text file line) →
      lvl' = lvl ∧ textLines text' = textLines text ∧
        (flags.printTimestamp = true → now' = now) := by
  refine ⟨splitOn_printLogmsg hsource now lvl hsender htext file line, ?_⟩
  intro now' lvl' text' file' line' hlvl' htext' heq
  have hsplit := congrArg (List.splitOn '\n'.toUInt8) heq
  rw [splitOn_printLogmsg hsource now lvl hsender htext file line,
    splitOn_printLogmsg hsource now' lvl' hsender htext' file' line'] at hsplit
  -- the first lines have the prefixes
  have hfirst : ∃ rest rest', printPrefix flags (logmsg now' lvl' sender text' file' line') ++
      rest = printPrefix flags (logmsg now lvl sender text file line) ++ rest' := by
    obtain ⟨l, ls, hl⟩ := List.exists_cons_of_ne_nil htext
    obtain ⟨l', ls', hl'⟩ := List.exists_cons_of_ne_nil htext'
    rw [hl, hl', List.map_cons, List.map_cons] at hsplit
    have hhead := (List.cons.inj hsplit).1
    rw [List.append_assoc, List.append_assoc] at hhead
    exact ⟨_, _, hhead⟩
  obtain ⟨rest, rest', hfirst⟩ := hfirst
  have hnew : (logmsg now' lvl' sender text' file' line').level ≤ .debug := hlvl'
  have hold : (logmsg now lvl sender text file line).level ≤ .debug := hlvl
  obtain ⟨hlevel, htime, hshown⟩ := printPrefix_injective hnew hold rfl hfirst
  refine ⟨hlevel, ?_, htime⟩
  rw [hshown] at hsplit
  exact (List.map_injective_iff.2 fun l l' h => List.append_cancel_left h) hsplit

/-- The greeting of two lines. -/
def greetingMsg : Logmsg := logmsg 1500000000 .info (str "cpu") (str "it's\nrunning") none (-1)

theorem printLogmsg_readable_greeting :
    (printLogmsg .initial greetingMsg).splitOn '\n'.toUInt8 =
      (textLines (str "it's\nrunning")).map fun l =>
        printPrefix .initial greetingMsg ++ str " " ++ l :=
  (printLogmsg_readable .initial rfl 1500000000 .info (by decide) (str "cpu") (by decide)
    (str "it's\nrunning") (by decide) none (-1)).1

end Mwr.Logging
