import Mwr.Logging.Routing
import Mwr.Stl.Quoting

/-!
# The lines of a message

`publish` escapes the text of a message before it splits it into lines.  The two
cancel out: the lines are the segments of the text, as they are, without the
empty ones.
-/

namespace Mwr.Logging

open Mwr.CodeLib (Bytes)
open Mwr.CodeLib.Exec Mwr.CodeLib.Transition
open Mwr.Containers
open Mwr.Strings

/-- The lines of a text: its segments between newlines that are not empty. -/
def textLines (str : Bytes) : List Bytes :=
  (str.splitOn '\n'.toUInt8).filter fun s => !s.isEmpty

theorem lines_logmsg (now : UInt64) (level : LogLevel) (sender str : Bytes)
    (file : Option Bytes) (line : Int) :
    (logmsg now level sender str file line).lines = textLines str := by
  have hquotes : ∀ ch, listed [] ch ≤ 1 := List.nodup_iff_count_le_one.mp (by decide)
  have hnewline : ∀ ch, (ch == '\n'.toUInt8) = true → listed [] ch = 0 := by
    intro ch hch
    rw [eq_of_beq hch]
    decide
  exact split_escape fun ch _ => ⟨hquotes ch, hnewline ch⟩

/-- Every call of `publish` passes on the one message that it has built. -/
theorem snd_of_mem_publish {s : State} {now : UInt64} {level : LogLevel} {sender str : Bytes}
    {file : Option Bytes} {line : Int} {calls : List (Ptr × Logmsg)}
    (h : s.publish now level sender str file line = .ok calls) {call : Ptr × Logmsg}
    (hcall : call ∈ calls) : call.2 = logmsg now level sender str file line := by
  simp only [State.publish] at h
  cases hlookup : s.lookup (logmsg now level sender str file line).level with
  | error e =>
    rw [hlookup, error_bind] at h
    cases h
  | ok loggers =>
    rw [hlookup, ok_bind] at h
    cases hcalled : s.publishTo (logmsg now level sender str file line) loggers with
    | error e =>
      rw [hcalled, error_bind] at h
      cases h
    | ok called =>
      rw [hcalled, ok_bind] at h
      cases h
      obtain ⟨logger, -, rfl⟩ := List.mem_map.mp hcall
      rfl

/-- Publishing succeeds in every run, and a publisher that is called gets the lines
of the text. -/
theorem log_lines {s : State} (h : system.Reachable s) (now : UInt64) (level : LogLevel)
    (sender str : Bytes) (file : Option Bytes) (line : Int) :
    (level ≤ .debug → ∃ calls, s.publish now level sender str file line = .ok calls) ∧
      ∀ calls, s.publish now level sender str file line = .ok calls →
        ∀ call ∈ calls, call.2.lines = textLines str := by
  refine ⟨fun hlevel => ?_, fun calls hcalls call hcall => ?_⟩
  · obtain ⟨called, hcalled, -, -⟩ :=
      publish_routed (reachable_routed h) now hlevel sender str file line
    exact ⟨_, hcalled⟩
  · rw [snd_of_mem_publish hcalls hcall]
    exact lines_logmsg now level sender str file line

/-- Two lines with an apostrophe and a backslash, at the one publisher that there
is. -/
theorem log_lines_example :
    ∃ s : State, ∃ call,
      s.publish 0 .warn [] ("it's\n\n\\o/".toList.map Char.toUInt8) none 0 = .ok [call] ∧
        call.2.lines = textLines ("it's\n\n\\o/".toList.map Char.toUInt8) := by
  let s₁ : State := ((State.empty.store 1 (some ⟨.error, .info, []⟩)).mapLevels
    (stlAddUnique · 1) (levels .error .info))
  have hreach₁ : system.Reachable s₁ := reachable_first 1 (by decide) (by decide)
  have hcall : ∃ call, s₁.publish 0 .warn [] ("it's\n\n\\o/".toList.map Char.toUInt8) none 0 =
      .ok [call] := ⟨_, rfl⟩
  obtain ⟨call, hcall⟩ := hcall
  exact ⟨s₁, call, hcall, (log_lines hreach₁ 0 .warn [] _ none 0).2 _ hcall call
    List.mem_cons_self⟩

end Mwr.Logging
