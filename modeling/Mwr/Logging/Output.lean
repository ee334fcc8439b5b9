import Mwr.CodeLib.Digits
import Mwr.Logging.Routing

/-!
# What the publishers write

The text of a message, the publishers of `src/mwr/logging/publishers/` with the streams that
they write to, and the class `logger`.

* `printLogmsg` is the text, for the flags that `publisher` keeps in static fields.
* `World` has the registry, the streams and the flags.  A stream that has failed takes no more
  bytes.
* `step` is one call of a publisher or a logger.
-/

namespace Mwr.Logging

open Mwr.CodeLib (Bytes)
open Mwr.CodeLib.Bytes (str)
open Mwr.CodeLib.Digits
open Mwr.CodeLib.Transition

/-! ## The text of a message -/

/-- `print_timestamp`, `print_sender`, `print_source` and `print_backtrace`. -/
structure Flags where
  printTimestamp : Bool
  printSender : Bool
  printSource : Bool
  printBacktrace : Bool
  deriving DecidableEq, Repr

def Flags.initial : Flags where
  printTimestamp := true
  printSender := true
  printSource := false
  printBacktrace := true

/-- `publisher::prefix[lvl]`.  The table ends before `NUM_LOG_LEVELS`, a level that no message
is printed with. -/
def LogLevel.letter : LogLevel → Bytes
  | error => str "E"
  | warn => str "W"
  | info => str "I"
  | debug => str "D"
  | numLogLevels => []

/-- `print_timing(os, timestamp)`. -/
def printTiming (flags : Flags) (timestamp : UInt64) : Bytes :=
  if flags.printTimestamp then
    let seconds := timestamp / 1000000000
    let nanosec := timestamp % 1000000000
    str " " ++ numeral 10 seconds.toNat ++ str "." ++ padded 10 9 nanosec.toNat
  else []

/-- `print_prefix(os, msg)`. -/
def printPrefix (flags : Flags) (msg : Logmsg) : Bytes :=
  str "[" ++ msg.level.letter ++ printTiming flags msg.timestamp ++ str "]" ++
    if flags.printSender && !msg.sender.isEmpty then str " " ++ msg.sender ++ str ":" else []

/-- What `print_logmsg` appends if `print_source` is set. -/
def printSource (msg : Logmsg) : Bytes :=
  str " (from " ++ (if msg.file.isEmpty then str "<unknown>" else msg.file) ++
    (if -1 < msg.line then str ":" ++ numeral 10 msg.line.toNat else []) ++ str ")"

/-- `std::endl`, and the end of a line in a text. -/
def endl : Bytes := str "\n"

/-- The loop of `print_logmsg`: each line behind the prefix, with a line break between two. -/
def printLines (head : Bytes) : List Bytes → Bytes
  | [] => []
  | [line] => head ++ str " " ++ line
  | line :: lines => head ++ str " " ++ line ++ endl ++ printLines head lines

/-- `print_logmsg(os, msg)`. -/
def printLogmsg (flags : Flags) (msg : Logmsg) : Bytes :=
  printLines (printPrefix flags msg) msg.lines ++ if flags.printSource then printSource msg else []

/-- The text of `s.c_str()`, which ends at a null character. -/
def cStr (s : Bytes) : Bytes := s.takeWhile (· ≠ 0)

/-- `struct stackframe`. -/
structure Stackframe where
  address : UInt64
  symbol : Bytes
  offset : UInt64

/-- `operator<<(os, frame)`. -/
def printStackframe (frame : Stackframe) : Bytes :=
  let address := str "[0x" ++ padded 16 12 frame.address.toNat ++ str "]"
  if frame.symbol.isEmpty then address ++ str " <unknown>"
  else
    address ++ str " " ++ cStr frame.symbol ++ str " +0x" ++ numeral 16 frame.offset.toNat

/-- `print_backtrace(bt, os)`. -/
def printBacktrace (bt : List Stackframe) : Bytes :=
  (if bt.isEmpty then str "<backtrace unavailable>" ++ endl else []) ++
    bt.reverse.flatMap fun frame => printStackframe frame ++ endl

/-! ## The publishers -/

/-- The subclasses of `publisher`, with the stream that the object writes to. -/
inductive Kind where
  | stream (os : Nat)
  /-- The stream of a file belongs to the object. -/
  | file (os : Nat)
  /-- `std::cerr` or `std::cout`. -/
  | terminal (os : Nat) (useColors : Bool)
  deriving DecidableEq, Repr

/-- An output stream, with all that has been written to it. -/
structure Ostream where
  good : Bool
  content : Bytes
  deriving DecidableEq, Repr

/-- `os << text`. -/
def Ostream.put (os : Ostream) (text : Bytes) : Ostream :=
  if os.good then { os with content := os.content ++ text } else os

/-- `terminal::colors[lvl]`, with no entry for `NUM_LOG_LEVELS`. -/
def LogLevel.color : LogLevel → Bytes
  | error => str "\x1b[31m"
  | warn => str "\x1b[33m"
  | info => str "\x1b[32m"
  | debug => str "\x1b[34m"
  | numLogLevels => []

/-- `termcolors::CLEAR`. -/
def clear : Bytes := str "\x1b[0m"

namespace Kind

/-- The stream of the publisher. -/
def os : Kind → Nat
  | stream os | file os | terminal os _ => os

/-- The constructor of the publisher opens the stream of a file, which may fail, and writes over
the file. -/
def initStreams (kind : Kind) (opened : Bool) (streams : Nat → Ostream) : Nat → Ostream :=
  match kind with
  | file os => Function.update streams os ⟨opened, []⟩
  | stream _ | terminal _ _ => streams

/-- What the publisher writes for a message. -/
def text (flags : Flags) (msg : Logmsg) : Kind → Bytes
  | stream _ | file _ => printLogmsg flags msg ++ endl
  | terminal _ useColors =>
    (if useColors then msg.level.color else []) ++ printLogmsg flags msg ++
      (if useColors then clear else []) ++ endl

/-- `publish(msg)` of a publisher of the kind, on the streams. -/
def publish (flags : Flags) (msg : Logmsg) (kind : Kind) (streams : Nat → Ostream) :
    Except Fault (Nat → Ostream) :=
  match kind with
  | stream os | file os =>
    .ok (Function.update streams os ((streams os).put (kind.text flags msg)))
  | terminal os _ =>
    if (streams os).good then
      .ok (Function.update streams os ((streams os).put (kind.text flags msg)))
    else .error (.error "log stream broken")

end Kind

/-! ## Loggers -/

/-- The publishers, the streams that they write to, and the flags. -/
structure World where
  registry : State
  kinds : Ptr → Kind
  streams : Nat → Ostream
  flags : Flags

/-- No publisher, and streams without content. -/
def World.initial : World where
  registry := .empty
  kinds := fun _ => .stream 0
  streams := fun _ => ⟨true, []⟩
  flags := .initial

/-- The fields of a `logger`. -/
structure Logger where
  name : Bytes
  level : LogLevel

/-- What a logger is asked to log. -/
inductive Content where
  /-- A formatted text. -/
  | text (msg : Bytes) (file : Option Bytes) (line : Int)
  | exception (what : Bytes)
  | report (message file : Bytes) (line : UInt64) (backtrace : List Stackframe)

namespace World

/-- `can_log(lvl)` of a logger. -/
def canLog (w : World) (self : Logger) (lvl : LogLevel) : Except Fault Bool :=
  if lvl ≤ self.level then w.registry.canPublish lvl else .ok false

/-- The publishers that a message goes to, one after the other. -/
def deliver (w : World) (calls : List (Ptr × Logmsg)) : Except Fault World := do
  let streams ← calls.foldlM (fun streams call => (w.kinds call.1).publish w.flags call.2 streams)
    w.streams
  .ok { w with streams }

/-- `publish(level, sender, str, file, line)` at the time `now`. -/
def publish (w : World) (now : UInt64) (level : LogLevel) (sender text : Bytes)
    (file : Option Bytes) (line : Int) : Except Fault World := do
  let calls ← w.registry.publish now level sender text file line
  w.deliver calls

/-- `publish(level, sender, rep)`, which prints the source whatever the flag says. -/
def publishReport (w : World) (now : UInt64) (level : LogLevel) (sender message file : Bytes)
    (line : UInt64) (backtrace : List Stackframe) : Except Fault World := do
  let text := (if w.flags.printBacktrace then printBacktrace backtrace else []) ++
    cStr message
  let print := w.flags.printSource
  let w := { w with flags := { w.flags with printSource := true } }
  let w ← w.publish now level sender text (some (cStr file)) line.toUInt32.toInt32.toInt
  .ok { w with flags := { w.flags with printSource := print } }

/-- `log`, `error`, `warn`, `info` and `debug` of a logger. -/
def log (w : World) (self : Logger) (lvl : LogLevel) (now : UInt64) (content : Content) :
    Except Fault World := do
  if ← w.canLog self lvl then
    match content with
    | .text msg file line => w.publish now lvl self.name msg file line
    | .exception what => w.publish now lvl self.name (str "exception: " ++ what) none (-1)
    | .report message file line backtrace =>
      w.publishReport now lvl self.name message file line backtrace
  else .ok w

end World

/-! ## Calls -/

/-- `filter_time(t0, t1)` adds this filter. -/
def timeFilter (t0 t1 : UInt64) (msg : Logmsg) : Bool := t0 ≤ msg.timestamp && msg.timestamp < t1

/-- `filter_source(file, line)` adds this one. -/
def sourceFilter (file : Bytes) (line : Int) (msg : Logmsg) : Bool :=
  file.isSuffixOf msg.file && (line = -1 || msg.line = line)

/-- The calls of publishers and loggers, and what else changes the streams. -/
inductive Call where
  /-- The constructor of a publisher.  A file that cannot be opened leaves a stream that has
  failed. -/
  | construct (this : Ptr) (kind : Kind) (opened : Bool)
  | setLevel (this : Ptr) (min max : LogLevel)
  | filter (this : Ptr) (filter : Logmsg → Bool)
  | filterTime (this : Ptr) (t0 t1 : UInt64)
  | filterSource (this : Ptr) (file : Bytes) (line : Int)
  | destroy (this : Ptr)
  | setFlags (flags : Flags)
  /-- The stream fails. -/
  | broken (os : Nat)
  | log (self : Logger) (lvl : LogLevel) (now : UInt64) (content : Content)

namespace World

/-- The constructors of `stream`, `file` and `terminal`, whose levels are all those that there
are. -/
def construct (w : World) (this : Ptr) (kind : Kind) (opened : Bool) : Except Fault World := do
  let registry ← w.registry.construct this .error .debug
  .ok { w with
    registry
    kinds := Function.update w.kinds this kind
    streams := kind.initStreams opened w.streams }

def step (w : World) : Call → Except Fault World
  | .construct this kind opened => w.construct this kind opened
  | .setLevel this min max => do
    let registry ← w.registry.setLevel this min max
    .ok { w with registry }
  | .filter this filter => do
    let registry ← w.registry.addFilter this filter
    .ok { w with registry }
  | .filterTime this t0 t1 => do
    let registry ← w.registry.addFilter this (timeFilter t0 t1)
    .ok { w with registry }
  | .filterSource this file line => do
    let registry ← w.registry.addFilter this (sourceFilter file line)
    .ok { w with registry }
  | .destroy this => do
    let registry ← w.registry.destroy this
    .ok { w with registry }
  | .setFlags flags => .ok { w with flags }
  | .broken os =>
    .ok { w with streams := Function.update w.streams os { w.streams os with good := false } }
  | .log self lvl now content => w.log self lvl now content

/-- A publisher is constructed at a free address and used while it is alive, and levels are
those that there are. -/
def Enabled (w : World) : Call → Prop
  | .construct this _ _ => w.registry.objects this = none
  | .setLevel this min max =>
    w.registry.objects this ≠ none ∧ min ≤ .debug ∧ max ≤ .debug
  | .filter this _ | .filterTime this _ _ | .filterSource this _ _ | .destroy this =>
    w.registry.objects this ≠ none
  | .setFlags _ | .broken _ => True
  | .log _ lvl _ _ => lvl ≤ .debug

end World

/-- Runs from the initial world. -/
def outputSystem : System World Call where
  init := fun w => w = .initial
  step := fun w c w' => w.Enabled c ∧ w.step c = .ok w'

end Mwr.Logging
