import Mathlib.Tactic.Common

/-!
# Log levels, events and format items

The data of a log call (`LogLevel`, `LogEvent` in `atpdxy/log.h`) and the items
a pattern is made of, each with the text it prints (`atpdxy/log.cpp`). A
`std::string` is the list of its bytes.

`strftime` is a parameter. Its buffer has 64 bytes; a result that does not fit
leaves the buffer as it was, so what it held is a parameter too (`stack`).
-/

namespace Atpdxy.Log

/-- A `std::string`. -/
abbrev Text := List Char

/-- `LogLevel::Level`. -/
inductive Level
  | unknow | debug | info | warn | error | fatal
  deriving DecidableEq, Repr

/-- The enumerator's value. -/
def Level.val : Level → Nat
  | .unknow => 0
  | .debug => 1
  | .info => 2
  | .warn => 3
  | .error => 4
  | .fatal => 5

instance : LE Level := ⟨fun a b => a.val ≤ b.val⟩
instance : LT Level := ⟨fun a b => a.val < b.val⟩
instance (a b : Level) : Decidable (a ≤ b) := inferInstanceAs (Decidable (a.val ≤ b.val))
instance (a b : Level) : Decidable (a < b) := inferInstanceAs (Decidable (a.val < b.val))

/-- `LogLevel::FromString`. -/
def Level.fromString (str : Text) : Level :=
  if str = "debug".toList then .debug
  else if str = "info".toList then .info
  else if str = "warn".toList then .warn
  else if str = "error".toList then .error
  else if str = "fatal".toList then .fatal
  else if str = "DEBUG".toList then .debug
  else if str = "INFO".toList then .info
  else if str = "WARN".toList then .warn
  else if str = "ERROR".toList then .error
  else if str = "FATAL".toList then .fatal
  else .unknow

/-- `LogLevel::ToString`. -/
def Level.toString : Level → Text
  | .debug => "DEBUG".toList
  | .info => "INFO".toList
  | .warn => "WARN".toList
  | .error => "ERROR".toList
  | .fatal => "FATAL".toList
  | .unknow => "UNKNOW".toList

theorem Level.fromString_toString (level : Level) : Level.fromString level.toString = level := by
  cases level <;> decide

/-- `LogEvent`; of `m_logger` the items read the name. -/
structure Event where
  file : Text
  line : Int32
  elapse : UInt32
  threadId : UInt32
  fiberId : UInt32
  time : UInt64
  content : Text
  threadName : Text
  logger : Text

/-- `getElapse` returns an `int32_t`. -/
def Event.getElapse (event : Event) : Int32 := event.elapse.toInt32

/-- The classes derived from `LogFormatter::FormatItem`. -/
inductive FormatItem
  | message
  | level
  | elapse
  | name
  | threadId
  | newLine
  | dateTime (format : Text)
  | filename
  | line
  | tab
  | fiberId
  | threadName
  | string (str : Text)
  deriving DecidableEq, Repr

/-- `strftime` on a format and a time, whatever the size of the buffer. -/
abbrev Strftime := Text → Int64 → Text

/-- The default of `DateTimeFormatItem`. -/
def defaultTimeFormat : Text := "%Y-%m-%d %H:%M:%S".toList

/-- `c_str()`: what a C function sees of a `std::string`. -/
def cStr (s : Text) : Text := s.takeWhile (· ≠ '\x00')

/-- The text `DateTimeFormatItem` prints. -/
def printTime (strftime : Strftime) (stack format : Text) (time : UInt64) : Text :=
  let format := if format.isEmpty then defaultTimeFormat else format
  let buf := strftime (cStr format) time.toInt64
  if buf.length < 64 then buf else stack

/-- `operator<<` on an integer. -/
def decimal (n : Int) : Text := n.repr.toList

/-- `FormatItem::format`. No item reads its `logger` argument. -/
def FormatItem.format (strftime : Strftime) (stack : Text) (level : Level) (event : Event) : FormatItem → Text
  | .message => event.content
  | .level => level.toString
  | .elapse => decimal event.getElapse.toInt
  | .name => event.logger
  | .threadId => decimal event.threadId.toNat
  | .newLine => ['\n']
  | .dateTime format => printTime strftime stack format event.time
  | .filename => event.file
  | .line => decimal event.line.toInt
  | .tab => ['\t']
  | .fiberId => decimal event.fiberId.toNat
  | .threadName => event.threadName
  | .string str => str

end Atpdxy.Log
