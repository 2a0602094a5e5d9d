import ServerPack.Text.ControlSequence

/-!
Log records. Every record has a level; a filter lets through the records that are at least as severe
as it is. The number of times that more output was asked for selects the filter:
`Level.ofVerbosity`. `LogRecord.line` is a record as it is written to the error output.
-/

namespace ServerPack

/-- How important a log record is, the most severe first. -/
inductive Level where
  | error
  | info
  | debug
  | trace
  deriving DecidableEq

namespace Level

/-- The place in the order of severity, 0 for the most severe. -/
def rank : Level → Nat
  | error => 0
  | info => 1
  | debug => 2
  | trace => 3

/-- The name that stands in front of a record. -/
def name : Level → String
  | error => "ERROR"
  | info => "INFO"
  | debug => "DEBUG"
  | trace => "TRACE"

/-- The filter for a count of verbosity options. -/
def ofVerbosity : Nat → Level
  | 0 => error
  | 1 => info
  | 2 => debug
  | _ => trace

end Level

/-- One line of the log. -/
structure LogRecord where
  level : Level
  message : String
  deriving DecidableEq

/-- The records that a filter lets through, in order. -/
def LogRecord.visible (filter : Level) (records : List LogRecord) : List LogRecord :=
  records.filter fun record => record.level.rank ≤ filter.rank

/-- A text with every line but the first moved to the right. -/
def indented (text : Text) : Text :=
  text.flatMap fun c => if c = '\n' then ['\n', ' ', ' ', ' ', ' '] else [c]

/-- The line for a record: its level and its message, further lines of which are indented, without
control sequences. A sequence that the message leaves unfinished takes the end of the line. -/
def LogRecord.line (record : LogRecord) : Text :=
  Text.withoutControls (record.level.name.toList ++ ' ' :: indented record.message.toList ++ ['\n'])

end ServerPack
