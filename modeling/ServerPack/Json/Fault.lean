import ServerPack.Text.Quoted
import ServerPack.Text.Utf8

/-!
What can be wrong with a JSON text, and where. A fault counts the bytes that were still unread when
it was noticed; `position` turns that into a line, counted from 1, and a column, counted in bytes
from the last line break. A problem that is met while the next byte is only looked at counts that
byte as read, so the position is always that of the last byte that had a part in it.
-/

namespace ServerPack.Json

/-- What was found where a value of another type should be. -/
inductive Found where
  | null
  | boolean (value : Bool)
  | integer (value : Int)
  | number
  | string (text : Text)
  | sequence
  | map
  deriving DecidableEq

/-- How a message names what was found. -/
def Found.phrase : Found → String
  | .null => "null"
  | .boolean value => "boolean `" ++ toString value ++ "`"
  | .integer value => "integer `" ++ toString value ++ "`"
  | .number => "number"
  | .string text => "string " ++ String.ofList (Text.quoted text)
  | .sequence => "sequence"
  | .map => "map"

/-- The problems of a JSON text. -/
inductive Problem where
  | endInValue
  | endInList
  | endInObject
  | endInString
  | expectedValue
  | expectedLiteral
  | expectedColon
  | expectedListSeparator
  | expectedObjectSeparator
  | keyNotString
  | trailingComma
  | trailingCharacters
  | invalidNumber
  | invalidEscape
  | loneSurrogate
  | unfinishedPair
  | controlCharacter
  | tooDeep
  | notNumberText (found : Found)
  deriving DecidableEq

/-- What is said of a problem, without its position. -/
def Problem.message : Problem → String
  | .endInValue => "EOF while parsing a value"
  | .endInList => "EOF while parsing a list"
  | .endInObject => "EOF while parsing an object"
  | .endInString => "EOF while parsing a string"
  | .expectedValue => "expected value"
  | .expectedLiteral => "expected ident"
  | .expectedColon => "expected `:`"
  | .expectedListSeparator => "expected `,` or `]`"
  | .expectedObjectSeparator => "expected `,` or `\x7d`"
  | .keyNotString => "key must be a string"
  | .trailingComma => "trailing comma"
  | .trailingCharacters => "trailing characters"
  | .invalidNumber => "invalid number"
  | .invalidEscape => "invalid escape"
  | .loneSurrogate => "lone leading surrogate in hex escape"
  | .unfinishedPair => "unexpected end of hex escape"
  | .controlCharacter => "control character (\\u0000-\\u001F) found while parsing a string"
  | .tooDeep => "recursion limit exceeded"
  | .notNumberText found => "invalid type: " ++ found.phrase ++ ", expected string containing a number"

/-- A line and a column in it. -/
structure Position where
  line : Nat
  column : Nat
  deriving DecidableEq

/-- The position behind the first bytes of a text. -/
def Position.behind (bytes : Bytes) : Position where
  line := 1 + bytes.count 0x0A
  column := (bytes.reverse.takeWhile (· ≠ 0x0A)).length

/-- A problem, the number of bytes left unread behind it, and the text in which they are counted if
that is not the whole document but a number written inside one of its strings. -/
structure Fault where
  problem : Problem
  left : Nat
  within : Option Text := none
  deriving DecidableEq

/-- Where a fault of a document lies. -/
def Fault.position (document : Text) (fault : Fault) : Position :=
  let bytes := Utf8.encode (fault.within.getD document)
  .behind (bytes.take (bytes.length - fault.left))

/-- The message for a fault of a document. -/
def Fault.message (document : Text) (fault : Fault) : String :=
  let position := fault.position document
  fault.problem.message ++ " at line " ++ toString position.line ++ " column " ++ toString position.column

end ServerPack.Json
