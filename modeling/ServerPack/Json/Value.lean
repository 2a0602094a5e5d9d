import ServerPack.Dictionary
import ServerPack.Text.Basic

/-!
JSON values. A number is kept as it was spelled, so `1.50` and `1.5` differ, and the members of an
object are a dictionary: sorted by key, each key once. `render` writes a value without any blank.
-/

namespace ServerPack

/-- A JSON value. -/
inductive Json where
  | null
  | bool (value : Bool)
  | number (spelling : Text)
  | string (value : Text)
  | array (items : List Json)
  | object (members : List (Text × Json))

namespace Json

/-- The six kinds of value. -/
inductive Kind where
  | null
  | boolean
  | number
  | string
  | array
  | object
  deriving DecidableEq

/-- The kind of a value. -/
def kind : Json → Kind
  | .null => .null
  | .bool _ => .boolean
  | .number _ => .number
  | .string _ => .string
  | .array _ => .array
  | .object _ => .object

/-- A kind as it is named in a sentence. -/
def Kind.phrase : Kind → String
  | .null => "null"
  | .boolean => "a boolean"
  | .number => "a number"
  | .string => "a string"
  | .array => "an array"
  | .object => "an object"

/-- Two hexadecimal digits, in lower case. -/
def hexPair (n : Nat) : Text := [Nat.digitChar (n / 16), Nat.digitChar (n % 16)]

/-- A character inside a string: quotes, backslashes and controls are escaped, all else stands for
itself. -/
def renderChar (c : Char) : Text :=
  if c = '"' then ['\\', '"']
  else if c = '\\' then ['\\', '\\']
  else if c = '\x08' then ['\\', 'b']
  else if c = '\x0c' then ['\\', 'f']
  else if c = '\n' then ['\\', 'n']
  else if c = '\r' then ['\\', 'r']
  else if c = '\t' then ['\\', 't']
  else if c.toNat < 0x20 then ['\\', 'u', '0', '0'] ++ hexPair c.toNat
  else [c]

/-- A string with its quotes. -/
def renderString (text : Text) : Text := '"' :: text.flatMap renderChar ++ ['"']

mutual

/-- The value written without blanks, members in key order. -/
def render : Json → Text
  | .null => "null".toList
  | .bool true => "true".toList
  | .bool false => "false".toList
  | .number spelling => spelling
  | .string text => renderString text
  | .array items => '[' :: Text.join ',' (renderItems items) ++ [']']
  | .object members => '\x7b' :: Text.join ',' (renderMembers members) ++ ['\x7d']

/-- The elements of an array, one by one. -/
def renderItems : List Json → List Text
  | [] => []
  | item :: rest => render item :: renderItems rest

/-- The members of an object, one by one. -/
def renderMembers : List (Text × Json) → List Text
  | [] => []
  | (key, value) :: rest => (renderString key ++ ':' :: render value) :: renderMembers rest

end

end Json

end ServerPack
