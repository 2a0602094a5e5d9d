import ServerPack.Json.Lexeme
import ServerPack.Json.Value

/-!
Reading JSON. `Reader.step` is a machine over lexemes with a stack of the containers that are open;
`read` runs it over the lexemes of a text. What becomes of the values is left to a `Builder`; for
`read` it is `Builder.json`. At most 127 containers may be open at once. When a key stands twice in
an object, the later member counts.

An object whose first key is `numberKey` is not an object but a number: its one member has to be a
string that is a number, and that number is the value.
-/

namespace ServerPack.Json

/-- The key of an object that is a number. -/
def numberKey : Text := "$serde_json::private::Number".toList

/-- The number of containers that may be open at once. -/
def maxOpen : Nat := 127

/-- What is made of each kind of value, from the inside out. -/
structure Builder (α : Type) where
  null : α
  bool : Bool → α
  number : Text → α
  string : Text → α
  array : List α → α
  object : List (Text × α) → α

/-- Each value is made the JSON value that it is. -/
def Builder.json : Builder Json := ⟨.null, .bool, .number, .string, .array, .object⟩

/-- An open container: an array with its elements so far, last first, or an object with its members
so far and the key read last. -/
inductive Frame (α : Type) where
  | array (items : List α)
  | object (members : List (Text × α)) (key : Text)

/-- What may come next. -/
inductive Expecting where
  | value
  | elementOrClose
  | element
  | keyOrClose
  | key
  | colon
  | separator
  | numberColon
  | numberText
  | numberClose (spelling : Text)
  deriving DecidableEq

/-- The reader: inside open containers and expecting something, or done with a whole value. -/
inductive Reader (α : Type) where
  | reading (stack : List (Frame α)) (expecting : Expecting)
  | done (value : α)

namespace Reader

variable {α : Type}

/-- Gives a whole value to the container that was waiting for it. -/
def complete (value : α) : List (Frame α) → Reader α
  | [] => .done value
  | .array items :: stack => .reading (.array (value :: items) :: stack) .separator
  | .object members key :: stack =>
    .reading (.object (Dictionary.insert key value members) key :: stack) .separator

/-- Opens a container, if there may be one more. -/
def openContainer (lexeme : Lexeme) (stack : List (Frame α)) (frame : Frame α) (expecting : Expecting) :
    Except Fault (Reader α) :=
  if stack.length < maxOpen then .ok (.reading (frame :: stack) expecting)
  else .error ⟨.tooDeep, lexeme.before - 1, none⟩

/-- A lexeme where a value has to be; `otherwise` is the problem if none begins here. -/
def readValue (build : Builder α) (lexeme : Lexeme) (stack : List (Frame α)) (otherwise : Problem) :
    Except Fault (Reader α) :=
  match lexeme.token with
  | .null => .ok (complete build.null stack)
  | .bool value => .ok (complete (build.bool value) stack)
  | .number spelling => .ok (complete (build.number spelling) stack)
  | .string value => .ok (complete (build.string value) stack)
  | .arrayOpen => openContainer lexeme stack (.array []) .elementOrClose
  | .objectOpen => openContainer lexeme stack (.object [] []) .keyOrClose
  | .brokenString fault | .brokenScalar fault => .error fault
  | .arrayClose | .objectClose | .comma | .colon | .stray =>
    .error ⟨otherwise, lexeme.before - 1, none⟩

/-- A lexeme where the text of a number has to be. -/
def readNumberText (lexeme : Lexeme) (stack : List (Frame α)) : Except Fault (Reader α) :=
  let mistyped (found : Found) (left : Nat) : Except Fault (Reader α) :=
    .error ⟨.notNumberText found, left, none⟩
  match lexeme.token with
  | .string text => (Number.read text).map fun spelling => .reading stack (.numberClose spelling)
  | .null => mistyped .null lexeme.behind
  | .bool value => mistyped (.boolean value) lexeme.behind
  | .number spelling => mistyped (Number.found spelling) lexeme.behind
  | .arrayOpen => mistyped .sequence lexeme.before
  | .objectOpen => mistyped .map lexeme.before
  | .brokenString fault | .brokenScalar fault => .error fault
  | .arrayClose | .objectClose | .comma | .colon | .stray =>
    .error ⟨.expectedValue, lexeme.before - 1, none⟩

/-- One more lexeme. -/
def step (build : Builder α) (reader : Reader α) (lexeme : Lexeme) : Except Fault (Reader α) :=
  let unexpected (problem : Problem) : Except Fault (Reader α) := .error ⟨problem, lexeme.before - 1, none⟩
  match reader with
  | .done _ => unexpected .trailingCharacters
  | .reading stack expecting =>
    match expecting, lexeme.token, stack with
    | .value, _, _ => readValue build lexeme stack .expectedValue
    | .elementOrClose, .arrayClose, .array items :: rest => .ok (complete (build.array items.reverse) rest)
    | .elementOrClose, _, _ => readValue build lexeme stack .expectedValue
    | .element, .arrayClose, _ => unexpected .trailingComma
    | .element, _, _ => readValue build lexeme stack .expectedValue
    | .keyOrClose, .objectClose, .object members _ :: rest => .ok (complete (build.object members) rest)
    | .keyOrClose, .string key, .object members _ :: rest =>
      .ok (.reading (.object members key :: rest) (if key = numberKey then .numberColon else .colon))
    | .key, .objectClose, _ => unexpected .trailingComma
    | .key, .string key, .object members _ :: rest => .ok (.reading (.object members key :: rest) .colon)
    | .keyOrClose, .brokenString fault, _ | .key, .brokenString fault, _ => .error fault
    | .keyOrClose, _, _ | .key, _, _ => unexpected .keyNotString
    | .colon, .colon, _ => .ok (.reading stack .value)
    | .numberColon, .colon, _ => .ok (.reading stack .numberText)
    | .colon, _, _ | .numberColon, _, _ => unexpected .expectedColon
    | .separator, .comma, .array _ :: _ => .ok (.reading stack .element)
    | .separator, .comma, .object _ _ :: _ => .ok (.reading stack .key)
    | .separator, .arrayClose, .array items :: rest => .ok (complete (build.array items.reverse) rest)
    | .separator, .objectClose, .object members _ :: rest => .ok (complete (build.object members) rest)
    | .separator, _, .object _ _ :: _ => unexpected .expectedObjectSeparator
    | .separator, _, _ => unexpected .expectedListSeparator
    | .numberText, _, _ => readNumberText lexeme stack
    | .numberClose spelling, .objectClose, _ => .ok (complete (build.number spelling) stack.tail)
    | .numberClose _, .comma, _ => unexpected .trailingComma
    | .numberClose _, _, _ => unexpected .trailingCharacters

/-- The value that was read when the text ends here. -/
def finish : Reader α → Except Fault α
  | .done value => .ok value
  | .reading stack expecting =>
    let problem : Problem :=
      match expecting, stack with
      | .value, _ | .element, _ | .key, _ | .numberText, _ => .endInValue
      | .elementOrClose, _ => .endInList
      | .separator, .array _ :: _ => .endInList
      | .separator, _ => .endInObject
      | .keyOrClose, _ | .colon, _ | .numberColon, _ | .numberClose _, _ => .endInObject
    .error ⟨problem, 0, none⟩

end Reader

/-- What is made of the value of a list of lexemes. -/
def ofLexemes {α : Type} (build : Builder α) (list : List Lexeme) : Except Fault α := do
  let reader ← list.foldlM (Reader.step build) (.reading [] .value)
  reader.finish

/-- The value that a text is written for, or what is wrong with the text. -/
def read (text : Text) : Except Fault Json := ofLexemes .json (lexemes text)

end ServerPack.Json
