import ServerPack.Session
import ServerPack.Settings.Document

/-!
The values that settings give to placeholders. A string stands for itself, a number for its spelling
and a boolean for its name; the request for a secret brings a new one at each use. Anything else is
no value.
-/

namespace ServerPack.Settings

/-- What a data path stands for: a fixed text, or a new secret at each use. -/
inductive Value where
  | text (text : Text)
  | secret
  deriving DecidableEq

/-- The value for which a JSON value stands, unless it is null, an array or an object. -/
def valueOf? : Json → Option Value
  | .string text => some (if text = secretRequest then .secret else .text text)
  | .number spelling => some (.text spelling)
  | .bool true => some (.text "true".toList)
  | .bool false => some (.text "false".toList)
  | .null | .array _ | .object _ => none

/-- The value of a data path. -/
def Document.value (document : Document) (path : Text) : Except Failure Value := do
  let found ← document.get (qualified path)
  match valueOf? found with
  | some value => .ok value
  | none => .error (.notSubstitutable (qualified path) found.kind)

/-- The text that takes the place of a placeholder with this path. -/
def Document.resolve (document : Document) (path : Text) : Action Text := do
  match ← Action.ofExcept (document.value path) with
  | .text text => return text
  | .secret => do
    Action.log .debug ("Generating secret for [" ++ String.ofList path ++ "]")
    Action.randomText secretLength

end ServerPack.Settings
