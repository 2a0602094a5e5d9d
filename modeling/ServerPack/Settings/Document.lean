import ServerPack.Settings.Section

/-!
Settings documents: an object that holds a placeholder section, and the folder-name suffixes listed
there. `parse` reads one, `get` looks a dot-separated path up from the root, and `secrets` lists the
paths below the section's data whose value asks for a secret.
-/

namespace ServerPack.Settings

/-- The key of the placeholder section. -/
def sectionKey : Text := "placeholder".toList

/-- The key of the section's data. -/
def dataKey : Text := "data".toList

/-- The value that asks for a secret to be generated wherever it is used. -/
def secretRequest : Text := "$(velocity.secret)".toList

/-- The path in the document of a path in the section's data. -/
def qualified (path : Text) : Text := "placeholder.data.".toList ++ path

/-- A settings document. -/
structure Document where
  root : List (Text × Json)
  suffixes : List Text

/-- The document that a text is. -/
def parse (text : Text) : Except Failure Document := do
  let value ← (Json.read text).mapError (.settingsSyntax text)
  match value with
  | .object root =>
    match Dictionary.get? sectionKey root with
    | none => .error .noPlaceholderSection
    | some part =>
      let suffixes ← (readSection part).mapError .settingsShape
      .ok ⟨root, suffixes⟩
  | other => .error (.rootNotObject other.kind)

/-- Why keys lead to no value: one is missing, or one before the last holds something other than an
object. -/
inductive Obstacle where
  | missing
  | notObject (key : Text)
  deriving DecidableEq

/-- The value to which keys lead, one object into the next. -/
def descend (members : List (Text × Json)) : List Text → Except Obstacle Json
  | [] => .error .missing
  | [key] =>
    match Dictionary.get? key members with
    | some value => .ok value
    | none => .error .missing
  | key :: rest =>
    match Dictionary.get? key members with
    | some (.object inner) => descend inner rest
    | some _ => .error (.notObject key)
    | none => .error .missing

/-- The failure of a lookup that met an obstacle. -/
def Obstacle.failure (path : Text) : Obstacle → Failure
  | .missing => .unknownPath path
  | .notObject key => .notAnObject key path

/-- The value at a dot-separated path, of whatever type. -/
def Document.get (document : Document) (path : Text) : Except Failure Json :=
  (descend document.root (Text.split '.' path)).mapError (Obstacle.failure path)

/-- A path one key longer; the empty path has no keys. -/
def extend (path key : Text) : Text := if path.isEmpty then key else path ++ '.' :: key

mutual

/-- The paths at and below a value that ask for a secret. -/
def secretsAt (path : Text) : Json → List Text
  | .object members => secretsBelow path members
  | .string text => if text = secretRequest then [path] else []
  | _ => []

/-- The paths below an object that ask for a secret, in key order. -/
def secretsBelow (path : Text) : List (Text × Json) → List Text
  | [] => []
  | (key, value) :: rest => secretsAt (extend path key) value ++ secretsBelow path rest

end

/-- The section's data, if it can be reached by its key. -/
def Document.data? (document : Document) : Option (List (Text × Json)) :=
  match Dictionary.get? sectionKey document.root with
  | some (.object fields) =>
    match Dictionary.get? dataKey fields with
    | some (.object members) => some members
    | _ => none
  | _ => none

/-- The data paths whose stored value asks for a secret, sorted. -/
def Document.secrets (document : Document) : List Text :=
  ((document.data?.map (secretsBelow [])).getD []).mergeSort fun a b => !decide (b < a)

end ServerPack.Settings
