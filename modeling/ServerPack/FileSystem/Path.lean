import ServerPack.Failure

/-!
Paths as they are written. A path is a byte string in which slashes separate names; it says nothing
about what is there. `components` reads it, leaving out empty names and every `.` but a leading one;
`join` writes one path behind another, as text. The parts of a path that have to be shown exactly
have to be UTF-8.
-/

namespace ServerPack

/-- The name of a directory entry. -/
abbrev Name := Bytes

/-- A path. -/
structure Path where
  bytes : Bytes
  deriving DecidableEq

namespace Path

/-- The byte between names. -/
def slash : UInt8 := 0x2F

/-- The name for the directory itself. -/
def dot : Name := [0x2E]

/-- The name for the directory above. -/
def dotDot : Name := [0x2E, 0x2E]

/-- The path that is written so. -/
def ofText (text : Text) : Path := ⟨Utf8.encode text⟩

/-- The path as it is shown in messages. -/
def display (path : Path) : String := String.ofList (Utf8.decodeLossy path.bytes)

/-- A byte string as text, if it is UTF-8. -/
def nameText (name : Name) : Except Failure Text :=
  match Utf8.decode? name with
  | some text => .ok text
  | none => .error (.nameNotUtf8 (Utf8.decodeLossy name))

/-- The path as text, if it is UTF-8. -/
def text (path : Path) : Except Failure Text := nameText path.bytes

/-- The path begins at the root. -/
def isAbsolute (path : Path) : Bool := path.bytes.head? = some slash

/-- The bytes that a name may have. -/
def maxNameLength : Nat := 255

/-- The bytes that a path may have. -/
def maxLength : Nat := 4095

/-- The path is longer than one that can be followed. -/
def isTooLong (path : Path) : Bool := maxLength < path.bytes.length

/-- The path ends with a slash, as only one to a directory may. -/
def endsWithSlash (path : Path) : Bool := path.bytes.getLast? = some slash

/-- The names of a path in order, `.` and `..` among them. -/
def names (path : Path) : List Name := (Text.split slash path.bytes).filter (· ≠ [])

/-- The names of a path, and an empty one behind them for a slash at the end. -/
def steps (path : Path) : List Name := path.names ++ if path.endsWithSlash then [[]] else []

/-- The parts of a path. -/
inductive Component where
  | root
  | current
  | up
  | entry (name : Name)
  deriving DecidableEq

/-- How a part is written. -/
def Component.bytes : Component → Bytes
  | .root => [slash]
  | .current => dot
  | .up => dotDot
  | .entry name => name

/-- The part for a name that is not `.`. -/
def Component.ofName (name : Name) : Component := if name = dotDot then .up else .entry name

/-- The parts of a path. -/
def components (path : Path) : List Component :=
  let rest := (path.names.filter (· ≠ dot)).map Component.ofName
  if path.isAbsolute then .root :: rest
  else if (Text.split slash path.bytes).head? = some dot then .current :: rest
  else rest

/-- The path with these parts. -/
def ofComponents : List Component → Path
  | .root :: rest => ⟨slash :: Text.join slash (rest.map Component.bytes)⟩
  | parts => ⟨Text.join slash (parts.map Component.bytes)⟩

/-- A path behind another one; an absolute path stays as it is. -/
def join (base path : Path) : Path :=
  if path.isAbsolute then path
  else if base.bytes = [] ∨ base.endsWithSlash then ⟨base.bytes ++ path.bytes⟩
  else ⟨base.bytes ++ slash :: path.bytes⟩

/-- The path of an entry of a directory. -/
def child (base : Path) (name : Name) : Path := base.join ⟨name⟩

/-- The path without its last part; the root and the empty path have none. -/
def parent? (path : Path) : Option Path :=
  match path.components with
  | [] => none
  | [.root] => none
  | parts => some (ofComponents parts.dropLast)

/-- The last part of a path if it is a name. -/
def lastName? (path : Path) : Option Name :=
  match path.components.getLast? with
  | some (.entry name) => some name
  | _ => none

/-- The name of the directory in which the path lies, if the path says it. -/
def containingFolder (path : Path) : Except Failure (Option Text) :=
  match path.parent?.bind lastName? with
  | some name => (nameText name).map some
  | none => .ok none

/-- Names written with slashes between them, as archives name their entries. -/
def archiveNameOf (parts : List Name) : Except Failure Text := do
  let texts ← parts.mapM nameText
  .ok (Text.join '/' texts)

/-- The entry name of a path. -/
def archiveName (path : Path) : Except Failure Text := archiveNameOf (path.components.map Component.bytes)

end Path

end ServerPack
