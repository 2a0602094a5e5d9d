import ServerPack.FileSystem.Resolve

/-!
Changes of a file system: one directory, file or link at a time, each refused as a whole or done as
a whole. A directory is made and a file is written where a path ends in a directory that exists; a
link that leads to a vacant place lets a file, but no directory, be made there.
-/

namespace ServerPack.FileSystem

/-- The file system with a node at a location. -/
def put (files : FileSystem) (location : Location) (node : Node) : FileSystem :=
  { files with tree := files.tree.insert location node }

/-- The file system without the node at a location. -/
def drop (files : FileSystem) (location : Location) : FileSystem :=
  { files with tree := files.tree.erase fun other => other = location }

/-- The file system without anything below a location. -/
def dropBelow (files : FileSystem) (location : Location) : FileSystem :=
  { files with tree := files.tree.erase fun other => location.isPrefixOf other && other ≠ location }

/-- Makes one directory in a directory that exists. -/
def makeDirectory (files : FileSystem) (path : Path) : Except IoFault FileSystem :=
  match files.resolveNames .itself path path.names with
  | .ok (.present _ _) => .error .alreadyExists
  | .ok (.vacant location) => .ok (files.put location .directory)
  | .error fault => .error fault

/-- Makes a symbolic link at a vacant place. The target need not lead anywhere, but it has to be a
path that could be followed. -/
def makeLink (files : FileSystem) (path target : Path) : Except IoFault FileSystem :=
  if target.bytes.contains 0 ∨ path.bytes.contains 0 then .error .nulInPath
  else if target.bytes = [] then .error .notFound
  else if target.isTooLong then .error .nameTooLong
  else match files.resolveNames .itself path path.names with
  | .ok (.present _ _) => .error .alreadyExists
  | .ok (.vacant location) =>
    if path.endsWithSlash then .error .notFound else .ok (files.put location (.link target))
  | .error fault => .error fault

/-- Opens a file for writing from its beginning: empties the one that is there or makes a new
one. -/
def openEmpty (files : FileSystem) (path : Path) : Except IoFault (Location × FileSystem) :=
  match files.resolve .writing path with
  | .ok (.present _ .directory) => .error .isADirectory
  | .ok (.present location _) | .ok (.vacant location) =>
    .ok (location, files.put location (.file (.plain [])))
  | .error fault => .error fault

/-- Writes a file that holds a content, whatever it held before. -/
def writeContent (files : FileSystem) (path : Path) (content : Content) : Except IoFault FileSystem := do
  let (location, files) ← files.openEmpty path
  .ok (files.put location (.file content))

/-- What the file at the end of a path holds. -/
def readContent (files : FileSystem) (path : Path) : Except IoFault Content := do
  match ← files.lookup .target path with
  | (_, .file content) => .ok content
  | _ => .error .isADirectory

/-- Copies one file. The copy is opened before anything is read, so a file copied to itself loses
what it held. -/
def copyContent (files : FileSystem) (source target : Path) : Except IoFault FileSystem := do
  match ← files.lookup .target source with
  | (location, .file _) =>
    let (copy, files) ← files.openEmpty target
    match files.tree.node? location with
    | some node => .ok (files.put copy node)
    | none => .ok files
  | _ => .error .notRegularFile

/-- Removes the directory at the end of a path, which is empty and has to be given by its own
name. -/
def removeDirectory (files : FileSystem) (path : Path) : Except IoFault FileSystem := do
  let _ ← files.resolveNames .target path (path.names.dropLast ++ [Path.dot])
  if path.names.getLast? = some Path.dot then .error .invalidArgument
  else if path.names.getLast? = some Path.dotDot then .error .directoryNotEmpty
  else
    match ← files.resolveNames .itself path path.names with
    | .present location .directory => .ok (files.drop location)
    | .present _ _ => .error .notADirectory
    | .vacant _ => .error .notFound

end ServerPack.FileSystem
