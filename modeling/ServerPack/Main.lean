import Std.Time.DateTime.Timestamp
import ServerPack.CommandLine.Program

/-!
The program on a real machine. What lies in the data directory is read into a file tree, the run is
computed, and the differences are written back; the random source and the clock are read beforehand,
the clock in universal time.
-/

namespace ServerPack.Main

/-- The path of a location for the operating system. -/
def placeOf (location : Location) : String :=
  String.ofList ('/' :: Text.join '/' (location.map Utf8.decodeLossy))

/-- The location that an absolute path names, `.` and `..` taken by their letters. -/
def locationOf (path : Path) : Location :=
  path.names.foldl (fun location name =>
    if name = Path.dot then location
    else if name = Path.dotDot then location.dropLast
    else location ++ [name]) []

/-- A tree with the directories that lead to a location, without what else is in them. -/
def withParents (location : Location) (tree : FileTree) : IO FileTree := do
  let mut tree := tree
  for length in List.range location.length do
    let parent := location.take length
    if (tree.node? parent).isNone && (← (System.mkFilePath [placeOf parent]).isDir) then
      tree := tree.insert parent .directory
  return tree

/-- Reads what is at a location and below it into a tree, and what links there lead to. -/
partial def load (location : Location) (tree : FileTree) : IO FileTree := do
  let place := placeOf location
  if (tree.node? location).isSome && location ≠ [] then return tree
  match (← (System.mkFilePath [place]).symlinkMetadata.toBaseIO) with
  | .error _ => return tree
  | .ok found =>
    match found.type with
    | .dir =>
      let mut tree := tree.insert location .directory
      for entry in ← (System.mkFilePath [place]).readDir do
        tree ← load (location ++ [Utf8.encode entry.fileName.toList]) tree
      return tree
    | .symlink =>
      let target := Path.ofText (toString (← IO.FS.realPath place)).toList
      let aim := locationOf target
      load aim (← withParents aim (tree.insert location (.link target)))
    | _ =>
      let bytes ← IO.FS.readBinFile place
      return tree.insert location (.file (.plain bytes.toList))

/-- Removes what is no longer there or has become something else, then makes and writes what is
new. -/
def save (before after : FileTree) : IO Unit := do
  for (location, node) in before.entries.reverse do
    let kept := match after.node? location with
      | some found => found.isDirectory == node.isDirectory
      | none => false
    unless kept do
      if node.isDirectory then IO.FS.removeDir (placeOf location) else IO.FS.removeFile (placeOf location)
  for (location, node) in after.entries do
    if before.node? location ≠ some node then
      match node with
      | .directory => IO.FS.createDir (placeOf location)
      | .file content => IO.FS.writeBinFile (placeOf location) ⟨content.bytes.toArray⟩
      | .link _ => pure ()

/-- A random source made of random bytes; a byte beyond the last whole alphabet is passed over, and
the bytes are used again from the first one when all are spent. -/
def randomSource : IO RandomSource := do
  let bytes := (← IO.getRandomBytes 65536).toList.filter (· < 248)
  let places := (bytes.map fun b => Fin.ofNat 62 b.toNat).toArray
  return ⟨fun n => (places[n % places.size]?).getD 0, 0⟩

/-- Runs the program with its arguments in a directory. -/
def start (arguments : List Text) (current programDirectory : Path) : IO UInt32 := do
  let wanted := match CommandLine.parse arguments with
    | .ok parsed => some ((parsed.dataDirectory.map Path.ofText).getD programDirectory)
    | .error _ => none
  let mut tree := FileTree.empty
  if let some directory := wanted then
    let place := locationOf (current.join directory)
    tree ← load place (← withParents place tree)
    tree ← withParents (locationOf current ++ [Path.dot]) tree
  let clock := (← Std.Time.Timestamp.now).val
  let session : Session := {
    files := { tree, current := locationOf current }
    randomness := ← randomSource
    now := ⟨clock.second.val, 0, 0⟩ }
  let (outcome, after) := CommandLine.run arguments programDirectory session
  save tree after.files.tree
  (← IO.getStdout).putStr outcome.output
  (← IO.getStderr).putStr outcome.errors
  return UInt32.ofNat outcome.status

end ServerPack.Main

/-- The program. -/
def main (arguments : List String) : IO UInt32 := do
  let current := ServerPack.Path.ofText (toString (← IO.currentDir)).toList
  let program := ServerPack.Path.ofText (toString (← IO.appPath)).toList
  ServerPack.Main.start (arguments.map String.toList) current (program.parent?.getD current)
