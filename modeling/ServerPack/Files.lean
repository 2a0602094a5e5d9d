import ServerPack.Archive.Zip
import ServerPack.FileSystem.Change
import ServerPack.Session

/-!
Work on the file system as a build does it. Missing parent directories are made on the way and stay
when a later step fails. Directories that are made or deleted and files that cannot be read are
noted in the log.
-/

namespace ServerPack.Files

open ServerPack.Action (change ask log)

/-- Goes on with the directory that has been made; if it could not be made, it has to be there. -/
def settle (path : Path) : Except IoFault FileSystem → Action Unit
  | .ok files => modify fun session => { session with files }
  | .error fault => do unless ← ask (·.isDirectory path) do throw (.io fault)

/-- Makes a directory, unless it is there already; if the one that should contain it is missing,
that one first, at most `parents` of them. -/
def ensureWithin : (parents : Nat) → Path → Action Unit
  | 0, _ => pure ()
  | parents + 1, path => do
    if path.bytes = [] then return
    match ← ask (·.makeDirectory path) with
    | .error .notFound => do
      path.parent?.forM (ensureWithin parents)
      settle path (← ask (·.makeDirectory path))
    | made => settle path made

/-- Makes a directory with all directories that contain it, unless it is there already. -/
def ensure (path : Path) : Action Unit := ensureWithin (path.bytes.length + 1) path

/-- Makes the directories that contain a path. -/
def ensureParent (path : Path) : Action Unit :=
  match path.parent? with
  | some parent => ensure parent
  | none => pure ()

/-- Makes a directory with all that contain it, and says so unless it was there. -/
def createDirectory (path : Path) : Action Unit := do
  unless ← ask (·.isDirectory path) do
    ensure path
    log .info ("Directory created: [" ++ path.display ++ "]")

/-- Writes a text to a file, in place of what it held. -/
def writeText (path : Path) (text : Text) : Action Unit := do
  ensureParent path
  change (·.writeContent path (.plain (Utf8.encode text)))

/-- The text that a file holds. -/
def readText (path : Path) : Action Text := do
  let read : Except IoFault Text :=
    match ← ask (·.readContent path) with
    | .ok content =>
      match Utf8.decode? content.bytes with
      | some text => .ok text
      | none => .error .invalidUtf8
    | .error fault => .error fault
  match read with
  | .ok text => pure text
  | .error fault => do
    log .error ("Failed to read " ++ path.display ++ ": " ++ fault.message)
    throw (.io fault)

/-- Copies one file. -/
def copy (source target : Path) : Action Unit := do
  ensureParent target
  change (·.copyContent source target)

/-- A walk goes on into a directory whose path can be followed. -/
def enter (directory : Path) : Except Failure Unit :=
  if directory.isTooLong then .error (.walk (Utf8.decodeLossy directory.bytes) .nameTooLong) else .ok ()

/-- Copies what a directory holds. The directory is listed when it is reached, before its copy is
made. A directory that is copied into itself goes on being copied until the path of the copy is too
long, so that paths of copies, which grow with every step down, bound the `depth`. -/
def copyBelow : (depth : Nat) → Location → (source target : Path) → Action Unit
  | 0, _, _, _ => throw (.io .nameTooLong)
  | depth + 1, location, source, target => do
    let entries ← ask (·.tree.children location)
    ensure target
    Action.ofExcept (enter source)
    entries.forM fun (name, node) =>
      if node.isDirectory then
        copyBelow depth (location ++ [name]) (source.child name) (target.child name)
      else copy (source.child name) (target.child name)

/-- Where a walk begins: at a directory, or at something else that is the only thing it meets. A
link that leads to a directory is walked but is not a directory itself. -/
def walkRoot (root : Path) : Action (Location × Node) := do
  let refuse (fault : IoFault) : Action (Location × Node) :=
    throw (.walk (Utf8.decodeLossy root.bytes) fault)
  match ← ask (·.lookup .itself root) with
  | .error fault => refuse fault
  | .ok (location, .link target) =>
    match ← ask (·.lookup .target root) with
    | .error fault => refuse fault
    | .ok _ => pure (location, .link target)
  | .ok found => pure found

/-- Everything below a directory in walking order, each node with the names that lead to it. A link
to a directory may be given for the directory. -/
def walk (root : Path) : Action (List (Location × Node)) := do
  let _ ← walkRoot root
  match ← ask (·.lookup .target root) with
  | .ok (location, .directory) => ask (·.tree.below location)
  | _ => pure []

/-- Copies a directory with all that is below it. -/
def copyTree (source target : Path) : Action Unit := do
  let target := target.join ⟨[]⟩
  match ← walkRoot source with
  | (location, .directory) =>
    copyBelow Path.maxLength location source target
  | _ => copy source target

/-- Removes a directory with all that is below it, or a link to one without what it leads to. A
directory that can no longer be reached when all below it is gone counts as removed. -/
def removeAll (path : Path) : Action Unit := do
  match ← ask (·.lookup .itself path) with
  | .ok (location, .directory) => do
    change fun files => .ok (files.dropBelow location)
    change fun files =>
      match files.removeDirectory path with
      | .error .notFound => .ok files
      | removed => removed
  | .ok (location, .link _) => change fun files => .ok (files.drop location)
  | .ok (_, .file _) => throw (.io .notADirectory)
  | .error fault => throw (.io fault)

/-- Deletes a directory with all that is below it, if there is one. -/
def deleteTree (path : Path) : Action Unit := do
  if ← ask (·.pathExists path) then
    tryCatch (removeAll path) fun failure => do
      log .error ("Failed to delete: " ++ path.display)
      throw failure
    log .debug ("Deleted: " ++ path.display)
  else log .debug ("Folder does not exist: " ++ path.display)

end ServerPack.Files
