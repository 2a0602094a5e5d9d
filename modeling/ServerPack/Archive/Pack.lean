import ServerPack.Files

/-!
Backups. Every file below a folder becomes an entry of an archive, in walking order, named by the
folder's own name and the names below it. The archive is made before the walk and filled after it,
also when the walk meets something that cannot be read: then it holds what was read until then.
-/

namespace ServerPack.Archive

open ServerPack.Action (ask log)

/-- Reads the files of a walk below `root` one by one, until the first failure. -/
def gather (folder : Name) (root archive : Path) :
    List (Location × Node) → Action (List (Text × Bytes) × Option Failure)
  | [] => return ([], none)
  | (names, node) :: rest => do
    let path := names.foldl Path.child root
    if node.isDirectory then
      match Files.enter path with
      | .error failure => return ([], some failure)
      | .ok _ => gather folder root archive rest
    else
      match Path.archiveNameOf (if folder = [] then names else folder :: names) with
      | .error failure => return ([], some failure)
      | .ok name => do
        log .trace ("Adding " ++ String.ofList name ++ " to " ++ archive.display)
        match ← ask (·.readContent path) with
        | .error fault => return ([(name, [])], some (.io fault))
        | .ok content => do
          let (entries, failure) ← gather folder root archive rest
          return ((name, content.bytes) :: entries, failure)

/-- Archives every file below a folder and gives their number. -/
def pack (folder archive : Path) : Action Nat := do
  let folderLabel := folder.lastName?.getD []
  let _ ← Action.ofExcept (Path.nameText folderLabel)
  Files.ensureParent archive
  let (location, files) ← match ← ask (·.openEmpty archive) with
    | .ok opened => pure opened
    | .error fault => throw (.io fault)
  modify fun session => { session with files }
  let fill (entries : List (Text × Bytes)) : Action Unit :=
    modify fun session => { session with files := session.files.put location (.file (.archive entries)) }
  let walked ← tryCatch (Files.walk folder) fun failure => do
    fill []
    throw failure
  let (entries, failure) ← gather folderLabel folder archive walked
  fill entries
  match failure with
  | some failure => throw failure
  | none => do
    log .info ("Archived " ++ toString entries.length ++ " file(s) from " ++ folder.display ++ " into "
      ++ archive.display)
    return entries.length

end ServerPack.Archive
