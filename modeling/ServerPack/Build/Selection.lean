import ServerPack.Files

/-!
The files in which placeholders are replaced: those whose containing folder has one of the suffixes,
or all if there are no suffixes. The recursive search looks at every file below the root. The flat
search looks at the files directly inside the root's own subdirectories. Both go by what a walk of
the root meets and keep its order, and both fail at a folder name that is not UTF-8.
-/

namespace ServerPack.Build

/-- A folder name has one of the suffixes, or there are none. -/
def matchesFolder (folder : Text) (suffixes : List Text) : Bool :=
  suffixes.isEmpty || suffixes.any (·.isSuffixOf folder)

/-- The path of what a walk of `root` met. -/
def pathBelow (root : Path) (names : Location) : Path := names.foldl Path.child root

/-- The files of a walk whose containing folder matches. -/
def selectRecursive (root : Path) (suffixes : List Text) :
    List (Location × Node) → Except Failure (List Path)
  | [] => .ok []
  | (names, node) :: rest => do
    let path := pathBelow root names
    if node.isDirectory then
      Files.enter path
      selectRecursive root suffixes rest
    else
      let folder ← path.containingFolder
      let selected ← selectRecursive root suffixes rest
      .ok (if matchesFolder (folder.getD []) suffixes then path :: selected else selected)

/-- The files of a walk that lie directly in a given subdirectory of the root. -/
def filesDirectlyIn (root : Path) (walked : List (Location × Node)) (folder : Name) : List Path :=
  walked.filterMap fun (names, node) =>
    match names with
    | [first, _] => if first = folder ∧ !node.isDirectory then some (pathBelow root names) else none
    | _ => none

/-- The name of a subdirectory of the root. -/
def subdirectory? : Location × Node → Option Name
  | ([name], .directory) => some name
  | _ => none

/-- The subdirectories of the root that a walk met. -/
def subdirectories (walked : List (Location × Node)) : List Name := walked.filterMap subdirectory?

/-- The files directly inside matching subdirectories of the root. -/
def selectFlat (root : Path) (suffixes : List Text) (walked : List (Location × Node)) :
    Except Failure (List Path) := do
  let groups ← (subdirectories walked).mapM fun name => do
    let folder ← Path.nameText name
    if matchesFolder folder suffixes then
      Files.enter (root.child name)
      .ok (filesDirectlyIn root walked name)
    else .ok []
  .ok groups.flatten

/-- The files below a directory that are selected. -/
def select (root : Path) (recursive : Bool) (suffixes : List Text) : Action (List Path) := do
  unless ← Action.ask (·.isDirectory root) do throw (.noDirectory (Utf8.decodeLossy root.bytes))
  let walked ← Files.walk root
  let selected ← Action.ofExcept
    (if recursive then selectRecursive root suffixes walked else selectFlat root suffixes walked)
  Action.log .info ("Matched " ++ toString selected.length ++ " file(s) under " ++ root.display)
  return selected

end ServerPack.Build
