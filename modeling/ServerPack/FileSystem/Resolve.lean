import ServerPack.FileSystem.Tree

/-!
What a path leads to. Names are followed one by one from the root or the current directory; only
through directories does the way go on, and a symbolic link is replaced by its target, at most
`maxLinks` times. The end of the way is a node or, in a directory that exists, a vacant place where
one could be made. A path that is too long is not followed at all, and a name that is too long is in
no directory.
-/

namespace ServerPack

/-- The end of a path. -/
inductive Target where
  | present (location : Location) (node : Node)
  | vacant (location : Location)
  deriving DecidableEq

/-- What the end of a path is wanted for: a link there is meant itself, or what it leads to is
meant, or a file is to be written there. -/
inductive Purpose where
  | itself
  | target
  | writing
  deriving DecidableEq

/-- The number of links that one path may lead through. -/
def maxLinks : Nat := 40

namespace FileTree

/-- Follows names from a directory; `throughLink` says where names lead to from the directory in
which a link was met. An empty name stays where it is, as `.` does, so a slash at the end asks for a
directory; whoever wants to write a file is refused at the name before that slash. -/
def followNames (tree : FileTree) (purpose : Purpose)
    (throughLink : Location → List Name → Except IoFault Target) :
    Location → List Name → Except IoFault Target
  | directory, [] => .ok (.present directory .directory)
  | directory, name :: rest =>
    if name = [] ∨ name = Path.dot then followNames tree purpose throughLink directory rest
    else if name = Path.dotDot then followNames tree purpose throughLink directory.dropLast rest
    else if purpose = .writing ∧ rest = [[]] then .error .isADirectory
    else if Path.maxNameLength < name.length then .error .nameTooLong
    else
      let location := directory ++ [name]
      match tree.node? location with
      | none => if rest.isEmpty then .ok (.vacant location) else .error .notFound
      | some .directory => followNames tree purpose throughLink location rest
      | some (.file content) =>
        if rest.isEmpty then .ok (.present location (.file content)) else .error .notADirectory
      | some (.link target) =>
        if rest.isEmpty ∧ purpose = .itself then .ok (.present location (.link target))
        else throughLink (if target.isAbsolute then [] else directory) (target.steps ++ rest)

/-- Follows names through at most so many links. -/
def follow (tree : FileTree) (purpose : Purpose) : (links : Nat) → Location → List Name →
    Except IoFault Target
  | 0 => tree.followNames purpose fun _ _ => .error .tooManyLinks
  | links + 1 => tree.followNames purpose (tree.follow purpose links)

end FileTree

namespace FileSystem

/-- The end of some names of a path. -/
def resolveNames (files : FileSystem) (purpose : Purpose) (path : Path) (names : List Name) :
    Except IoFault Target :=
  if path.bytes.contains 0 then .error .nulInPath
  else if path.bytes = [] then .error .notFound
  else if path.isTooLong then .error .nameTooLong
  else files.tree.follow purpose maxLinks (if path.isAbsolute then [] else files.current) names

/-- The end of a path. -/
def resolve (files : FileSystem) (purpose : Purpose) (path : Path) : Except IoFault Target :=
  files.resolveNames purpose path path.steps

/-- The node to which a path leads and its location. -/
def lookup (files : FileSystem) (purpose : Purpose) (path : Path) : Except IoFault (Location × Node) :=
  match files.resolve purpose path with
  | .ok (.present location node) => .ok (location, node)
  | .ok (.vacant _) => .error .notFound
  | .error fault => .error fault

/-- Something is there, and if it is a link, so is its target. -/
def pathExists (files : FileSystem) (path : Path) : Bool := (files.lookup .target path).isOk

/-- A directory is there, or a link to one. -/
def isDirectory (files : FileSystem) (path : Path) : Bool :=
  match files.lookup .target path with
  | .ok (_, node) => node.isDirectory
  | .error _ => false

end FileSystem

end ServerPack
