import ServerPack.Dictionary
import ServerPack.FileSystem.Path

/-!
File trees. A tree gives each location below the root at most one node: a directory, a file or a
symbolic link. It is a dictionary in the order of locations name by name, which is the order of a
walk that goes through each directory by name and into a subdirectory before what comes after it. So
`below` is a walk (`mem_below`), and `children` the listing of one directory.

Files hold bytes or are archives; of an archive the entries are known, and its bytes follow from
them.
-/

namespace ServerPack

/-- What a file holds: bytes, or an archive with its entries in order. -/
inductive Content where
  | plain (bytes : Bytes)
  | archive (entries : List (Text × Bytes))
  deriving DecidableEq

/-- What may be at a location. -/
inductive Node where
  | directory
  | file (content : Content)
  | link (target : Path)
  deriving DecidableEq

/-- The node is a directory itself, not a link to one. -/
def Node.isDirectory : Node → Bool
  | .directory => true
  | .file _ | .link _ => false

/-- The names that lead from the root to a place. -/
abbrev Location := List Name

/-- The nodes below the root. -/
structure FileTree where
  entries : List (Location × Node)
  sorted : Dictionary.Sorted entries

namespace FileTree

/-- The tree with nothing below the root. -/
def empty : FileTree := ⟨[], List.Pairwise.nil⟩

/-- The node at a location; the root is a directory. -/
def node? (tree : FileTree) (location : Location) : Option Node :=
  if location = [] then some .directory else Dictionary.get? location tree.entries

/-- The tree with a node at a location. -/
def insert (tree : FileTree) (location : Location) (node : Node) : FileTree :=
  ⟨Dictionary.insert location node tree.entries, Dictionary.sorted_insert location node tree.sorted⟩

/-- The tree without the locations that satisfy a condition. -/
def erase (tree : FileTree) (condition : Location → Bool) : FileTree :=
  ⟨tree.entries.filter fun entry => !condition entry.1, tree.sorted.filter _⟩

/-- What lies below a location, each node with the names that lead to it from there, in walking
order. -/
def below (tree : FileTree) (location : Location) : List (Location × Node) :=
  tree.entries.filterMap fun entry =>
    match location.isPrefixOf? entry.1 with
    | some (name :: rest) => some (name :: rest, entry.2)
    | _ => none

/-- The entries of a directory, sorted by name. -/
def children (tree : FileTree) (location : Location) : List (Name × Node) :=
  (tree.below location).filterMap fun entry =>
    match entry.1 with
    | [name] => some (name, entry.2)
    | _ => none

@[simp] theorem node?_insert (tree : FileTree) (location : Location) (node : Node) (other : Location)
    (h : other ≠ []) :
    (tree.insert location node).node? other = if other = location then some node else tree.node? other := by
  simp [node?, insert, h, Dictionary.get?_insert]

@[simp] theorem node?_erase (tree : FileTree) (condition : Location → Bool) (location : Location)
    (h : location ≠ []) :
    (tree.erase condition).node? location = if condition location then none else tree.node? location := by
  have := Dictionary.get?_filter (fun other => !condition other) location tree.entries
  by_cases hc : condition location <;> simp_all [node?, erase]

/-- The rest of a location behind another one that begins it. -/
theorem isPrefixOf?_eq_some_iff {start rest location : Location} :
    start.isPrefixOf? location = some rest ↔ location = start ++ rest := by
  induction start generalizing location with
  | nil =>
    change some location = some rest ↔ _
    simp
  | cons name start ih =>
    cases location with
    | nil =>
      change none = some rest ↔ _
      simp
    | cons other location =>
      change (if name == other then start.isPrefixOf? location else none) = some rest ↔ _
      rw [List.cons_append, List.cons.injEq]
      by_cases h : name = other
      · simp [h, ih]
      · simp [h, Ne.symm h]

/-- What a walk from a location meets are the entries of the tree below it. -/
theorem mem_below {tree : FileTree} {location names : Location} {node : Node} :
    (names, node) ∈ tree.below location ↔ names ≠ [] ∧ (location ++ names, node) ∈ tree.entries := by
  simp only [below, List.mem_filterMap]
  constructor
  · rintro ⟨⟨found, node'⟩, hmem, h⟩
    split at h
    · next name rest hp =>
      obtain ⟨rfl, rfl⟩ := Prod.mk.inj (Option.some.inj h)
      exact ⟨by simp, isPrefixOf?_eq_some_iff.1 hp ▸ hmem⟩
    · cases h
  · rintro ⟨hne, hmem⟩
    obtain ⟨name, rest, rfl⟩ := List.exists_cons_of_ne_nil hne
    exact ⟨_, hmem, by simp [isPrefixOf?_eq_some_iff.2 rfl]⟩

end FileTree

/-- A file tree with the directory from which relative paths are followed. -/
structure FileSystem where
  tree : FileTree
  current : Location

end ServerPack
