import ServerPack.Build.Run
import ServerPack.Proofs.FileSystem.Overwrite

/-!
File systems that grow. In a well-formed tree every node lies in a directory, under a name that a
directory can give. A way from a directory then ends in a directory, so that whatever is made at its
end keeps the tree well formed. `Grows` is what the actions that make and write have in common,
whether they succeed or fail: directories and links stay, files stay files, and nothing changes
outside a scope. `Gains` is what those have in common that only make directories. For the
directories on the way to a path the scope has to cover the places to which the paths above it lead
(`gains_ensureWithin`).
-/

namespace ServerPack

namespace FileTree

variable {tree : FileTree}

/-- Every node lies in a directory, under a name that a directory can give. -/
structure WellFormed (tree : FileTree) : Prop where
  parent {location name node} : tree.node? (location ++ [name]) = some node →
    tree.node? location = some .directory
  plain {location name node} : tree.node? (location ++ [name]) = some node → Path.Plain name
  short {location name node} : tree.node? (location ++ [name]) = some node →
    name.length ≤ Path.maxNameLength

/-- A name that a directory of the tree can give. -/
structure Place (tree : FileTree) (directory : Location) (name : Name) : Prop where
  directory : tree.node? directory = some .directory
  plain : Path.Plain name
  short : name.length ≤ Path.maxNameLength

theorem WellFormed.place (hwf : tree.WellFormed) {directory : Location} {name : Name} {node : Node}
    (hnode : tree.node? (directory ++ [name]) = some node) : tree.Place directory name :=
  ⟨hwf.parent hnode, hwf.plain hnode, hwf.short hnode⟩

/-- A tree is well formed if each of its entries has a place in it. -/
theorem wellFormed_iff : tree.WellFormed ↔ ∀ entry ∈ tree.entries, ∀ name ∈ entry.1.getLast?,
    tree.node? entry.1.dropLast = some .directory ∧ Path.Plain name ∧ name.length ≤ Path.maxNameLength := by
  constructor
  · intro hwf entry hentry name hname
    obtain ⟨location, hlocation⟩ := List.getLast?_eq_some_iff.1 hname
    have hnode : tree.node? (location ++ [name]) = some entry.2 := by
      rw [node?, if_neg (by simp), Dictionary.get?_eq_some_iff tree.sorted, ← hlocation]
      exact hentry
    rw [hlocation, List.dropLast_concat]
    exact ⟨hwf.parent hnode, hwf.plain hnode, hwf.short hnode⟩
  · intro h
    have hplace : ∀ {location name node}, tree.node? (location ++ [name]) = some node →
        tree.node? location = some .directory ∧ Path.Plain name ∧ name.length ≤ Path.maxNameLength := by
      intro location name node hnode
      rw [node?, if_neg (by simp), Dictionary.get?_eq_some_iff tree.sorted] at hnode
      simpa using h _ hnode name (by simp)
    exact ⟨fun hnode => (hplace hnode).1, fun hnode => (hplace hnode).2.1, fun hnode => (hplace hnode).2.2⟩

instance (tree : FileTree) : Decidable tree.WellFormed := decidable_of_iff _ wellFormed_iff.symm

/-- Whatever has a node below it is a directory. -/
theorem WellFormed.above (hwf : tree.WellFormed) {location names : Location} {node : Node}
    (hnames : names ≠ []) (hnode : tree.node? (location ++ names) = some node) :
    tree.node? location = some .directory := by
  induction names generalizing location with
  | nil => exact absurd rfl hnames
  | cons name names ih =>
      by_cases hnil : names = []
      · subst hnil
        exact hwf.parent hnode
      · rw [List.append_cons] at hnode
        exact hwf.parent (ih hnil hnode)

/-- Every name of a location where something is could be given by a directory. -/
theorem WellFormed.plain_of_mem (hwf : tree.WellFormed) {location names : Location} {node : Node}
    (hnode : tree.node? (location ++ names) = some node) : ∀ name ∈ names, Path.Plain name := by
  induction names generalizing location with
  | nil => nofun
  | cons first names ih =>
      have hfirst : ∃ node, tree.node? (location ++ [first]) = some node := by
        rw [List.append_cons] at hnode
        by_cases hnames : names = []
        · exact ⟨node, by rwa [hnames, List.append_nil] at hnode⟩
        · exact ⟨_, hwf.above hnames hnode⟩
      intro name hname
      rcases List.mem_cons.1 hname with rfl | hname
      · exact hwf.plain hfirst.choose_spec
      · rw [List.append_cons] at hnode
        exact ih hnode name hname

theorem WellFormed.none_of_not_directory (hwf : tree.WellFormed) {location names : Location}
    (hnames : names ≠ []) (hnot : tree.node? location ≠ some .directory) :
    tree.node? (location ++ names) = none := by
  cases hnode : tree.node? (location ++ names) with
  | none => rfl
  | some node => exact absurd (hwf.above hnames hnode) hnot

theorem WellFormed.none_below (hwf : tree.WellFormed) {location names : Location}
    (hnone : tree.node? location = none) :
    tree.node? (location ++ names) = none := by
  by_cases hnames : names = []
  · rwa [hnames, List.append_nil]
  · refine hwf.none_of_not_directory hnames ?_
    rw [hnone]
    nofun

theorem WellFormed.dropLast (hwf : tree.WellFormed) {location : Location}
    (hdirectory : tree.node? location = some .directory) :
    tree.node? location.dropLast = some .directory := by
  rcases List.eq_nil_or_concat location with rfl | ⟨init, last, rfl⟩
  · exact hdirectory
  · rw [List.concat_eq_append] at hdirectory ⊢
    rw [List.dropLast_concat]
    exact hwf.parent hdirectory

/-- A way from a directory to a vacant place ends in a directory. -/
theorem Follows.vacant_place (hwf : tree.WellFormed) {purpose : Purpose} {links : Nat}
    {directory : Location} {names : List Name} {target : Target}
    (h : Follows tree purpose links directory names target)
    (hdirectory : tree.node? directory = some .directory)
    (hnames : ∀ name ∈ names, Path.slash ∉ name) {location : Location}
    (htarget : target = .vacant location) :
    ∃ directory name, location = directory ++ [name] ∧ tree.Place directory name := by
  induction h with
  | here => cases htarget
  | stay _ _ ih => exact ih hdirectory (fun name hname =>
      hnames name (List.mem_cons_of_mem _ hname)) htarget
  | up _ ih =>
      exact ih (hwf.dropLast hdirectory) (fun name hname =>
        hnames name (List.mem_cons_of_mem _ hname)) htarget
  | @vacant directory name hs =>
      cases htarget
      exact ⟨directory, name, rfl, hdirectory,
        ⟨hs.ne_nil, hnames name List.mem_cons_self, hs.ne_dot, hs.ne_dotDot⟩, hs.short⟩
  | file => cases htarget
  | link => cases htarget
  | enter _ hnode _ ih => exact ih hnode (fun name hname =>
      hnames name (List.mem_cons_of_mem _ hname)) htarget
  | @through _ _ _ _ aim _ _ _ _ _ ih =>
      refine ih ?_ (fun name hname => ?_) htarget
      · split
        · rfl
        · exact hdirectory
      · rcases List.mem_append.1 hname with hname | hname
        · exact Path.no_slash_of_mem_steps hname
        · exact hnames name (List.mem_cons_of_mem _ hname)

/-- A way from a directory that leads to a directory leads to one of the tree. -/
theorem Follows.directory_place (hwf : tree.WellFormed) {purpose : Purpose} {links : Nat}
    {directory : Location} {names : List Name} {target : Target}
    (h : Follows tree purpose links directory names target)
    (hdirectory : tree.node? directory = some .directory) {location : Location}
    (htarget : target = .present location .directory) : tree.node? location = some .directory := by
  induction h with
  | here =>
      cases htarget
      exact hdirectory
  | stay _ _ ih => exact ih hdirectory htarget
  | up _ ih => exact ih (hwf.dropLast hdirectory) htarget
  | vacant => cases htarget
  | file => cases htarget
  | link => cases htarget
  | enter _ hnode _ ih => exact ih hnode htarget
  | through _ _ _ _ ih =>
      refine ih ?_ htarget
      split
      · rfl
      · exact hdirectory

end FileTree

namespace FileSystem

variable {files files' : FileSystem} {scope : Location → Prop} {path : Path}

/-- The tree is well formed and the current directory is in it. -/
structure WellFormed (files : FileSystem) : Prop where
  tree : files.tree.WellFormed
  current : files.tree.node? files.current = some .directory

instance (files : FileSystem) : Decidable files.WellFormed :=
  decidable_of_iff (files.tree.WellFormed ∧ files.tree.node? files.current = some .directory)
    ⟨fun ⟨htree, hcurrent⟩ => ⟨htree, hcurrent⟩, fun h => ⟨h.tree, h.current⟩⟩

theorem WellFormed.start (hwf : files.WellFormed) (path : Path) :
    files.tree.node? (files.start path) = some .directory := by
  rw [FileSystem.start]
  split
  · rfl
  · exact hwf.current

/-- A later file system in which there may be more inside a scope, and nothing else has changed. -/
structure Grows (scope : Location → Prop) (files files' : FileSystem) : Prop where
  current : files'.current = files.current
  sustains : FileTree.Sustains files.tree files'.tree
  outside {location} : ¬scope location → files'.tree.node? location = files.tree.node? location
  tree : files.tree.WellFormed → files'.tree.WellFormed

namespace Grows

theorem refl (scope : Location → Prop) (files : FileSystem) : Grows scope files files :=
  ⟨rfl, .refl _, fun _ => rfl, id⟩

theorem trans {files'' : FileSystem} (h : Grows scope files files') (h' : Grows scope files' files'') :
    Grows scope files files'' where
  current := h'.current.trans h.current
  sustains := h.sustains.trans h'.sustains
  outside hscope := (h'.outside hscope).trans (h.outside hscope)
  tree := h'.tree ∘ h.tree

theorem mono {scope' : Location → Prop} (h : Grows scope files files')
    (hscope : ∀ location, scope location → scope' location) :
    Grows scope' files files' :=
  ⟨h.current, h.sustains, fun hother => h.outside (mt (hscope _) hother), h.tree⟩

theorem wellFormed (h : Grows scope files files') (hwf : files.WellFormed) : files'.WellFormed :=
  ⟨h.tree hwf.tree, by rw [h.current]; exact h.sustains.directory hwf.current⟩

theorem start (h : Grows scope files files') (path : Path) : files'.start path = files.start path := by
  rw [FileSystem.start, FileSystem.start, h.current]

theorem leadsTo (h : Grows scope files files') {location : Location}
    (hleads : files.LeadsTo path location) :
    files'.LeadsTo path location := by
  obtain ⟨used, hused, hway⟩ := leadsTo_iff.1 hleads
  exact leadsTo_iff.2 ⟨used, hused, h.start path ▸ hway.sustained h.sustains⟩

end Grows

/-- A later file system in which directories have been made inside a scope, and nothing else has
changed. -/
structure Gains (scope : Location → Prop) (files files' : FileSystem) :
    Prop extends Grows scope files files' where
  made {location} : files'.tree.node? location ≠ files.tree.node? location →
    files.tree.node? location = none ∧ files'.tree.node? location = some .directory

namespace Gains

theorem refl (scope : Location → Prop) (files : FileSystem) : Gains scope files files :=
  ⟨.refl _ _, fun hne => absurd rfl hne⟩

/-- What was there is the same. -/
theorem node?_eq (h : Gains scope files files') {location : Location} {node : Node}
    (hnode : files.tree.node? location = some node) : files'.tree.node? location = some node := by
  by_cases hsame : files'.tree.node? location = files.tree.node? location
  · rw [hsame, hnode]
  · cases hnode.symm.trans (h.made hsame).1

/-- What is there afterwards was there, or it is a directory that has been made. -/
theorem eq_or_made (h : Gains scope files files') (location : Location) :
    files'.tree.node? location = files.tree.node? location ∨
      scope location ∧ files.tree.node? location = none ∧ files'.tree.node? location = some .directory := by
  by_cases hsame : files'.tree.node? location = files.tree.node? location
  · exact .inl hsame
  · exact .inr ⟨Classical.byContradiction fun hscope => hsame (h.outside hscope), h.made hsame⟩

theorem trans {files'' : FileSystem} (h : Gains scope files files') (h' : Gains scope files' files'') :
    Gains scope files files'' where
  toGrows := h.toGrows.trans h'.toGrows
  made {location} hne := by
    rcases h.eq_or_made location with hsame | ⟨-, hnone, hmade⟩
    · rw [← hsame] at hne ⊢
      exact h'.made hne
    · exact ⟨hnone, h'.node?_eq hmade⟩

theorem mono {scope' : Location → Prop} (h : Gains scope files files')
    (hscope : ∀ location, scope location → scope' location) :
    Gains scope' files files' := ⟨h.toGrows.mono hscope, h.made⟩

end Gains

theorem wellFormed_put (hwf : files.tree.WellFormed) {directory : Location} {name : Name} {node : Node}
    (hplace : files.tree.Place directory name) (htakes : files.tree.Takes (directory ++ [name]) node) :
    (files.put (directory ++ [name]) node).tree.WellFormed := by
  have hput : ∀ other, (files.put (directory ++ [name]) node).tree.node? other =
      if other = directory ++ [name] then some node else files.tree.node? other := node?_put (by simp) node
  have hsplit : ∀ {location : Location} {other : Name} {node' : Node},
      (files.put (directory ++ [name]) node).tree.node? (location ++ [other]) = some node' →
      location = directory ∧ other = name ∨
          ∃ node', files.tree.node? (location ++ [other]) = some node' := by
    intro location other node' hnode
    rw [hput] at hnode
    split at hnode
    · next heq => exact .inl (by simpa using heq)
    · exact .inr ⟨node', hnode⟩
  have hkeep : ∀ {location : Location}, files.tree.node? location = some .directory →
      (files.put (directory ++ [name]) node).tree.node? location = some .directory :=
    (sustains_put (by simp) htakes).directory
  refine ⟨fun hnode => ?_, fun hnode => ?_, fun hnode => ?_⟩
  all_goals rcases hsplit hnode with ⟨rfl, rfl⟩ | ⟨_, hnode'⟩
  · exact hkeep hplace.directory
  · exact hkeep (hwf.parent hnode')
  · exact hplace.plain
  · exact hwf.plain hnode'
  · exact hplace.short
  · exact hwf.short hnode'

/-- A directory that is made at a vacant place, or a file that is written there or in place of
another one. -/
theorem grows_put {directory : Location} {name : Name} {node : Node}
    (hplace : files.tree.Place directory name)
    (htakes : files.tree.Takes (directory ++ [name]) node) (hscope : scope (directory ++ [name])) :
    Grows scope files (files.put (directory ++ [name]) node) where
  current := rfl
  sustains := sustains_put (by simp) htakes
  outside {location} hother := by
    have hne : location ≠ directory ++ [name] := fun heq => hother (heq ▸ hscope)
    rw [node?_put (by simp), if_neg hne]
  tree hwf := wellFormed_put hwf hplace htakes

/-! What actions make. -/

/-- A place in a directory where nothing is. -/
def Vacant (files : FileSystem) (location : Location) : Prop :=
  ∃ directory name, location = directory ++ [name] ∧ files.tree.Place directory name ∧
    files.tree.node? location = none

theorem WellFormed.vacant (hwf : files.WellFormed) {purpose : Purpose} {names : List Name}
    {location : Location} (hnames : ∀ name ∈ names, Path.slash ∉ name)
    (h : files.resolveNames purpose path names = .ok (.vacant location)) : files.Vacant location := by
  obtain ⟨-, _, -, hway⟩ := resolveNames_eq_ok_iff.1 h
  obtain ⟨directory, name, hlocation, hplace⟩ := hway.vacant_place hwf.tree (hwf.start path) hnames rfl
  exact ⟨directory, name, hlocation, hplace, hway.endsAt.2⟩

/-- A directory that is made where there is nothing. -/
theorem gains_put {directory : Location} {name : Name} (hplace : files.tree.Place directory name)
    (hnone : files.tree.node? (directory ++ [name]) = none) (hscope : scope (directory ++ [name])) :
    Gains scope files (files.put (directory ++ [name]) .directory) where
  toGrows := grows_put hplace hnone hscope
  made {location} hne := by
    rw [node?_put (by simp)] at hne ⊢
    split at hne
    · next heq =>
      rw [heq, if_pos rfl]
      exact ⟨hnone, rfl⟩
    · exact absurd rfl hne

theorem gains_makeDirectory (h : files.makeDirectory path = .ok files')
    (hscope : ∀ location, files.resolveNames .itself path path.names = .ok (.vacant location) →
      files.Vacant location ∧ scope location) :
    Gains scope files files' := by
  rw [makeDirectory] at h
  split at h
  · cases h
  · next location hresolve =>
    cases h
    obtain ⟨⟨directory, name, rfl, hplace, hnone⟩, hlocation⟩ := hscope _ hresolve
    exact gains_put hplace hnone hlocation
  · cases h

/-- A path that cannot be followed is refused for that. -/
theorem makeDirectory_of_not_usable (hne : path.bytes ≠ []) (h : ¬path.Usable) :
    ∃ fault, fault ≠ .notFound ∧ ∀ files : FileSystem, files.makeDirectory path = .error fault := by
  obtain ⟨fault, hfault, hrefused⟩ := resolveNames_of_not_usable h
  exact ⟨fault, hfault hne, fun files => by rw [makeDirectory, hrefused]⟩

/-- A file that is opened or written is put in its place. -/
theorem grows_put_of_resolve (hwf : files.tree.WellFormed) {location : Location} {content : Content}
    (hvacant : files.resolve .writing path = .ok (.vacant location) → files.Vacant location)
    (h : files.resolve .writing path = .ok (files.tree.targetAt location)) (hlocation : location ≠ [])
    (htakes : files.tree.Takes location (.file content)) (hscope : scope location) :
    Grows scope files (files.put location (.file content)) := by
  cases hnode : files.tree.node? location with
  | none =>
      rw [FileTree.targetAt, hnode] at h
      obtain ⟨directory, name, rfl, hplace, -⟩ := hvacant h
      exact grows_put hplace htakes hscope
  | some node =>
      rcases List.eq_nil_or_concat location with rfl | ⟨directory, name, rfl⟩
      · exact absurd rfl hlocation
      · rw [List.concat_eq_append] at hnode htakes hscope ⊢
        exact grows_put (hwf.place hnode) htakes hscope

theorem grows_writeContent (hwf : files.WellFormed) {content : Content}
    (h : files.writeContent path content = .ok files')
    (hscope : ∀ location, files.resolve .writing path = .ok (files.tree.targetAt location) →
      scope location) :
    Grows scope files files' := by
  obtain ⟨location, rfl, hresolve, ⟨hlocation, htakes⟩, -⟩ := holdsFile_of_writeContent h
  exact grows_put_of_resolve hwf.tree (hwf.vacant fun _ hname => Path.no_slash_of_mem_steps hname)
    hresolve hlocation (htakes content) (hscope location hresolve)

end FileSystem

namespace Files

open FileSystem (Gains Grows)

variable {path : Path} {session after : Session} {scope : Location → Prop} {result : Except Failure Unit}

/-- What cannot be made is there, or the reason is given. -/
theorem perform_settle_error (fault : IoFault) :
    (settle path (.error fault)).perform session =
      (if session.files.isDirectory path then .ok () else .error (.io fault), session) := by
  rw [settle, Action.perform_bind_of_ok (Action.perform_ask _ session)]
  cases session.files.isDirectory path <;> rfl

/-- At most the directory at the end of a path has been made. -/
def Settled (path : Path) (session after : Session) : Prop :=
  after = session ∨ ∃ files, session.files.makeDirectory path = .ok files ∧ after = { session with files }

theorem settled_of_settle
    (h : (settle path (session.files.makeDirectory path)).perform session = (result, after)) :
    Settled path session after := by
  cases hmade : session.files.makeDirectory path with
  | ok files =>
      rw [hmade] at h
      cases h
      exact .inr ⟨files, hmade, rfl⟩
  | error fault =>
      rw [hmade, perform_settle_error] at h
      exact .inl (Prod.mk.inj h).2.symm

/-- Whatever comes of ensuring a directory, it is made at once, or after the one that contains it,
or not at all. -/
theorem settled_of_ensureWithin {parents : Nat}
    (h : (ensureWithin (parents + 1) path).perform session = (result, after)) :
    Settled path session after ∨
      ∃ result' between, (path.parent?.forM (ensureWithin parents)).perform session = (result', between) ∧
        Settled path between after := by
  rw [ensureWithin] at h
  split at h
  · cases h
    exact .inl (.inl rfl)
  rw [Action.perform_bind_of_ok (Action.perform_ask _ session)] at h
  split at h
  · rcases Action.bind_cases h with ⟨failure, hparent, -⟩ | ⟨_, between, hparent, h⟩
    · exact .inr ⟨_, after, hparent, .inl rfl⟩
    · rw [Action.perform_bind_of_ok (Action.perform_ask _ between)] at h
      exact .inr ⟨_, between, hparent, settled_of_settle h⟩
  · exact .inl (settled_of_settle h)

theorem Settled.gains (h : Settled path session after)
    (hscope : ∀ location, session.files.resolveNames .itself path path.names = .ok (.vacant location) →
      session.files.Vacant location ∧ scope location) : Gains scope session.files after.files := by
  rcases h with rfl | ⟨files, hmade, rfl⟩
  · exact .refl _ _
  · exact FileSystem.gains_makeDirectory hmade hscope

/-- A directory has been made just now, or it was there. -/
def Provided (path : Path) (session after : Session) : Prop :=
  (∃ files, session.files.makeDirectory path = .ok files ∧ after = { session with files }) ∨
    session.files.isDirectory path ∧ after = session

theorem provided_of_settle
    (h : (settle path (session.files.makeDirectory path)).perform session = (.ok (), after)) :
    Provided path session after := by
  rcases settled_of_settle h with rfl | hmade
  · cases hmade : after.files.makeDirectory path with
    | ok files =>
        rw [hmade] at h
        exact .inl ⟨files, hmade, (Prod.mk.inj h).2.symm⟩
    | error fault =>
        rw [hmade, perform_settle_error] at h
        cases hdirectory : after.files.isDirectory path with
        | false => simp [hdirectory] at h
        | true => exact .inr ⟨hdirectory, rfl⟩
  · exact .inl hmade

/-- How a directory comes to be there: at once, or after the one that contains it. -/
theorem provided_of_ensureWithin {parents : Nat}
    (h : (ensureWithin (parents + 1) path).perform session = (.ok (), after)) :
    path.bytes = [] ∧ after = session ∨ Provided path session after ∨
      ∃ between, (path.parent?.forM (ensureWithin parents)).perform session = (.ok (), between) ∧
        Provided path between after := by
  rw [ensureWithin] at h
  split at h
  · next hempty =>
    cases h
    exact .inl ⟨hempty, rfl⟩
  rw [Action.perform_bind_of_ok (Action.perform_ask _ session)] at h
  split at h
  · obtain ⟨_, between, hparent, h⟩ := Action.bind_eq_ok_iff.1 h
    rw [Action.perform_bind_of_ok (Action.perform_ask _ between)] at h
    exact .inr (.inr ⟨between, hparent, provided_of_settle h⟩)
  · exact .inr (.inl (provided_of_settle h))

/-- A directory that has been ensured is where its path leads. -/
theorem Provided.exists_leadsTo (h : Provided path session after) :
    path.Usable ∧ ∃ location, after.files.LeadsTo path location := by
  rcases h with ⟨files, hmade, rfl⟩ | ⟨hdirectory, rfl⟩
  · rw [FileSystem.makeDirectory] at hmade
    split at hmade
    · cases hmade
    · next location hresolve =>
      cases hmade
      obtain ⟨husable, used, hused, hway⟩ := FileSystem.resolveNames_eq_ok_iff.1 hresolve
      obtain ⟨hlocation, hnone⟩ := hway.endsAt
      have hend := (hway.reading fun _ _ heq => Target.noConfusion heq).sustained
        (FileSystem.sustains_put hlocation (show session.files.tree.Takes location .directory from hnone))
      rw [FileTree.seenIn, FileTree.targetAt, FileSystem.node?_put_self hlocation] at hend
      exact ⟨husable, location, FileSystem.leadsTo_iff.2 ⟨used, hused, hend⟩⟩
    · cases hmade
  · obtain ⟨location, hlookup⟩ := FileSystem.isDirectory_iff.1 hdirectory
    exact ⟨(FileSystem.lookup_eq_ok_iff.1 hlookup).1, location, FileSystem.leadsTo_of_lookup hlookup⟩

theorem exists_leadsTo_of_ensureWithin {parents : Nat}
    (h : (ensureWithin (parents + 1) path).perform session = (.ok (), after)) (hne : path.bytes ≠ []) :
    path.Usable ∧ ∃ location, after.files.LeadsTo path location := by
  rcases provided_of_ensureWithin h with ⟨hempty, -⟩ | hprovided | ⟨between, -, hprovided⟩
  · exact absurd hempty hne
  · exact hprovided.exists_leadsTo
  · exact hprovided.exists_leadsTo

/-- Other directories are made only if it is for them that this one cannot be made. -/
theorem perform_ensureWithin_of_ne (hne : path.bytes ≠ [])
    (hmade : session.files.makeDirectory path ≠ .error .notFound) (parents : Nat) :
    (ensureWithin (parents + 1) path).perform session =
      (settle path (session.files.makeDirectory path)).perform session := by
  rw [ensureWithin, if_neg hne, Action.perform_bind_of_ok (Action.perform_ask _ session)]
  split
  · next hnotFound => exact absurd hnotFound hmade
  · rfl

/-- Nothing is made where there is a directory. -/
theorem eq_of_ensureWithin {location : Location} (hleads : session.files.LeadsTo path location)
    {parents : Nat} (h : (ensureWithin parents path).perform session = (result, after)) :
    after = session := by
  by_cases husable : path.bytes ≠ [] → path.Usable
  · rw [hleads.perform_ensureWithin husable] at h
    exact (Prod.mk.inj h).2.symm
  obtain ⟨hne, hnot⟩ := Classical.not_imp.1 husable
  obtain ⟨fault, hfault, hrefused⟩ := FileSystem.makeDirectory_of_not_usable hne hnot
  cases parents with
  | zero => exact (Prod.mk.inj h).2.symm
  | succ parents =>
      have hmade := hrefused session.files
      rw [perform_ensureWithin_of_ne hne (hmade ▸ fun heq => hfault (Except.error.inj heq)), hmade,
        perform_settle_error] at h
      exact (Prod.mk.inj h).2.symm

theorem Settled.eq_of_leadsTo {location : Location} (hleads : session.files.LeadsTo path location)
    (h : Settled path session after) : after = session := by
  rcases h with rfl | ⟨files, hmade, rfl⟩
  · rfl
  · have husable := (Provided.exists_leadsTo (.inl ⟨files, hmade, rfl⟩)).1
    cases (hleads.makeDirectory husable).symm.trans hmade

/-- Directories are made where those paths lead that a condition holds of. It goes over from a path
to the one above it, unless the path leads to a directory already. -/
theorem gains_ensureWithin {origin : FileSystem} {condition : Path → Prop}
    (hcondition : ∀ path files, condition path → Gains scope origin files →
      (∃ location, files.LeadsTo path location) ∨
      (∀ parent, path.parent? = some parent → condition parent) ∧
        ∀ location, files.resolveNames .itself path path.names = .ok (.vacant location) →
          files.Vacant location ∧ scope location)
    (hgained : Gains scope origin session.files) (hpath : condition path) {parents : Nat}
    (h : (ensureWithin parents path).perform session = (result, after)) :
    Gains scope origin after.files := by
  induction parents generalizing path session after result with
  | zero =>
      cases h
      exact hgained
  | succ parents ih =>
      rcases hcondition path _ hpath hgained with ⟨location, hleads⟩ | ⟨habove, hscope⟩
      · rw [eq_of_ensureWithin hleads h]
        exact hgained
      rcases settled_of_ensureWithin h with hsettled | ⟨result', between, hparent, hsettled⟩
      · exact hgained.trans (hsettled.gains hscope)
      · have hbetween : Gains scope origin between.files := by
          cases hparentPath : path.parent? with
          | none =>
              rw [hparentPath] at hparent
              cases hparent
              exact hgained
          | some parent =>
              rw [hparentPath] at hparent
              exact ih hgained (habove parent hparentPath) hparent
        rcases hcondition path _ hpath hbetween with ⟨location, hleads⟩ | ⟨-, hscope'⟩
        · rw [hsettled.eq_of_leadsTo hleads]
          exact hbetween
        · exact hbetween.trans (hsettled.gains hscope')

theorem gains_ensure (hwf : session.files.WellFormed)
    (h : (ensure path).perform session = (result, after)) :
    Gains (fun _ => True) session.files after.files := by
  have hcondition : ∀ (path : Path) (files : FileSystem), True → Gains (fun _ => True) session.files files →
      (∃ location, files.LeadsTo path location) ∨ (∀ parent, path.parent? = some parent → True) ∧
        ∀ location, files.resolveNames .itself path path.names = .ok (.vacant location) →
          files.Vacant location ∧ True := fun _ _ _ hgained =>
    .inr ⟨fun _ _ => trivial, fun _ hresolve =>
      ⟨(hgained.wellFormed hwf).vacant (fun _ hname => Path.no_slash_of_mem_names hname) hresolve, trivial⟩⟩
  exact gains_ensureWithin hcondition (.refl _ _) trivial h

theorem gains_ensureParent (hwf : session.files.WellFormed)
    (h : (ensureParent path).perform session = (result, after)) :
    Gains (fun _ => True) session.files after.files := by
  rw [ensureParent] at h
  split at h
  · exact gains_ensure hwf h
  · cases h
    exact .refl _ _

/-- What making a directory does to the file system is what ensuring it does. -/
theorem files_of_createDirectory (h : (createDirectory path).perform session = (result, after)) :
    after.files = session.files ∨
      ∃ result' between, (ensure path).perform session = (result', between) ∧
      after.files = between.files := by
  rw [createDirectory, Action.perform_bind_of_ok (Action.perform_ask _ session)] at h
  cases hdirectory : session.files.isDirectory path with
  | true =>
      rw [hdirectory] at h
      cases h
      exact .inl rfl
  | false =>
      rw [hdirectory] at h
      rcases Action.bind_cases h with ⟨failure, hensure, -⟩ | ⟨_, between, hensure, hlog⟩
      · exact .inr ⟨_, after, hensure, rfl⟩
      · cases hlog
        exact .inr ⟨_, between, hensure, rfl⟩

theorem gains_createDirectory (hwf : session.files.WellFormed)
    (h : (createDirectory path).perform session = (result, after)) :
    Gains (fun _ => True) session.files after.files := by
  rcases files_of_createDirectory h with heq | ⟨result', between, hensure, heq⟩ <;> rw [heq]
  · exact .refl _ _
  · exact gains_ensure hwf hensure

/-- A directory that has been made can be found by its path. -/
theorem exists_leadsTo_of_createDirectory (h : (createDirectory path).perform session = (.ok (), after))
    (hne : path.bytes ≠ []) : path.Usable ∧ ∃ location, after.files.LeadsTo path location := by
  rw [createDirectory, Action.perform_bind_of_ok (Action.perform_ask _ session)] at h
  cases hdirectory : session.files.isDirectory path with
  | true =>
      rw [hdirectory] at h
      cases h
      exact Provided.exists_leadsTo (.inr ⟨hdirectory, rfl⟩)
  | false =>
      rw [hdirectory] at h
      obtain ⟨_, between, hensure, hlog⟩ := Action.bind_eq_ok_iff.1 h
      cases hlog
      have hleads := exists_leadsTo_of_ensureWithin hensure hne
      exact hleads

/-- Writing a text makes directories, and then writes the file if it comes to that. -/
theorem files_of_writeText {text : Text} (h : (writeText path text).perform session = (result, after)) :
    ∃ result' between, (ensureParent path).perform session = (result', between) ∧
      ((∃ failure, result = .error failure) ∧ after = between ∨
        result = .ok () ∧ between.files.writeContent path (.plain (Utf8.encode text)) = .ok after.files ∧
          after = { between with files := after.files }) := by
  rcases Action.bind_cases h with ⟨failure, hparent, hresult⟩ | ⟨_, between, hparent, hchange⟩
  · exact ⟨_, after, hparent, .inl ⟨⟨failure, hresult⟩, rfl⟩⟩
  · refine ⟨_, between, hparent, ?_⟩
    rw [Action.perform_change] at hchange
    split at hchange <;> cases hchange
    · exact .inr ⟨rfl, ‹_›, rfl⟩
    · exact .inl ⟨⟨_, rfl⟩, rfl⟩

theorem grows_writeText (hwf : session.files.WellFormed) {text : Text}
    (h : (writeText path text).perform session = (result, after)) :
    Grows (fun _ => True) session.files after.files := by
  obtain ⟨result', between, hparent, hend⟩ := files_of_writeText h
  have hbetween := (gains_ensureParent hwf hparent).toGrows
  rcases hend with ⟨-, rfl⟩ | ⟨-, hfiles, -⟩
  · exact hbetween
  · exact hbetween.trans (FileSystem.grows_writeContent (hbetween.wellFormed hwf) hfiles fun _ _ => trivial)

end Files

namespace Build

open FileSystem (Gains Grows)

variable {layout : Layout} {session after : Session} {result : Except Failure Unit}

theorem gains_createDirectories {paths : List Path} (hwf : session.files.WellFormed)
    (h : (paths.forM Files.createDirectory).perform session = (result, after)) :
    Gains (fun _ => True) session.files after.files := by
  induction paths generalizing session with
  | nil =>
      cases h
      exact .refl _ _
  | cons path paths ih =>
      rcases Action.bind_cases h with ⟨failure, hfirst, -⟩ | ⟨_, between, hfirst, hrest⟩
      · exact Files.gains_createDirectory hwf hfirst
      · have hbetween := Files.gains_createDirectory hwf hfirst
        exact hbetween.trans (ih (hbetween.wellFormed hwf) hrest)

/-- The bundled document is written, if at all, where nothing can be found. -/
theorem files_of_provideBundled {name : Text} {directory : Path}
    (h : (provideBundled name directory).perform session = (result, after)) :
    after.files = session.files ∨ ∃ text result' written,
    session.files.pathExists (Layout.place directory name) = false ∧
      bundled? name = some text ∧
      (Files.writeText (Layout.place directory name) text).perform session = (result', written) ∧
      after.files = written.files := by
  rw [provideBundled, Action.perform_bind_of_ok (Action.perform_ask _ session)] at h
  split at h
  · cases h
    exact .inl rfl
  · next hmissing =>
    split at h
    · cases h
      exact .inl rfl
    · next text hbundled =>
      rcases Action.bind_cases h with ⟨failure, hwrite, -⟩ | ⟨_, between, hwrite, hlog⟩
      · exact .inr ⟨text, _, after, Bool.eq_false_iff.2 hmissing, hbundled, hwrite, rfl⟩
      · cases hlog
        exact .inr ⟨text, _, between, Bool.eq_false_iff.2 hmissing, hbundled, hwrite, rfl⟩

theorem grows_provideBundled {name : Text} {directory : Path} (hwf : session.files.WellFormed)
    (h : (provideBundled name directory).perform session = (result, after)) :
    Grows (fun _ => True) session.files after.files := by
  rcases files_of_provideBundled h with heq | ⟨text, result', written, -, -, hwrite, heq⟩ <;> rw [heq]
  · exact .refl _ _
  · exact Files.grows_writeText hwf hwrite

/-- Making what a build needs leaves everything that was there, but for files that may hold
something else. -/
theorem grows_furnish (hwf : session.files.WellFormed)
    (h : (furnish layout).perform session = (result, after)) :
    Grows (fun _ => True) session.files after.files := by
  rcases Action.bind_cases h with ⟨failure, hdirectories, -⟩ | ⟨_, between, hdirectories, hbundled⟩
  · exact (gains_createDirectories hwf hdirectories).toGrows
  · have hbetween := (gains_createDirectories hwf hdirectories).toGrows
    exact hbetween.trans (grows_provideBundled (hbetween.wellFormed hwf) hbundled)

end Build

end ServerPack
