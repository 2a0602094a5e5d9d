import ServerPack.Proofs.Settings.WorkingCopy

/-!
Where paths lead in a tree without links. There each name leads a step down, a step up or nowhere,
so the place of a path is known from its names alone, whether anything is there or not
(`FileSystem.home`, `Follows.location_eq`). The directories that are made for a path lie on its way
(`gains_ensureWithin_onWay`, `gains_createDirectory_onWay`).
-/

namespace ServerPack

namespace FileTree

variable {tree : FileTree}

/-- There are no symbolic links. -/
def LinkFree (tree : FileTree) : Prop := ∀ location aim, tree.node? location ≠ some (.link aim)

/-- Where there is no directory, and there are no links, a file can be put. -/
theorem LinkFree.takes_file (h : tree.LinkFree) {location : Location}
    (hnot : tree.node? location ≠ some .directory) (content : Content) :
    tree.Takes location (.file content) := by
  cases hnode : tree.node? location with
  | none => exact .inl hnode
  | some node =>
      cases node with
      | directory => exact absurd hnode hnot
      | file content => exact .inr ⟨content, hnode⟩
      | link aim => exact absurd hnode (h _ _)

theorem LinkFree.of_sustains {tree' : FileTree} (h : tree.LinkFree) (hsustains : Sustains tree tree') :
    tree'.LinkFree := fun location aim hlink => h location aim (hsustains.link.2 hlink)

/-- Where a name leads from a directory, if it leads anywhere. -/
def step (directory : Location) (name : Name) : Location :=
  if name = [] ∨ name = Path.dot then directory
  else if name = Path.dotDot then directory.dropLast
  else directory ++ [name]

/-- Where names lead from a directory, if they lead anywhere. -/
def destination (directory : Location) (names : List Name) : Location := names.foldl step directory

@[simp] theorem destination_nil (directory : Location) : destination directory [] = directory := rfl

@[simp] theorem destination_cons (directory : Location) (name : Name) (names : List Name) :
    destination directory (name :: names) = destination (step directory name) names := rfl

theorem destination_append (directory : Location) (names names' : List Name) :
    destination directory (names ++ names') = destination (destination directory names) names' :=
  List.foldl_append ..

theorem step_of_stay {directory : Location} {name : Name} (h : name = [] ∨ name = Path.dot) :
    step directory name = directory := if_pos h

@[simp] theorem step_dotDot (directory : Location) : step directory Path.dotDot = directory.dropLast := by
  rw [step, if_neg (by decide), if_pos rfl]

theorem step_of_entry {directory : Location} {name : Name} (hnil : name ≠ []) (hdot : name ≠ Path.dot)
    (hdotDot : name ≠ Path.dotDot) : step directory name = directory ++ [name] := by
  rw [step, if_neg (not_or.2 ⟨hnil, hdot⟩), if_neg hdotDot]

theorem destination_trimmed (directory : Location) (names : List Name) :
    destination directory (trimmed names) = destination directory names := by
  induction names generalizing directory with
  | nil => rfl
  | cons name names ih =>
      by_cases hstay : name = [] ∨ name = Path.dot
      · rw [trimmed, List.filter_cons_of_neg (by rcases hstay with rfl | rfl <;> simp), destination_cons,
          step_of_stay hstay]
        exact ih directory
      · rw [trimmed, List.filter_cons_of_pos (by simpa using hstay), destination_cons, destination_cons]
        exact ih _

theorem destination_of_plain {directory : Location} {names : List Name}
    (h : ∀ name ∈ names, Path.Plain name) :
    destination directory names = directory ++ names := by
  induction names generalizing directory with
  | nil => rw [destination_nil, List.append_nil]
  | cons name names ih =>
      have hname := h name List.mem_cons_self
      rw [destination_cons, step_of_entry hname.ne_nil hname.ne_dot hname.ne_dotDot,
        ih fun other hother => h other (List.mem_cons_of_mem _ hother), ← List.append_cons]

/-- Without links a way can only lead to the place that its names give. -/
theorem Follows.location_eq (hfree : tree.LinkFree) {purpose : Purpose} {links : Nat} {directory : Location}
    {names : List Name} {target : Target} (h : Follows tree purpose links directory names target) :
    target.location = destination directory names := by
  have hstep : ∀ {name : Name} {rest : List Name} {directory : Location}, Sought purpose name rest →
      step directory name = directory ++ [name] := fun hs => step_of_entry hs.ne_nil hs.ne_dot hs.ne_dotDot
  induction h with
  | here => rfl
  | stay hstay _ ih => rw [destination_cons, step_of_stay hstay, ih]
  | up _ ih => rw [destination_cons, step_dotDot, ih]
  | vacant hs => rw [destination_cons, hstep hs]; rfl
  | file hs => rw [destination_cons, hstep hs]; rfl
  | link _ _ hnode => exact absurd hnode (hfree _ _)
  | enter hs _ _ ih => rw [destination_cons, hstep hs, ih]
  | through _ _ hnode => exact absurd hnode (hfree _ _)

end FileTree

namespace FileSystem

open FileTree (destination trimmed Follows)

variable {files files' : FileSystem} {base path : Path} {names : List Name} {location top : Location}

/-- Where a path leads, if it leads anywhere and there are no links. -/
def home (files : FileSystem) (path : Path) : Location := destination (files.start path) path.names

/-- A place on the way of a path, from where it begins to where it leads. -/
def OnWay (files : FileSystem) (path : Path) (location : Location) : Prop :=
  ∃ front, front <+: trimmed path.names ∧ location = destination (files.start path) front

theorem home_of_current (h : files'.current = files.current) (path : Path) :
    files'.home path = files.home path := by
  rw [home, home, start, start, h]

theorem onWay_of_current (h : files'.current = files.current) (path : Path) :
    files'.OnWay path = files.OnWay path := by
  funext location
  rw [OnWay, OnWay, start, start, h]

theorem Grows.linkFree {scope : Location → Prop} (h : Grows scope files files')
    (hfree : files.tree.LinkFree) :
    files'.tree.LinkFree := hfree.of_sustains h.sustains

theorem LeadsTo.eq_home (h : files.LeadsTo path location) (hfree : files.tree.LinkFree) :
    location = files.home path := by
  obtain ⟨used, -, hway⟩ := leadsTo_iff.1 h
  exact hway.location_eq hfree

/-- The way of a path to a directory goes through directories. -/
theorem LeadsTo.directory_of_onWay (h : files.LeadsTo path top) (hwf : files.WellFormed)
    (hfree : files.tree.LinkFree) (hway : files.OnWay path location) :
    files.tree.node? location = some .directory := by
  obtain ⟨front, ⟨rest, hrest⟩, rfl⟩ := hway
  obtain ⟨used, -, hleads⟩ := leadsTo_iff.1 h
  have hway : Follows files.tree .target used (files.start path) (front ++ rest)
      (.present top .directory) := by
    rw [hrest]
    exact hleads.of_trimmed_eq (by simp [trimmed])
  by_cases hnil : rest = []
  · rw [hnil, List.append_nil] at hway
    rw [← hway.location_eq hfree]
    exact hway.directory_place hwf.tree (hwf.start path) rfl
  · obtain ⟨_, _, reached, -, hfront, -⟩ := hway.split hnil
    rw [← hfront.location_eq hfree]
    exact hfront.directory_place hwf.tree (hwf.start path) rfl

theorem home_of_within (h : Path.Within base names path) : files.home path = files.home base ++ names := by
  rw [home, home, ← FileTree.destination_trimmed, h.trimmed, FileTree.destination_append,
    FileTree.destination_trimmed, start_of_within h, FileTree.destination_of_plain h.plain]

/-- Where a path in a base leads to a directory, the base does. -/
theorem exists_leadsTo_of_within (h : Path.Within base names path) (hnames : names ≠ [])
    (hleads : files.LeadsTo path location) : ∃ top, files.LeadsTo base top := by
  obtain ⟨used, hused, hway⟩ := leadsTo_iff.1 hleads
  rw [start_of_within h] at hway
  obtain ⟨front, rest, hsplit, hfront, hrest⟩ := List.filter_eq_append_iff.1 h.trimmed
  rw [hsplit] at hway
  have hne : rest ≠ [] := by
    rintro rfl
    exact hnames hrest.symm
  obtain ⟨used₁, used₂, top, rfl, hbase, -⟩ := hway.split hne
  exact ⟨top, leadsTo_iff.2 ⟨used₁, by omega, hbase.of_trimmed_eq hfront.symm⟩⟩

/-- The way of a path in a base is the way of the base and goes on from there. -/
theorem onWay_of_within (h : Path.Within base names path) (hway : files.OnWay path location) :
    files.OnWay base location ∨ ∃ front, front ≠ [] ∧ front <+: names ∧
    location = files.home base ++ front := by
  obtain ⟨front, hfront, rfl⟩ := hway
  rw [h.trimmed] at hfront
  rw [start_of_within h]
  rcases List.prefix_or_prefix_of_prefix hfront (List.prefix_append _ _) with hbase | ⟨more, rfl⟩
  · exact .inl ⟨front, hbase, rfl⟩
  · by_cases hmore : more = []
    · rw [hmore, List.append_nil]
      exact .inl ⟨_, List.prefix_rfl, rfl⟩
    · rw [List.prefix_append_right_inj] at hfront
      refine .inr ⟨more, hmore, hfront, ?_⟩
      rw [FileTree.destination_append, FileTree.destination_trimmed,
        FileTree.destination_of_plain fun name hname => h.plain name (hfront.subset hname)]
      rfl

end FileSystem

/-! Directories on the way of a path. -/

namespace Files

open FileSystem (Gains)

variable {session after : Session} {path : Path} {result : Except Failure Unit}

/-- Whatever comes of ensuring a directory, directories are made on its way and nothing else
changes. -/
theorem gains_ensureWithin_onWay (hwf : session.files.WellFormed)
    (hfree : session.files.tree.LinkFree) {parents : Nat}
    (h : (ensureWithin parents path).perform session = (result, after)) :
    Gains (session.files.OnWay path) session.files after.files := by
  have hcondition : ∀ (other : Path) (files : FileSystem),
      (other.isAbsolute = path.isAbsolute ∧ FileTree.trimmed other.names <+: FileTree.trimmed path.names) →
      Gains (session.files.OnWay path) session.files files →
      (∃ location, files.LeadsTo other location) ∨
        (∀ parent, other.parent? = some parent →
          parent.isAbsolute = path.isAbsolute ∧
            FileTree.trimmed parent.names <+: FileTree.trimmed path.names) ∧
        ∀ location, files.resolveNames .itself other other.names = .ok (.vacant location) →
          files.Vacant location ∧ session.files.OnWay path location := by
    rintro other files ⟨habsolute, hbegins⟩ hgained
    refine .inr ⟨fun parent hparent => ?_, fun location hresolve => ?_⟩
    · obtain ⟨habsolute', hbegins'⟩ := Path.parent_facts hparent
      exact ⟨habsolute'.trans habsolute, hbegins'.trans hbegins⟩
    · obtain ⟨-, _, -, hway⟩ := FileSystem.resolveNames_eq_ok_iff.1 hresolve
      have hlocation : location = _ := hway.location_eq (hgained.linkFree hfree)
      refine ⟨(hgained.wellFormed hwf).vacant
        (fun _ hname => Path.no_slash_of_mem_names hname) hresolve, _, hbegins, ?_⟩
      rw [hlocation, FileTree.destination_trimmed, hgained.start, FileSystem.start,
        FileSystem.start, habsolute]
  exact gains_ensureWithin hcondition (.refl _ _) ⟨rfl, List.prefix_rfl⟩ h

theorem gains_createDirectory_onWay (hwf : session.files.WellFormed) (hfree : session.files.tree.LinkFree)
    (h : (createDirectory path).perform session = (result, after)) :
    Gains (session.files.OnWay path) session.files after.files := by
  rcases files_of_createDirectory h with heq | ⟨result', between, hensure, heq⟩ <;> rw [heq]
  · exact .refl _ _
  · exact gains_ensureWithin_onWay hwf hfree hensure

end Files

end ServerPack
