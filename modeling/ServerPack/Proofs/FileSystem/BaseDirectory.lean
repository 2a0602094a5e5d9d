import ServerPack.Proofs.FileSystem.Growth

/-!
Paths below a directory without links. `Path.Within base names path` says that `path` is written as
`base` with `names` behind it, up to names that stay where they are. Where `base` leads to a
directory below which there are no links, such a path can only lead to the location of these names
there (`follows_eq_of_within`), and it does lead to every directory there (`leadsTo_of_within`) and,
if it ends with the name, to every file.
-/

namespace ServerPack

/-- The node is a symbolic link. -/
def Node.isLink : Node → Bool
  | .link _ => true
  | .directory | .file _ => false

namespace FileTree

variable {tree : FileTree} {purpose : Purpose} {links : Nat} {top : Location}

theorem node?_ne_link (h : (tree.entries.all fun entry => !entry.2.isLink) = true)
    (location : Location) (aim : Path) :
    tree.node? location ≠ some (.link aim) := by
  intro hnode
  rw [node?] at hnode
  split at hnode
  · cases hnode
  · rw [Dictionary.get?_eq_some_iff tree.sorted] at hnode
    have hentry := List.all_eq_true.1 h _ hnode
    cases hentry

/-- A directory below which there are no links. -/
structure Linkless (tree : FileTree) (top : Location) : Prop where
  directory : tree.node? top = some .directory
  no_link {names aim} : tree.node? (top ++ names) ≠ some (.link aim)

theorem Linkless.below (h : tree.Linkless top) {names : Location}
    (hdirectory : tree.node? (top ++ names) = some .directory) : tree.Linkless (top ++ names) :=
  ⟨hdirectory, List.append_assoc .. ▸ h.no_link⟩

/-- Below a directory without links names can only lead to their own location. -/
theorem Follows.eq_of_linkless {names trim : List Name} {target : Target}
    (h : Follows tree purpose links top names target) (hlinkless : tree.Linkless top)
    (hplain : ∀ name ∈ trim, Path.Plain name) (htrim : trimmed names = trim) :
    target = tree.targetAt (top ++ trim) := by
  induction h generalizing trim with
  | here =>
      subst htrim
      rw [trimmed, List.filter_nil, List.append_nil, targetAt, hlinkless.directory]
  | stay hstay _ ih =>
      refine ih hlinkless hplain ?_
      rw [← htrim, trimmed, trimmed, List.filter_cons_of_neg (by rcases hstay with rfl | rfl <;> simp)]
  | up =>
      rw [trimmed, List.filter_cons_of_pos (by decide)] at htrim
      exact absurd rfl (hplain Path.dotDot (htrim ▸ List.mem_cons_self)).ne_dotDot
  | vacant hs hnode =>
      rw [trimmed_singleton hs.ne_nil hs.ne_dot] at htrim
      rw [← htrim, targetAt, hnode]
  | file hs hnode =>
      rw [trimmed_singleton hs.ne_nil hs.ne_dot] at htrim
      rw [← htrim, targetAt, hnode]
  | link _ _ hnode => exact absurd hnode hlinkless.no_link
  | @enter _ _ name rest _ hs hnode _ ih =>
      rw [trimmed, List.filter_cons_of_pos (by simp [hs.ne_nil, hs.ne_dot])] at htrim
      subst htrim
      rw [ih (hlinkless.below hnode) (fun name hname => hplain name (List.mem_cons_of_mem _ hname)) rfl,
        ← List.append_cons]
  | through _ _ hnode => exact absurd hnode hlinkless.no_link

@[simp] theorem location_targetAt (tree : FileTree) (location : Location) :
    (tree.targetAt location).location = location := by
  rw [targetAt]
  cases tree.node? location <;> rfl

theorem trimmed_of_plain {names : List Name} (hplain : ∀ name ∈ names, Path.Plain name) :
    trimmed names = names :=
  List.filter_eq_self.2 fun name hname => by simp [(hplain name hname).ne_nil, (hplain name hname).ne_dot]

/-- A directory is reached by the names of its location. -/
theorem WellFormed.follows (hwf : tree.WellFormed) {names : List Name}
    (hnode : tree.node? (top ++ names) = some .directory) :
    Follows tree .target 0 top names (.present (top ++ names) .directory) := by
  induction names generalizing top with
  | nil =>
      rw [List.append_nil]
      exact .here
  | cons name names ih =>
      rw [List.append_cons] at hnode ⊢
      have hdirectory : tree.node? (top ++ [name]) = some .directory := by
        by_cases hnil : names = []
        · rwa [hnil, List.append_nil] at hnode
        · exact hwf.above hnil hnode
      have hplain := hwf.plain hdirectory
      exact .enter ⟨hplain.ne_nil, hplain.ne_dot, hplain.ne_dotDot, by simp, hwf.short hdirectory⟩
        hdirectory (ih hnode)

end FileTree

namespace Path

/-- The path is written as another one with names behind it, up to names that stay where they
are. -/
structure Within (base : Path) (names : List Name) (path : Path) : Prop where
  isAbsolute : path.isAbsolute = base.isAbsolute
  trimmed : FileTree.trimmed path.names = FileTree.trimmed base.names ++ names
  plain : ∀ name ∈ names, Plain name

variable {base path : Path} {names : List Name}

theorem Within.refl (base : Path) : Within base [] base := ⟨rfl, (List.append_nil _).symm, nofun⟩

theorem Within.child (h : Within base names path) {name : Name} (hname : Plain name) :
    Within base (names ++ [name]) (path.child name) where
  isAbsolute := (isAbsolute_child hname).trans h.isAbsolute
  trimmed := by
    rw [names_child hname, FileTree.trimmed_append, h.trimmed,
      FileTree.trimmed_singleton hname.ne_nil hname.ne_dot, List.append_assoc]
  plain other hother := by
    rcases List.mem_append.1 hother with hother | hother
    · exact h.plain other hother
    · exact List.mem_singleton.1 hother ▸ hname

theorem within_child (base : Path) {name : Name} (hname : Plain name) :
    Within base [name] (base.child name) :=
  (Within.refl base).child hname

theorem Within.foldl_child {more : List Name} (h : Within base names path)
    (hmore : ∀ name ∈ more, Plain name) :
    Within base (names ++ more) (more.foldl Path.child path) := by
  induction more generalizing names path with
  | nil => rwa [List.append_nil]
  | cons name more ih =>
      rw [List.foldl_cons, List.append_cons]
      exact ih (h.child (hmore name List.mem_cons_self)) fun other hother =>
        hmore other (List.mem_cons_of_mem _ hother)

theorem Within.parent {name : Name} (h : Within base (names ++ [name]) path) :
    ∃ parent, path.parent? = some parent ∧ Within base names parent ∧
      (path.Usable → parent.bytes ≠ [] → parent.Usable) := by
  obtain ⟨parent, hparent, habsolute, htrimmed, husable⟩ :=
    exists_parent (h.trimmed.trans (List.append_assoc ..).symm)
  exact ⟨parent, hparent, ⟨habsolute.trans h.isAbsolute, htrimmed,
    fun other hother => h.plain other (List.mem_append_left _ hother)⟩, husable⟩

end Path

namespace FileSystem

open FileTree (Follows)

variable {files : FileSystem} {base path : Path} {names : List Name} {top : Location}

theorem start_of_within (h : Path.Within base names path) : files.start path = files.start base := by
  rw [start, start, h.isAbsolute]

theorem Grows.linkless {files' : FileSystem} {scope : Location → Prop} (h : Grows scope files files')
    (hlinkless : files.tree.Linkless top) : files'.tree.Linkless top :=
  ⟨h.sustains.directory hlinkless.directory, fun hlink => hlinkless.no_link (h.sustains.link.2 hlink)⟩

/-- A path leads to a directory without links below it, in a well-formed tree. -/
structure Rooted (files : FileSystem) (base : Path) (top : Location) : Prop where
  tree : files.tree.WellFormed
  leads : files.LeadsTo base top
  linkless : files.tree.Linkless top

theorem WellFormed.rooted (hwf : files.WellFormed) (hleads : files.LeadsTo base top)
    (hlinks : ∀ names aim, files.tree.node? (top ++ names) ≠ some (.link aim)) : files.Rooted base top := by
  obtain ⟨_, _, hway⟩ := leadsTo_iff.1 hleads
  exact ⟨hwf.tree, hleads, hway.directory_place hwf.tree (hwf.start base) rfl, hlinks _ _⟩

theorem Grows.rooted {files' : FileSystem} {scope : Location → Prop} (h : Grows scope files files')
    (hroot : files.Rooted base top) : files'.Rooted base top :=
  ⟨h.tree hroot.tree, h.leadsTo hroot.leads, h.linkless hroot.linkless⟩

/-- A path within a base can only lead to the location of its names. -/
theorem follows_eq_of_within (hroot : files.Rooted base top) (h : Path.Within base names path)
    (hnames : names ≠ []) {purpose : Purpose} {used : Nat} {written : List Name}
    (hwritten : FileTree.trimmed written = FileTree.trimmed path.names) {target : Target}
    (hway : Follows files.tree purpose used (files.start path) written target) :
    target = files.tree.targetAt (top ++ names) := by
  obtain ⟨_, _, hbaseway⟩ := leadsTo_iff.1 hroot.leads
  rw [start_of_within h] at hway
  rw [h.trimmed] at hwritten
  obtain ⟨front, rest, rfl, hfront, hrest⟩ := List.filter_eq_append_iff.1 hwritten
  have hne : rest ≠ [] := by
    rintro rfl
    exact hnames hrest.symm
  obtain ⟨_, _, reached, -, hreached, htarget⟩ := hway.split hne
  obtain ⟨rfl, -⟩ := Target.present.inj (hreached.unique (hbaseway.of_trimmed_eq hfront))
  exact htarget.eq_of_linkless hroot.linkless h.plain hrest

theorem resolveNames_eq_of_within (hroot : files.Rooted base top) (h : Path.Within base names path)
    (hnames : names ≠ []) {purpose : Purpose} {written : List Name}
    (hwritten : FileTree.trimmed written = FileTree.trimmed path.names) {target : Target}
    (hresolve : files.resolveNames purpose path written = .ok target) :
    target = files.tree.targetAt (top ++ names) := by
  obtain ⟨-, used, -, hway⟩ := resolveNames_eq_ok_iff.1 hresolve
  exact follows_eq_of_within hroot h hnames hwritten hway

/-- A vacant place to which a path within a base leads lies in a directory. -/
theorem Rooted.vacant (hroot : files.Rooted base top) (h : Path.Within base names path)
    (hnames : names ≠ []) {purpose : Purpose} {written : List Name}
    (hwritten : FileTree.trimmed written = FileTree.trimmed path.names)
    (hslash : ∀ name ∈ written, Path.slash ∉ name) {location : Location}
    (hresolve : files.resolveNames purpose path written = .ok (.vacant location)) :
    files.Vacant location := by
  obtain ⟨-, used, -, hway⟩ := resolveNames_eq_ok_iff.1 hresolve
  obtain ⟨_, _, hbaseway⟩ := leadsTo_iff.1 hroot.leads
  rw [start_of_within h] at hway
  rw [h.trimmed] at hwritten
  obtain ⟨front, rest, rfl, hfront, hrest⟩ := List.filter_eq_append_iff.1 hwritten
  have hne : rest ≠ [] := by
    rintro rfl
    exact hnames hrest.symm
  obtain ⟨_, _, reached, -, hreached, htarget⟩ := hway.split hne
  obtain ⟨rfl, -⟩ := Target.present.inj (hreached.unique (hbaseway.of_trimmed_eq hfront))
  obtain ⟨directory, name, hlocation, hplace⟩ := htarget.vacant_place hroot.tree hroot.linkless.directory
    (fun name hname => hslash name (List.mem_append_right _ hname)) rfl
  exact ⟨directory, name, hlocation, hplace, htarget.endsAt.2⟩

/-- A file within a base that is opened or written is put in its place. -/
theorem Rooted.grows_put (hroot : files.Rooted base top) (h : Path.Within base names path)
    (hnames : names ≠ [])
    (hresolve : files.resolve .writing path = .ok (files.tree.targetAt (top ++ names)))
    {content : Content} (htakes : files.tree.Takes (top ++ names) (.file content)) :
    Grows (fun location => location = top ++ names) files (files.put (top ++ names) (.file content)) :=
  grows_put_of_resolve hroot.tree
    (hroot.vacant h hnames (Path.trimmed_steps path) fun _ hname =>
      Path.no_slash_of_mem_steps hname) hresolve
    (by simp [hnames]) htakes rfl

theorem node?_eq_of_targetAt {tree : FileTree} {location location' : Location} {node : Node}
    (h : Target.present location node = tree.targetAt location') :
    location = location' ∧ tree.node? location' = some node := by
  rw [FileTree.targetAt] at h
  split at h
  · next node' hnode =>
    obtain ⟨rfl, rfl⟩ := Target.present.inj h
    exact ⟨rfl, hnode⟩
  · cases h

/-- Where a path within a base leads to a directory there is one. -/
theorem directory_of_leadsTo (hroot : files.Rooted base top) (h : Path.Within base names path)
    (hnames : names ≠ []) {location : Location} (hleads : files.LeadsTo path location) :
    files.tree.node? (top ++ names) = some .directory := by
  obtain ⟨_, _, hway⟩ := leadsTo_iff.1 hleads
  exact (node?_eq_of_targetAt (follows_eq_of_within hroot h hnames rfl hway)).2

/-- A path within a base leads to the directory that is there. -/
theorem leadsTo_of_within (hroot : files.Rooted base top) (h : Path.Within base names path)
    (hnode : files.tree.node? (top ++ names) = some .directory) :
    files.LeadsTo path (top ++ names) := by
  obtain ⟨used, hused, hbaseway⟩ := leadsTo_iff.1 hroot.leads
  by_cases hnil : names = []
  · subst hnil
    rw [List.append_nil]
    exact leadsTo_iff.2 ⟨used, hused, start_of_within h ▸ hbaseway.of_trimmed_eq (by simpa using h.trimmed)⟩
  · have hway := hbaseway.append (hroot.tree.follows hnode) hnil (by simp)
    rw [Nat.add_zero] at hway
    refine leadsTo_iff.2 ⟨used, hused, start_of_within h ▸ hway.of_trimmed_eq ?_⟩
    rw [h.trimmed, FileTree.trimmed_append, FileTree.trimmed_of_plain h.plain]

theorem location_eq_of_within (hroot : files.Rooted base top) (h : Path.Within base names path)
    (hnames : names ≠ []) {purpose : Purpose} {location : Location}
    (hresolve : files.resolve purpose path = .ok (files.tree.targetAt location)) :
    location = top ++ names := by
  have htarget := resolveNames_eq_of_within hroot h hnames (Path.trimmed_steps path) hresolve
  rw [← FileTree.location_targetAt files.tree location, htarget, FileTree.location_targetAt]

theorem lookup_within (hroot : files.Rooted base top) (h : Path.Within base names path)
    (hnames : names ≠ []) {purpose : Purpose} {location : Location} {node : Node}
    (hlookup : files.lookup purpose path = .ok (location, node)) :
    location = top ++ names ∧ files.tree.node? (top ++ names) = some node := by
  have hresolve : files.resolveNames purpose path path.steps = .ok (.present location node) :=
    resolveNames_eq_ok_iff.2 (lookup_eq_ok_iff.1 hlookup)
  exact node?_eq_of_targetAt (resolveNames_eq_of_within hroot h hnames (Path.trimmed_steps path) hresolve)

/-- An entry of a directory that a path leads to is at the end of its own path. -/
theorem LeadsTo.lookup_child (hwf : files.tree.WellFormed) (h : files.LeadsTo path top)
    {name : Name} {node : Node} (hnode : files.tree.node? (top ++ [name]) = some node)
    (hlink : ∀ aim, node ≠ .link aim) (husable : (path.child name).Usable) :
    files.lookup .target (path.child name) = .ok (top ++ [name], node) := by
  obtain ⟨used, hused, hway⟩ := leadsTo_iff.1 h
  have hname := hwf.plain hnode
  have hsought : FileTree.Sought .target name [] :=
    ⟨hname.ne_nil, hname.ne_dot, hname.ne_dotDot, by simp, hwf.short hnode⟩
  have hlast : Follows files.tree .target 0 top [name] (.present (top ++ [name]) node) := by
    cases node with
    | directory => exact .enter hsought hnode .here
    | file content => exact .file hsought hnode
    | link aim => exact absurd rfl (hlink aim)
  have hchild := hway.append hlast (by simp) (by simp)
  refine lookup_eq_ok_iff.2 ⟨husable, used, hused, ?_⟩
  rw [Path.steps, Path.endsWithSlash_child hname, Path.names_child hname, start,
    Path.isAbsolute_child hname]
  simpa [start] using hchild

/-- What is below a directory in a base can be found by its names, if they make up a path that can
be followed. -/
theorem lookup_below (hroot : files.Rooted base top) {name : Name} (hname : Path.Plain name)
    {names : Location} {node : Node} (hnode : files.tree.node? (top ++ name :: names) = some node)
    (husable : (names.foldl Path.child (base.child name)).Usable) :
    files.lookup .target (names.foldl Path.child (base.child name)) = .ok (top ++ name :: names, node) := by
  have hlink : ∀ aim, node ≠ .link aim := fun aim heq => hroot.linkless.no_link (heq ▸ hnode)
  have hplain := hroot.tree.plain_of_mem hnode
  rcases List.eq_nil_or_concat names with rfl | ⟨init, last, rfl⟩
  · exact hroot.leads.lookup_child hroot.tree hnode hlink husable
  rw [List.concat_eq_append] at *
  have heq : top ++ name :: (init ++ [last]) = top ++ name :: init ++ [last] := by
    rw [List.append_assoc, List.cons_append]
  rw [heq] at hnode ⊢
  have hdirectory := hroot.tree.parent hnode
  have hwithin : Path.Within base (name :: init) (init.foldl Path.child (base.child name)) :=
    (Path.within_child base hname).foldl_child fun other hother =>
      hplain other (List.mem_cons_of_mem _ (List.mem_append_left _ hother))
  rw [List.foldl_append] at husable ⊢
  exact (leadsTo_of_within hroot hwithin hdirectory).lookup_child hroot.tree hnode hlink husable

end FileSystem

namespace Files

open FileSystem (Gains LeadsTo)

variable {session after : Session} {base path : Path} {names : List Name} {name : Name} {top : Location}
  {result : Except Failure Unit}

theorem ensureParent_within (hroot : session.files.Rooted base top)
    (hpath : Path.Within base (names ++ [name]) path)
    (hdirectory : session.files.tree.node? (top ++ names) = some .directory)
    (h : (ensureParent path).perform session = (result, after)) : after = session := by
  obtain ⟨parent, hparent, hwithin, -⟩ := hpath.parent
  rw [ensureParent, hparent] at h
  exact eq_of_ensureWithin (FileSystem.leadsTo_of_within hroot hwithin hdirectory) h

/-- A text that is written into a directory within a base, or not written at all. -/
theorem writeText_within (hroot : session.files.Rooted base top)
    (hpath : Path.Within base (names ++ [name]) path)
    (hdirectory : session.files.tree.node? (top ++ names) = some .directory) {text : Text}
    (h : (writeText path text).perform session = (result, after)) :
    (∃ failure, result = .error failure) ∧ after = session ∨
      result = .ok () ∧ after = { session with
        files := session.files.put (top ++ (names ++ [name])) (.file (.plain (Utf8.encode text))) } ∧
        session.files.tree.Takes (top ++ (names ++ [name])) (.file (.plain (Utf8.encode text))) ∧
        after.files.HoldsFile path (top ++ (names ++ [name])) (.plain (Utf8.encode text)) := by
  obtain ⟨result', between, hparent, hend⟩ := files_of_writeText h
  obtain rfl := ensureParent_within hroot hpath hdirectory hparent
  rcases hend with hfailed | ⟨hresult, hfiles, hafter⟩
  · exact .inl hfailed
  · obtain ⟨location, hput, hresolve, ⟨-, htakes⟩, hholds⟩ := FileSystem.holdsFile_of_writeContent hfiles
    obtain rfl := FileSystem.location_eq_of_within hroot hpath (by simp) hresolve
    exact .inr ⟨hresult, hput ▸ hafter, htakes _, hholds⟩

/-- The directories that are made for a path within a base begin with its first name there. -/
theorem gains_ensureWithin_within {first : Name} {rest : List Name}
    (hroot : session.files.Rooted base top) (hbegins : names <+: first :: rest)
    (hpath : Path.Within base names path) {parents : Nat}
    (h : (ensureWithin parents path).perform session = (result, after)) :
    Gains (fun location => ∃ names, location = top ++ first :: names) session.files after.files := by
  have hcondition : ∀ (path : Path) (files : FileSystem),
      (∃ names, Path.Within base names path ∧ names <+: first :: rest) →
      Gains (fun location => ∃ names, location = top ++ first :: names) session.files files →
      (∃ location, files.LeadsTo path location) ∨
        (∀ parent, path.parent? = some parent → ∃ names, Path.Within base names parent ∧
          names <+: first :: rest) ∧
        ∀ location, files.resolveNames .itself path path.names = .ok (.vacant location) →
          files.Vacant location ∧ ∃ names, location = top ++ first :: names := by
    rintro path files ⟨names, hwithin, hbegins⟩ hgained
    have hroot' := hgained.rooted hroot
    rcases List.eq_nil_or_concat names with rfl | ⟨above, name, hnames⟩
    · refine .inl ⟨top ++ [], FileSystem.leadsTo_of_within hroot' hwithin ?_⟩
      rw [List.append_nil]
      exact hroot'.linkless.directory
    rw [List.concat_eq_append] at hnames
    subst hnames
    obtain ⟨parent', hparent', hwithin', -⟩ := hwithin.parent
    refine .inr ⟨fun other hother => ?_, fun location hresolve => ?_⟩
    · cases hparent'.symm.trans hother
      exact ⟨above, hwithin', (List.prefix_append _ _).trans hbegins⟩
    · have htarget := FileSystem.resolveNames_eq_of_within hroot' hwithin (by simp) rfl hresolve
      have hlocation := congrArg Target.location htarget
      rw [FileTree.location_targetAt] at hlocation
      obtain ⟨more, hmore⟩ := List.prefix_cons_iff.1 hbegins |>.resolve_left (by simp)
      exact ⟨hroot'.vacant hwithin (by simp) rfl (fun _ hname => Path.no_slash_of_mem_names hname) hresolve,
        more, hmore.1 ▸ hlocation⟩
  exact gains_ensureWithin hcondition (.refl _ _) ⟨names, hpath, hbegins⟩ h

theorem gains_ensure_within {first : Name} {rest : List Name}
    (hroot : session.files.Rooted base top) (hpath : Path.Within base (first :: rest) path)
    (h : (ensure path).perform session = (result, after)) :
    Gains (fun location => ∃ names, location = top ++ first :: names) session.files after.files :=
  gains_ensureWithin_within hroot List.prefix_rfl hpath h

theorem gains_ensureParent_within {first : Name} {rest : List Name}
    (hroot : session.files.Rooted base top) (hpath : Path.Within base (first :: rest) path)
    (h : (ensureParent path).perform session = (result, after)) :
    Gains (fun location => ∃ names, location = top ++ first :: names) session.files after.files := by
  rcases List.eq_nil_or_concat (first :: rest) with hnil | ⟨init, last, hlast⟩
  · cases hnil
  rw [List.concat_eq_append] at hlast
  obtain ⟨parent, hparent, hwithin, -⟩ := (hlast ▸ hpath).parent
  rw [ensureParent, hparent] at h
  exact gains_ensureWithin_within hroot (hlast ▸ List.prefix_append _ _) hwithin h

end Files

end ServerPack
