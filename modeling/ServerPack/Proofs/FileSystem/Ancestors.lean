import Mathlib.Data.List.Infix
import ServerPack.Proofs.FileSystem.Creation

/-!
When the directories on the way of a path can be made. Without links they can exactly if the path
can be followed and each place on its way holds a directory or is free for one (`succeeds_ensure`).
All of them are there afterwards and nothing else has changed (`node?_eq_paved`). A path may end in
`.` only if its directory is there already or its way comes through it before its end (`Enterable`):
`e/.` is not found while `e` is missing, and the path that is made first, the one without its last
name, is not `e` but what contains it.
-/

namespace ServerPack

namespace FileTree

variable {tree : FileTree}

/-- A directory, or a place for one under a name that a directory can give. -/
def Passable (tree : FileTree) (location : Location) : Prop :=
  tree.node? location = some .directory ∨
    tree.node? location = none ∧ ∀ name ∈ location.getLast?, name.length ≤ Path.maxNameLength

instance (tree : FileTree) (location : Location) : Decidable (tree.Passable location) :=
    inferInstanceAs (Decidable (_ ∨ _))

/-- Names that meet nothing but directories and places for them lead to one of these, or on from a
place where nothing is. -/
theorem followNames_of_passable (hwf : tree.WellFormed)
    {through : Location → List Name → Except IoFault Target} {directory : Location} {names : List Name}
    (h : ∀ front, front <+: trimmed names → tree.Passable (destination directory front)) :
    tree.followNames .itself through directory names = .error .notFound ∨
      (∃ location, tree.followNames .itself through directory names = .ok (.vacant location)) ∨
      ∃ location, tree.followNames .itself through directory names = .ok
        (.present location .directory) := by
  induction names generalizing directory with
  | nil => exact .inr (.inr ⟨directory, rfl⟩)
  | cons name rest ih =>
      by_cases hstay : name = [] ∨ name = Path.dot
      · rw [followNames, if_pos hstay]
        refine ih fun front hfront => h front ?_
        rwa [trimmed, List.filter_cons_of_neg (by rcases hstay with rfl | rfl <;> simp)]
      obtain ⟨hnil, hdot⟩ := not_or.1 hstay
      have htrimmed : trimmed (name :: rest) = name :: trimmed rest :=
        List.filter_cons_of_pos (by simp [hnil, hdot])
      have hfurther : ∀ front, front <+: trimmed rest →
          tree.Passable (destination (step directory name) front) :=
        fun front hfront => h (name :: front) (htrimmed ▸ List.cons_prefix_cons.2 ⟨rfl, hfront⟩)
      by_cases hup : name = Path.dotDot
      · subst hup
        rw [step_dotDot] at hfurther
        rw [followNames, if_neg hstay, if_pos rfl]
        exact ih hfurther
      rw [step_of_entry hnil hdot hup] at hfurther
      have hfirst : tree.Passable (directory ++ [name]) := hfurther [] (List.nil_prefix ..)
      have hshort : name.length ≤ Path.maxNameLength := by
        rcases hfirst with hdirectory | ⟨-, hshort⟩
        · exact hwf.short hdirectory
        · exact hshort name (by simp)
      rw [followNames_of_sought ⟨hnil, hdot, hup, by simp, hshort⟩]
      rcases hfirst with hdirectory | ⟨hnone, -⟩
      · rw [hdirectory]
        exact ih hfurther
      · rw [hnone]
        by_cases hrest : rest = []
        · exact .inr (.inl ⟨_, if_pos hrest⟩)
        · exact .inl (if_neg hrest)

theorem Passable.gains {files files' : FileSystem} {scope : Location → Prop} {location : Location}
    (h : files.tree.Passable location) (hgains : FileSystem.Gains scope files files') :
    files'.tree.Passable location := by
  rcases hgains.eq_or_made location with hsame | ⟨-, -, hmade⟩
  · rwa [Passable, hsame]
  · exact .inl hmade

end FileTree

namespace FileSystem

open FileTree (destination trimmed Follows)

variable {files files' : FileSystem} {path : Path} {location : Location}

instance (files : FileSystem) (path : Path) (location : Location) : Decidable (files.OnWay path location) :=
  decidable_of_iff (∃ front ∈ (trimmed path.names).inits,
      location = destination (files.start path) front) (by
    simp only [OnWay, List.mem_inits])

/-- The node at a location when the directories that are missing on the way of a path have been
made. -/
def paved (files : FileSystem) (path : Path) (location : Location) : Option Node :=
  (files.tree.node? location).or (if files.OnWay path location then some .directory else none)

/-- Each place on the way of a path is a directory or free for one. -/
def Passable (files : FileSystem) (path : Path) : Prop :=
  ∀ location, files.OnWay path location → files.tree.Passable location

/-- If a path ends in `.`, its directory is there, or its way comes through it before its last
name. -/
def Enterable (files : FileSystem) (path : Path) : Prop :=
  path.names.getLast? = some Path.dot → files.tree.node? (files.home path) ≠ none ∨
    ∃ front, front <+: (trimmed path.names).dropLast ∧
      files.home path = destination (files.start path) front

theorem onWay_home (files : FileSystem) (path : Path) : files.OnWay path (files.home path) :=
  ⟨_, List.prefix_rfl, (FileTree.destination_trimmed ..).symm⟩

/-- Without links a path is passable if no file is on its way and the missing directories have names
that are short enough. -/
theorem passable_iff (hfree : files.tree.LinkFree) : files.Passable path ↔
    (∀ {location}, files.OnWay path location → files.tree.node? location = none →
      ∀ name ∈ location.getLast?, name.length ≤ Path.maxNameLength) ∧
      ∀ {location}, files.OnWay path location →
      ∀ content, files.tree.node? location ≠ some (.file content) := by
  constructor
  · refine fun h => ⟨fun hon hnone => ?_, fun hon content hfile => ?_⟩
    · rcases h _ hon with hdirectory | ⟨-, hshort⟩
      · cases hdirectory.symm.trans hnone
      · exact hshort
    · rcases h _ hon with hdirectory | ⟨hnone, -⟩
      · cases hdirectory.symm.trans hfile
      · cases hnone.symm.trans hfile
  · rintro ⟨hshort, hnot⟩ location hon
    cases hnode : files.tree.node? location with
    | none => exact .inr ⟨hnode, hshort hon hnode⟩
    | some node =>
        cases node with
        | directory => exact .inl hnode
        | file content => exact absurd hnode (hnot hon content)
        | link aim => exact absurd hnode (hfree _ _)

theorem leadsTo_of_trimmed_eq_nil (h : trimmed path.names = []) : files.LeadsTo path (files.start path) :=
  leadsTo_iff.2 ⟨0, Nat.zero_le _, Follows.here.of_trimmed_eq h⟩

/-- Where all directories on the way of a path have been made, what is there is known. -/
theorem node?_eq_paved (hwf : files.WellFormed) (hfree : files.tree.LinkFree)
    (hgains : Gains (files.OnWay path) files files')
    (hleads : files'.LeadsTo path (files.home path)) (location : Location) :
    files'.tree.node? location = files.paved path location := by
  rw [paved]
  cases hnode : files.tree.node? location with
  | some node => exact hgains.node?_eq hnode
  | none =>
      by_cases hway : files.OnWay path location
      · rw [if_pos hway]
        exact hleads.directory_of_onWay (hgains.wellFormed hwf) (hgains.linkFree hfree)
          (onWay_of_current hgains.current path ▸ hway)
      · rw [if_neg hway, hgains.outside hway, hnode]
        rfl

/-- Where a path is passable a directory is there or can be made, or one on the way to it is
missing. -/
theorem makeDirectory_of_passable (hwf : files.WellFormed) (husable : path.Usable)
    (hpassable : files.Passable path) :
    files.makeDirectory path = .error .notFound ∨
      (∃ files', files.makeDirectory path = .ok files') ∨ ∃ location, files.LeadsTo path location := by
  have hresolve := @resolveNames_of_usable files path husable .itself path.names
  rw [FileTree.follow_eq_followNames] at hresolve
  rcases @FileTree.followNames_of_passable files.tree hwf.tree
    (files.tree.afterLink .itself maxLinks) (files.start path)
    path.names fun front hfront => hpassable _
      ⟨front, hfront, rfl⟩ with hmissing | ⟨location, hvacant⟩ | ⟨location, hthere⟩
  · rw [hmissing] at hresolve
    exact .inl (by rw [makeDirectory, hresolve])
  · rw [hvacant] at hresolve
    exact .inr (.inl ⟨_, by rw [makeDirectory, hresolve]⟩)
  · rw [hthere] at hresolve
    obtain ⟨-, used, hused, hway⟩ := resolveNames_eq_ok_iff.1 hresolve
    exact .inr (.inr ⟨location, leadsTo_iff.2 ⟨used, hused, hway.reading fun _ _ heq => by cases heq⟩⟩)

theorem Gains.none_of_none {scope : Location → Prop} (hgains : Gains scope files files')
    (hnone : files'.tree.node? location = none) : files.tree.node? location = none := by
  rcases hgains.eq_or_made location with hsame | ⟨-, hbefore, -⟩
  · rw [← hsame, hnone]
  · exact hbefore

theorem Passable.parent {parent : Path} (h : files.Passable path)
    (hparent : path.parent? = some parent) : files.Passable parent := by
  obtain ⟨habsolute, hbegins⟩ := Path.parent_facts hparent
  rintro _ ⟨front, hfront, rfl⟩
  exact h _ ⟨front, hfront.trans hbegins, by rw [start, start, habsolute]⟩

theorem enterable_of_trimmed_eq_nil (hwf : files.WellFormed) (h : trimmed path.names = []) :
    files.Enterable path := by
  intro _
  rw [home, ← FileTree.destination_trimmed, h, FileTree.destination_nil, hwf.start path]
  exact .inl (Option.some_ne_none _)

/-- The path without its last part ends in `.` only if it leads to where the path begins. -/
theorem enterable_of_parent (hwf : files.WellFormed) {parent : Path}
    (hparent : path.parent? = some parent) :
    files.Enterable parent := by
  obtain ⟨dots, -, hnames⟩ := Path.names_of_parent hparent
  rcases List.eq_nil_or_concat (trimmed parent.names) with hnil | ⟨init, last, hlast⟩
  · exact enterable_of_trimmed_eq_nil hwf hnil
  · intro hdot
    rw [List.concat_eq_append] at hlast
    rw [hnames, hlast, ← List.append_assoc, List.getLast?_concat] at hdot
    have hmem : last ∈ trimmed parent.names := hlast ▸ List.mem_append_right _ List.mem_cons_self
    exact absurd (Option.some.inj hdot) (of_decide_eq_true (List.mem_filter.1 hmem).2).2

/-- A path that is followed to a place for a directory does not end in `.`. -/
theorem not_dot_of_makeDirectory (h : files.makeDirectory path = .ok files') :
    path.names.getLast? ≠ some Path.dot := by
  intro hdot
  obtain ⟨front, hnames⟩ := List.getLast?_eq_some_iff.1 hdot
  rw [makeDirectory] at h
  split at h
  · cases h
  · next location hresolve =>
    obtain ⟨-, _, -, hway⟩ := resolveNames_eq_ok_iff.1 hresolve
    rw [hnames] at hway
    obtain ⟨_, _, _, -, -, hlast⟩ := hway.split (by simp)
    cases hlast with
    | stay _ hrest => cases hrest
    | vacant hs => exact hs.ne_dot rfl
    | enter hs => exact hs.ne_dot rfl
    | through hs => exact hs.ne_dot rfl
  · cases h

/-- In a directory that is there the last one on the way of a path can be made, unless the path ends
in `.`. -/
theorem makeDirectory_of_parent (hwf : files.WellFormed) (husable : path.Usable)
    {parent : Path} {init : List Name} {last : Name} (hnames : trimmed path.names = init ++ [last])
    (hparent : files.LeadsTo parent (files.home parent)) (habsolute : parent.isAbsolute = path.isAbsolute)
    (hinit : trimmed parent.names = init) (hend : files.tree.Passable (files.home path))
    (hdot : path.names.getLast? = some Path.dot → files.tree.node? (files.home path) ≠ none) :
    (∃ files', files.makeDirectory path = .ok files') ∨ ∃ location, files.LeadsTo path location := by
  obtain ⟨used, hused, hway⟩ := leadsTo_iff.1 hparent
  rw [show files.start parent = files.start path by rw [start, start, habsolute]] at hway
  have hhome : files.home path = FileTree.step (files.home parent) last := by
    rw [home, home, ← FileTree.destination_trimmed, hnames, FileTree.destination_append, ← hinit,
      FileTree.destination_trimmed, start, start, habsolute]
    rfl
  have hlast : last ∈ trimmed path.names := hnames ▸ List.mem_append_right _ List.mem_cons_self
  obtain ⟨hnil, hnotDot⟩ : last ≠ [] ∧ last ≠ Path.dot := by simpa using (List.mem_filter.1 hlast).2
  have hthere : ∀ {location : Location}, Follows files.tree .target 0 (files.home parent) [last]
    (.present location .directory) →
      ∃ location, files.LeadsTo path location := by
    intro location hlast
    have hall := hway.append hlast (by simp) (by simp)
    refine ⟨location, leadsTo_iff.2 ⟨used, hused, hall.of_trimmed_eq ?_⟩⟩
    rw [FileTree.trimmed_append, hinit, FileTree.trimmed_singleton hnil hnotDot, hnames]
  by_cases hup : last = Path.dotDot
  · subst hup
    exact .inr (hthere (.up .here))
  rw [hhome, FileTree.step_of_entry hnil hnotDot hup] at hend hdot
  rcases hend with hdirectory | ⟨hnone, hshort⟩
  · exact .inr (hthere (.enter ⟨hnil, hnotDot, hup, by simp, hwf.tree.short hdirectory⟩ hdirectory .here))
  -- Only if the name comes last as the path is written is its place where the path ends.
  · left
    obtain ⟨front, final, hwritten⟩ : ∃ front final, path.names = front ++ [final] := by
      rcases List.eq_nil_or_concat path.names with hempty | ⟨front, final, hwritten⟩
      · rw [hempty] at hnames
        exact absurd hnames (by simp [trimmed])
      · exact ⟨front, final, hwritten.trans List.concat_eq_append⟩
    have hfinal : final ≠ [] ∧ final ≠ Path.dot := by
      refine ⟨Path.ne_nil_of_mem_names (hwritten ▸ List.mem_append_right _ List.mem_cons_self), ?_⟩
      rintro rfl
      exact hdot (by simp [hwritten]) hnone
    rw [hwritten, FileTree.trimmed_append, FileTree.trimmed_singleton hfinal.1 hfinal.2] at hnames
    obtain ⟨hfront, heq⟩ := List.append_inj' hnames rfl
    obtain rfl := (List.cons.inj heq).1
    have hlast : Follows files.tree .itself 0 (files.home parent) [final]
        (.vacant (files.home parent ++ [final])) :=
      .vacant ⟨hnil, hnotDot, hup, by simp, hshort final (by simp)⟩ hnone
    have hall := (hway.of_trimmed_eq (hfront.trans hinit.symm)).append hlast (by simp) (by simp)
    refine ⟨files.put (files.home parent ++ [final]) .directory, ?_⟩
    rw [makeDirectory, hwritten, resolveNames_eq_ok_iff.2 ⟨husable, used, hused, hall⟩]

end FileSystem

namespace Path

theorem length_le_length_join {pieces : List Name} (h : ∀ piece ∈ pieces, piece ≠ []) :
    pieces.length ≤ (Text.join slash pieces).length := by
  induction pieces with
  | nil => exact Nat.zero_le _
  | cons piece rest ih =>
      have hpiece : 0 < piece.length := List.length_pos_iff.2 (h piece List.mem_cons_self)
      have hrest := ih fun other hother => h other (List.mem_cons_of_mem _ hother)
      cases rest with
      | nil => exact hpiece
      | cons next more =>
          rw [Text.join]
          · simp only [List.length_append, List.length_cons] at hrest ⊢
            omega
          · simp

/-- A path has not more names than bytes. -/
theorem length_trimmed_le (path : Path) : (FileTree.trimmed path.names).length ≤ path.bytes.length := by
  have hsublist : (FileTree.trimmed path.names).Sublist (Text.split slash path.bytes) :=
    List.filter_sublist.trans List.filter_sublist
  have hjoined : (Text.join slash _).length ≤ (Text.join slash _).length :=
    Text.length_join_le_of_sublist hsublist
  rw [Text.join_split] at hjoined
  exact Nat.le_trans (length_le_length_join fun piece hpiece =>
    (pieces_of_sublist (List.Sublist.refl _) piece hpiece).1) hjoined

end Path

namespace Files

open FileSystem (Gains)

variable {session after : Session} {path : Path} {parents : Nat}

theorem exists_leadsTo_of_performed (h : (ensureWithin (parents + 1) path).perform session =
      (.ok (), after)) :
    ∃ location, after.files.LeadsTo path location := by
  by_cases hempty : path.bytes = []
  · refine ⟨_, FileSystem.leadsTo_of_trimmed_eq_nil ?_⟩
    rw [Path.names, hempty]
    rfl
  · exact (exists_leadsTo_of_ensureWithin h hempty).2

/-- A path to a directory that has been provided ends in `.` only if the directory was there. -/
theorem Provided.node?_home (h : Provided path session after) (hwf : session.files.WellFormed)
    (hfree : session.files.tree.LinkFree) (hdot : path.names.getLast? = some Path.dot) :
    session.files.tree.node? (session.files.home path) = some .directory := by
  rcases h with ⟨files, hmade, rfl⟩ | ⟨hdirectory, rfl⟩
  · exact absurd hdot (FileSystem.not_dot_of_makeDirectory hmade)
  · obtain ⟨location, hlookup⟩ := FileSystem.isDirectory_iff.1 hdirectory
    exact (FileSystem.leadsTo_of_lookup hlookup).directory_of_onWay hwf hfree (FileSystem.onWay_home _ path)

/-- When the directories on the way of the path without its last name have been made, the directory
at its end can be. -/
theorem makeDirectory_of_ensured {between : Session} {parent : Path} {init : List Name} {last : Name}
    (hwf : session.files.WellFormed) (hfree : session.files.tree.LinkFree) (husable : path.Usable)
    (hpassable : session.files.Passable path) (henter : session.files.Enterable path)
    (hnames : FileTree.trimmed path.names = init ++ [last])
    (habsolute : parent.isAbsolute = path.isAbsolute) (hinit : FileTree.trimmed parent.names = init)
    (hensured : (ensureWithin (parents + 1) parent).perform session = (.ok (), between)) :
    (∃ files, between.files.makeDirectory path = .ok files) ∨
    ∃ location, between.files.LeadsTo path location := by
  have hgains := gains_ensureWithin_onWay hwf hfree hensured
  have hwf' := hgains.wellFormed hwf
  have hfree' := hgains.linkFree hfree
  obtain ⟨location, hleads⟩ := exists_leadsTo_of_performed hensured
  rw [hleads.eq_home hfree'] at hleads
  have hend : between.files.tree.Passable (between.files.home path) := by
    rw [FileSystem.home_of_current hgains.current]
    exact (hpassable _ (session.files.onWay_home path)).gains hgains
  have hdot : path.names.getLast? = some Path.dot →
      between.files.tree.node? (between.files.home path) ≠ none := by
    intro hends
    rw [FileSystem.home_of_current hgains.current]
    rcases henter hends with hthere | ⟨front, hfront, hhome⟩
    · exact fun hnone => hthere (hgains.none_of_none hnone)
    · rw [hnames, List.dropLast_concat, ← hinit] at hfront
      have hway : between.files.OnWay parent (session.files.home path) :=
        ⟨front, hfront, by rw [hhome, hgains.start, FileSystem.start, FileSystem.start, habsolute]⟩
      rw [hleads.directory_of_onWay hwf' hfree' hway]
      exact Option.some_ne_none _
  exact FileSystem.makeDirectory_of_parent hwf' husable hnames hleads habsolute hinit hend hdot

/-- Directories that a path needs are made where nothing stands in the way of that. -/
theorem exists_perform_ensureWithin_of_passable (hwf : session.files.WellFormed)
    (hfree : session.files.tree.LinkFree) (husable : path.bytes ≠ [] → path.Usable)
    (hpassable : session.files.Passable path) (henter : session.files.Enterable path)
    (hparents : (FileTree.trimmed path.names).length < parents) :
    ∃ after, (ensureWithin parents path).perform session = (.ok (), after) := by
  induction parents generalizing path with
  | zero => exact absurd hparents (Nat.not_lt_zero _)
  | succ parents ih =>
      by_cases hempty : path.bytes = []
      · exact ⟨session, by rw [ensureWithin, if_pos hempty]; rfl⟩
      replace husable := husable hempty
      rcases List.eq_nil_or_concat (FileTree.trimmed path.names) with hnil | ⟨init, last, hnames⟩
      · exact ⟨session, (FileSystem.leadsTo_of_trimmed_eq_nil hnil).perform_ensureWithin
          (fun _ => husable) _⟩
      rw [List.concat_eq_append] at hnames
      rcases FileSystem.makeDirectory_of_passable hwf husable hpassable with hmissing | hmade
      · obtain ⟨parent, hparent, habsolute, hinit, husable'⟩ := Path.exists_parent hnames
        have hshorter : (FileTree.trimmed parent.names).length < parents := by
          rw [hnames, List.length_append, List.length_singleton] at hparents
          rw [hinit]
          omega
        obtain ⟨between, hbetween⟩ := ih (husable' husable) (hpassable.parent hparent)
          (FileSystem.enterable_of_parent hwf hparent) hshorter
        obtain ⟨fewer, rfl⟩ := Nat.exists_eq_add_one_of_ne_zero (Nat.ne_zero_of_lt hshorter)
        have hprovided := makeDirectory_of_ensured hwf hfree husable hpassable henter hnames
          habsolute hinit hbetween
        have hparents : ((some parent).forM (ensureWithin (fewer + 1)) : Action Unit).perform
            session = (.ok (), between) :=
          hbetween
        rw [ensureWithin, if_neg hempty, Action.perform_bind_of_ok (Action.perform_ask _ session),
          hmissing, hparent]
        dsimp only
        rw [Action.perform_bind_of_ok hparents, Action.perform_bind_of_ok (Action.perform_ask _ between)]
        exact exists_perform_settle husable hprovided
      · have hnot : session.files.makeDirectory path ≠ .error .notFound := by
          rcases hmade with ⟨files, hmade⟩ | ⟨location, hthere⟩
          · rw [hmade]
            rintro ⟨⟩
          · rw [hthere.makeDirectory husable]
            rintro ⟨⟩
        rw [perform_ensureWithin_of_ne hempty hnot]
        exact exists_perform_settle husable hmade

/-- A path that ends in `.` has been given its directory only if that was there or its way comes
through it before. -/
theorem enterable_of_ensureWithin (hwf : session.files.WellFormed) (hfree : session.files.tree.LinkFree)
    (h : (ensureWithin (parents + 1) path).perform session = (.ok (), after)) :
    session.files.Enterable path := by
  rcases List.eq_nil_or_concat (FileTree.trimmed path.names) with hnil | ⟨init, last, hnames⟩
  · exact FileSystem.enterable_of_trimmed_eq_nil hwf hnil
  rw [List.concat_eq_append] at hnames
  intro hdot
  rcases provided_of_ensureWithin h with ⟨hempty, -⟩ | hprovided | ⟨between, hparent, hprovided⟩
  · rw [Path.names, hempty] at hdot
    cases hdot
  · rw [hprovided.node?_home hwf hfree hdot]
    exact .inl (Option.some_ne_none _)
  obtain ⟨parent, hparent', habsolute, hinit, -⟩ := Path.exists_parent hnames
  rw [hparent'] at hparent
  have hgains : Gains (session.files.OnWay parent) session.files between.files :=
    gains_ensureWithin_onWay hwf hfree hparent
  have hdirectory := hprovided.node?_home (hgains.wellFormed hwf) (hgains.linkFree hfree) hdot
  rw [FileSystem.home_of_current hgains.current] at hdirectory
  rcases hgains.eq_or_made (session.files.home path) with hsame | ⟨⟨front, hfront, hhome⟩, -, -⟩
  · rw [← hsame, hdirectory]
    exact .inl (Option.some_ne_none _)
  · refine .inr ⟨front, ?_, ?_⟩
    · rwa [hnames, List.dropLast_concat, ← hinit]
    · rw [hhome, FileSystem.start, FileSystem.start, habsolute]

/-- When the directories on the way of a path can be made. -/
theorem succeeds_ensure (hwf : session.files.WellFormed) (hfree : session.files.tree.LinkFree) :
    (ensure path).Succeeds session
      ((path.bytes ≠ [] → path.Usable) ∧ session.files.Passable path ∧ session.files.Enterable path)
        fun after =>
      Gains (session.files.OnWay path) session.files after.files ∧
      after.files.LeadsTo path (session.files.home path) where
  complete := by
    rintro ⟨husable, hpassable, henter⟩
    exact exists_perform_ensureWithin_of_passable hwf hfree husable hpassable henter
      (Nat.lt_succ_of_le path.length_trimmed_le)
  sound hensure := by
    have hgains := gains_ensureWithin_onWay hwf hfree hensure
    have hwf' := hgains.wellFormed hwf
    have hfree' := hgains.linkFree hfree
    obtain ⟨location, hleads⟩ := exists_leadsTo_of_performed hensure
    rw [hleads.eq_home hfree', FileSystem.home_of_current hgains.current] at hleads
    refine ⟨⟨fun hne => (exists_leadsTo_of_ensureWithin hensure hne).1, fun location hway => ?_,
      enterable_of_ensureWithin hwf hfree hensure⟩, hgains, hleads⟩
    have hdirectory := hleads.directory_of_onWay hwf' hfree'
      (FileSystem.onWay_of_current hgains.current path ▸ hway)
    rcases hgains.eq_or_made location with hsame | ⟨-, hnone, -⟩
    · exact .inl (hsame.symm.trans hdirectory)
    · refine .inr ⟨hnone, fun name hname => ?_⟩
      obtain ⟨directory, rfl⟩ := List.getLast?_eq_some_iff.1 hname
      exact hwf'.tree.short hdirectory

end Files

end ServerPack
