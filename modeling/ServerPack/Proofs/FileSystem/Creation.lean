import ServerPack.Proofs.Build.Skeleton

/-!
Making directories and writing files in a data directory that is there. Where there are no links, a
path that leads to a directory can be left out in front of further names
(`LeadsTo.resolveNames_of_ending`), so that what becomes of the next one or two names can be
computed, refusals and all. A directory two levels down is made wherever nothing but directories is
in the way (`exists_perform_createDirectory`); if it is refused, nothing has been changed
(`files_eq_of_createDirectory`). A file is written wherever a file or nothing is
(`LeadsTo.writeContent_child`).
-/

namespace ServerPack

/-! Paths that end with names. -/

namespace Path

variable {base path : Path} {names : List Name} {name : Name}

/-- A path in a base that ends with its names there, so that none behind them stays where it is. -/
structure Ending (base : Path) (names : List Name) (path : Path) : Prop extends Within base names path where
  ending : ∃ front, FileTree.trimmed front = FileTree.trimmed base.names ∧ path.names = front ++ names

theorem ending_child (base : Path) (hname : Plain name) : Ending base [name] (base.child name) :=
  ⟨within_child base hname, _, rfl, names_child hname⟩

theorem Ending.child (h : Ending base names path) (hname : Plain name) :
    Ending base (names ++ [name]) (path.child name) := by
  obtain ⟨front, hfront, hnames⟩ := h.ending
  exact ⟨h.toWithin.child hname, front, hfront, by rw [names_child hname, hnames, List.append_assoc]⟩

theorem Within.ending_parent (h : Within base (names ++ [name]) path) :
    ∃ parent, path.parent? = some parent ∧ Ending base names parent ∧
    (path.Usable → parent.bytes ≠ [] → parent.Usable) := by
  obtain ⟨parent, hparent, hwithin, husable⟩ := h.parent
  obtain ⟨dots, hdots, hnames⟩ := names_of_parent hparent
  refine ⟨parent, hparent, ⟨hwithin, dots ++ FileTree.trimmed base.names, ?_, ?_⟩, husable⟩
  · rw [FileTree.trimmed_append, hdots, List.nil_append]
    simp [FileTree.trimmed]
  · rw [hnames, hwithin.trimmed, List.append_assoc]

theorem Ending.bytes_ne_nil (h : Ending base names path) (hnames : names ≠ []) : path.bytes ≠ [] := by
  obtain ⟨front, -, heq⟩ := h.ending
  intro hempty
  rw [Path.names, hempty] at heq
  have hnil : front ++ names = [] := heq.symm
  exact hnames (List.append_eq_nil_iff.1 hnil).2

end Path

namespace FileTree

variable {tree : FileTree} {purpose : Purpose}

/-- Where there are no links, names that lead to a directory can be left out in front of others. -/
theorem Follows.followNames_append (hfree : tree.LinkFree)
    {through : Location → List Name → Except IoFault Target} {links : Nat}
    {directory reached : Location} {names rest : List Name}
    (h : Follows tree .target links directory names (.present reached .directory))
    (hrest : rest ≠ []) (hslash : purpose = .writing → rest ≠ [[]]) :
    tree.followNames purpose through directory (names ++ rest) =
      tree.followNames purpose through reached rest := by
  generalize hend : Target.present reached .directory = target at h
  induction h with
  | here =>
      cases hend
      rfl
  | stay hstay _ ih =>
      rw [List.cons_append, followNames, if_pos hstay]
      exact ih hend
  | up _ ih =>
      rw [List.cons_append, followNames, if_neg (by decide), if_pos rfl]
      exact ih hend
  | vacant => cases hend
  | file => cases hend
  | link => cases hend
  | enter hs hnode _ ih =>
      rw [List.cons_append, followNames_of_sought (hs.append hrest hslash), hnode]
      exact ih hend
  | through _ _ hnode => exact absurd hnode (hfree _ _)

theorem sought_of_plain {name : Name} (hname : Path.Plain name) (hshort : name.length ≤ Path.maxNameLength)
    {rest : List Name} (hslash : rest ≠ [[]]) : Sought purpose name rest :=
  ⟨hname.ne_nil, hname.ne_dot, hname.ne_dotDot, fun h => hslash h.2, hshort⟩

end FileTree

namespace FileSystem

variable {files : FileSystem} {base path : Path} {top : Location} {names : List Name} {name : Name}
  {purpose : Purpose}

/-- A directory in a data directory is one itself. -/
theorem Rooted.child (hroot : files.Rooted base top) (hname : Path.Plain name)
    (hdirectory : files.tree.node? (top ++ [name]) = some .directory) :
    files.Rooted (base.child name) (top ++ [name]) :=
  ⟨hroot.tree, leadsTo_of_within hroot (Path.within_child base hname) hdirectory,
    hroot.linkless.below hdirectory⟩

/-- What a path leads to that goes on from a directory is what the further names lead to from
there. -/
theorem LeadsTo.resolveNames_of_ending (h : files.LeadsTo base top) (hfree : files.tree.LinkFree)
    (husable : path.Usable) (hpath : Path.Ending base names path) (hnames : names ≠ [])
    (purpose : Purpose) :
    files.resolveNames purpose path path.names =
      files.tree.followNames purpose (files.tree.afterLink purpose maxLinks) top names := by
  obtain ⟨_, _, hway⟩ := leadsTo_iff.1 h
  obtain ⟨front, hfront, heq⟩ := hpath.ending
  have hslash : names ≠ [[]] := fun hslash => (hpath.plain [] (hslash ▸ List.mem_cons_self)).ne_nil rfl
  rw [resolveNames_of_usable husable, FileTree.follow_eq_followNames, start_of_within hpath.toWithin, heq]
  exact (hway.of_trimmed_eq hfront).followNames_append hfree hnames fun _ => hslash

/-! One name further. -/

section One

variable (h : files.LeadsTo base top) (hfree : files.tree.LinkFree) (husable : path.Usable)
  (hpath : Path.Ending base [name] path) (hshort : name.length ≤ Path.maxNameLength)

include h hfree husable hpath hshort

/-- An entry of a directory is what its name leads to. -/
theorem LeadsTo.resolveNames_eq_targetAt (purpose : Purpose) :
    files.resolveNames purpose path path.names = .ok (files.tree.targetAt (top ++ [name])) := by
  have hplain := hpath.plain name List.mem_cons_self
  rw [h.resolveNames_of_ending hfree husable hpath (by simp),
    FileTree.followNames_of_sought (FileTree.sought_of_plain hplain hshort (by simp)), FileTree.targetAt]
  cases hnode : files.tree.node? (top ++ [name]) with
  | none => rfl
  | some node =>
      cases node with
      | directory => rfl
      | file content => rfl
      | link aim => exact absurd hnode (hfree _ _)

theorem LeadsTo.makeDirectory_of_none (hnone : files.tree.node? (top ++ [name]) = none) :
    files.makeDirectory path = .ok (files.put (top ++ [name]) .directory) := by
  rw [FileSystem.makeDirectory, h.resolveNames_eq_targetAt hfree husable hpath hshort,
    FileTree.targetAt, hnone]

theorem LeadsTo.makeDirectory_of_file {content : Content}
    (hfile : files.tree.node? (top ++ [name]) = some (.file content)) :
    files.makeDirectory path = .error .alreadyExists := by
  rw [FileSystem.makeDirectory, h.resolveNames_eq_targetAt hfree husable hpath hshort,
    FileTree.targetAt, hfile]

end One

/-- A path that ends with an entry of a directory, and not with a slash, leads to that entry. -/
theorem LeadsTo.resolve_child (h : files.LeadsTo base top) (hfree : files.tree.LinkFree)
    (hname : Path.Plain name) (hshort : name.length ≤ Path.maxNameLength)
    (husable : (base.child name).Usable) (purpose : Purpose) :
    files.resolve purpose (base.child name) = .ok (files.tree.targetAt (top ++ [name])) := by
  have hsteps : (base.child name).steps = (base.child name).names := by
    rw [Path.steps, Path.endsWithSlash_child hname]
    exact List.append_nil _
  rw [resolve, hsteps, h.resolveNames_eq_targetAt hfree husable (Path.ending_child base hname) hshort]

/-- A file is opened in a directory wherever a file or nothing is. -/
theorem LeadsTo.openEmpty_child (h : files.LeadsTo base top) (hfree : files.tree.LinkFree)
    (hname : Path.Plain name) (hshort : name.length ≤ Path.maxNameLength)
    (husable : (base.child name).Usable) (hnode : files.tree.node? (top ++ [name]) = none ∨
      ∃ content, files.tree.node? (top ++ [name]) = some (.file content)) :
    files.openEmpty (base.child name) = .ok
      (top ++ [name], files.put (top ++ [name]) (.file (.plain []))) := by
  rw [openEmpty, h.resolve_child hfree hname hshort husable, FileTree.targetAt]
  rcases hnode with hnone | ⟨content', hfile⟩
  · rw [hnone]
  · rw [hfile]

/-- A file is written in a directory wherever a file or nothing is. -/
theorem LeadsTo.writeContent_child (h : files.LeadsTo base top) (hfree : files.tree.LinkFree)
    (hname : Path.Plain name) (hshort : name.length ≤ Path.maxNameLength)
    (husable : (base.child name).Usable) (hnode : files.tree.node? (top ++ [name]) = none ∨
      ∃ content, files.tree.node? (top ++ [name]) = some (.file content))
    (content : Content) :
    files.writeContent (base.child name) content = .ok (files.put (top ++ [name]) (.file content)) := by
  rw [writeContent, h.openEmpty_child hfree hname hshort husable hnode]
  exact congrArg Except.ok (put_put _ _ _)

theorem writeContent_of_not_usable (h : ¬path.Usable) :
    ∃ fault, ∀ (files : FileSystem) content, files.writeContent path content = .error fault := by
  obtain ⟨fault, -, hrefused⟩ := resolveNames_of_not_usable h
  exact ⟨fault, fun files content => by rw [writeContent, openEmpty, resolve, hrefused]; rfl⟩

/-! Two names further. -/

section Two

variable {first last : Name} (h : files.LeadsTo base top) (hfree : files.tree.LinkFree)
  (husable : path.Usable) (hpath : Path.Ending base [first, last] path)
    (hshort : first.length ≤ Path.maxNameLength)

include h hfree husable hpath hshort

theorem LeadsTo.makeDirectory_of_parent_none (hnone : files.tree.node? (top ++ [first]) = none) :
    files.makeDirectory path = .error .notFound := by
  have hplain := hpath.plain first List.mem_cons_self
  have hlast := hpath.plain last (List.mem_cons_of_mem _ List.mem_cons_self)
  rw [FileSystem.makeDirectory, h.resolveNames_of_ending hfree husable hpath (by simp),
    FileTree.followNames_of_sought (FileTree.sought_of_plain hplain hshort
      (by simpa using hlast.ne_nil)), hnone]
  rfl

theorem LeadsTo.makeDirectory_of_parent_file {content : Content}
    (hfile : files.tree.node? (top ++ [first]) = some (.file content)) :
    files.makeDirectory path = .error .notADirectory := by
  have hplain := hpath.plain first List.mem_cons_self
  have hlast := hpath.plain last (List.mem_cons_of_mem _ List.mem_cons_self)
  rw [FileSystem.makeDirectory, h.resolveNames_of_ending hfree husable hpath (by simp),
    FileTree.followNames_of_sought (FileTree.sought_of_plain hplain hshort
      (by simpa using hlast.ne_nil)), hfile]
  rfl

end Two

end FileSystem

namespace Files

open FileSystem (Rooted)

variable {session after : Session} {base path : Path} {top : Location} {first last name : Name}
  {result : Except Failure Unit}

/-- A place for a directory, or one that is there. -/
abbrev Open (files : FileSystem) (location : Location) : Prop :=
  files.tree.node? location = none ∨ files.tree.node? location = some .directory

/-- A directory is provided where it can be made or is there. -/
theorem exists_perform_settle (husable : path.Usable)
    (h : (∃ files, session.files.makeDirectory path = .ok files) ∨
      ∃ location, session.files.LeadsTo path location) :
    ∃ after, (settle path (session.files.makeDirectory path)).perform session = (.ok (), after) := by
  rcases h with ⟨files, hmade⟩ | ⟨location, hthere⟩
  · rw [hmade]
    exact ⟨_, rfl⟩
  · rw [hthere.makeDirectory husable, perform_settle_error, FileSystem.isDirectory, hthere.lookup husable]
    exact ⟨_, rfl⟩

/-- In a directory that is where there is a directory or nothing. -/
theorem exists_perform_settle_of_open (hroot : session.files.Rooted base top)
    (hfree : session.files.tree.LinkFree) (husable : path.Usable)
    (hpath : Path.Ending base [name] path) (hshort : name.length ≤ Path.maxNameLength)
    (hopen : Open session.files (top ++ [name])) :
    ∃ after, (settle path (session.files.makeDirectory path)).perform session = (.ok (), after) := by
  refine exists_perform_settle husable ?_
  rcases hopen with hnone | hdirectory
  · exact .inl ⟨_, hroot.leads.makeDirectory_of_none hfree husable hpath hshort hnone⟩
  · exact .inr ⟨_, FileSystem.leadsTo_of_within hroot hpath.toWithin hdirectory⟩

theorem exists_perform_ensureWithin (hroot : session.files.Rooted base top)
    (hfree : session.files.tree.LinkFree) (husable : path.Usable)
    (hpath : Path.Ending base [name] path) (hshort : name.length ≤ Path.maxNameLength)
    (hopen : Open session.files (top ++ [name])) (parents : Nat) :
    ∃ after, (ensureWithin (parents + 1) path).perform session = (.ok (), after) := by
  have hmade : session.files.makeDirectory path ≠ .error .notFound := by
    rcases hopen with hnone | hdirectory
    · rw [hroot.leads.makeDirectory_of_none hfree husable hpath hshort hnone]
      nofun
    · rw [(FileSystem.leadsTo_of_within hroot hpath.toWithin hdirectory).makeDirectory husable]
      nofun
  rw [perform_ensureWithin_of_ne husable.ne_nil hmade]
  exact exists_perform_settle_of_open hroot hfree husable hpath hshort hopen

/-- What is open stays open while directories are made. -/
theorem Open.gains {files files' : FileSystem} {location : Location} {scope : Location → Prop}
    (h : Open files location) (hgains : FileSystem.Gains scope files files') : Open files' location := by
  rcases hgains.eq_or_made location with hsame | ⟨-, -, hmade⟩
  · rwa [Open, hsame]
  · exact .inr hmade

/-- A directory in a directory is made wherever nothing but directories is in the way. -/
theorem exists_perform_ensure (hwf : session.files.WellFormed) (hroot : session.files.Rooted base top)
    (hfree : session.files.tree.LinkFree) (hfirst : Path.Plain first) (hlast : Path.Plain last)
    (hshort : first.length ≤ Path.maxNameLength) (hshort' : last.length ≤ Path.maxNameLength)
    (husable : ((base.child first).child last).Usable) (hopen : Open session.files (top ++ [first]))
    (hopen' : Open session.files (top ++ [first, last])) :
    ∃ after, (ensure ((base.child first).child last)).perform session = (.ok (), after) := by
  have hlastEnding := Path.ending_child (base.child first) hlast
  rw [List.append_cons] at hopen'
  rcases hopen with hnone | hdirectory
  · have hending := (Path.ending_child base hfirst).child hlast
    obtain ⟨parent, hparent, hparentEnding, hparentUsable⟩ := hending.toWithin.ending_parent
    replace hparentUsable := hparentUsable husable (hparentEnding.bytes_ne_nil (by simp))
    obtain ⟨length, hlength⟩ := Nat.exists_eq_add_of_lt (List.length_pos_iff.2 husable.ne_nil)
    rw [Nat.zero_add] at hlength
    obtain ⟨between, hbetween⟩ := exists_perform_ensureWithin hroot hfree hparentUsable
      hparentEnding hshort (.inl hnone) length
    have hgains := gains_ensureWithin_onWay hwf hfree hbetween
    have hroot' := hgains.rooted hroot
    obtain ⟨-, location, hleads⟩ := exists_leadsTo_of_ensureWithin hbetween hparentUsable.ne_nil
    have hdirectory := FileSystem.directory_of_leadsTo hroot' hparentEnding.toWithin (by simp) hleads
    have hmissing := hroot.leads.makeDirectory_of_parent_none hfree husable hending hshort hnone
    rw [ensure, ensureWithin, if_neg husable.ne_nil,
      Action.perform_bind_of_ok (Action.perform_ask _ session), hmissing, hparent, hlength]
    have hparents : ((some parent).forM (ensureWithin (length + 1)) : Action Unit).perform session =
        (.ok (), between) :=
      hbetween
    dsimp only
    rw [Action.perform_bind_of_ok hparents, Action.perform_bind_of_ok (Action.perform_ask _ between)]
    exact exists_perform_settle_of_open (hroot'.child hfirst hdirectory)
      (hgains.linkFree hfree) husable hlastEnding hshort' (hopen'.gains hgains)
  · exact exists_perform_ensureWithin (hroot.child hfirst hdirectory) hfree husable hlastEnding
      hshort' hopen' _

/-- A directory that cannot be made, other than for want of the one that should contain it, leaves
everything as it was. -/
theorem files_createDirectory_of_refused {fault : IoFault} (hne : path.bytes ≠ [])
    (hfault : fault ≠ .notFound) (hmade : session.files.makeDirectory path = .error fault)
    (h : (createDirectory path).perform session = (result, after)) : after.files = session.files := by
  rcases files_of_createDirectory h with hsame | ⟨result', between, hensure, hfiles⟩
  · exact hsame
  · rw [ensure, perform_ensureWithin_of_ne hne (hmade ▸ fun heq => hfault (Except.error.inj heq)), hmade,
      perform_settle_error] at hensure
    rw [hfiles, ← (Prod.mk.inj hensure).2]

section Two

variable (hwf : session.files.WellFormed) (hroot : session.files.Rooted base top)
  (hfree : session.files.tree.LinkFree) (hfirst : Path.Plain first) (hlast : Path.Plain last)

include hwf hroot hfree hfirst hlast

theorem exists_perform_createDirectory (hshort : first.length ≤ Path.maxNameLength)
    (hshort' : last.length ≤ Path.maxNameLength) (husable : ((base.child first).child last).Usable)
    (hopen : Open session.files (top ++ [first])) (hopen' : Open session.files (top ++ [first, last])) :
    ∃ after, (createDirectory ((base.child first).child last)).perform session = (.ok (), after) := by
  rw [createDirectory, Action.perform_bind_of_ok (Action.perform_ask _ session)]
  cases session.files.isDirectory ((base.child first).child last) with
  | true => exact ⟨_, rfl⟩
  | false =>
      obtain ⟨after, hensure⟩ := exists_perform_ensure hwf hroot hfree hfirst hlast hshort hshort'
        husable hopen hopen'
      exact ⟨_, Action.perform_bind_of_ok hensure⟩

/-- When a directory in a directory has been made, both are there and nothing else has changed. -/
theorem node?_of_createDirectory (h : (createDirectory ((base.child first).child last)).perform
      session = (.ok (), after))
    (location : Location) : after.files.tree.node? location =
      if location = top ++ [first] ∨ location = top ++ [first, last] then some .directory
      else session.files.tree.node? location := by
  have hwithin := (Path.within_child base hfirst).child hlast
  have hgains := gains_createDirectory_onWay hwf hfree h
  split
  · next hplace =>
    obtain ⟨-, _, hleads⟩ := exists_leadsTo_of_createDirectory h (Path.child_bytes_ne_nil hlast)
    have hdirectory := FileSystem.directory_of_leadsTo (hgains.rooted hroot) hwithin (by simp) hleads
    rcases hplace with rfl | rfl
    · rw [← List.append_assoc] at hdirectory
      exact (hgains.tree hwf.tree).parent hdirectory
    · exact hdirectory
  · next hother =>
    refine (hgains.eq_or_made location).resolve_right fun ⟨hway, hnone, _⟩ => ?_
    rcases FileSystem.onWay_of_within hwithin hway with hbase | ⟨front, hne, hfront, rfl⟩
    · cases hnone.symm.trans (hroot.leads.directory_of_onWay hwf hfree hbase)
    · rw [← hroot.leads.eq_home hfree] at hother
      obtain ⟨more, rfl, hmore⟩ := (List.prefix_cons_iff.1 hfront).resolve_left hne
      rcases List.prefix_cons_iff.1 hmore with rfl | ⟨more, rfl, hnil⟩
      · exact hother (.inl rfl)
      · exact hother (.inr (by rw [List.prefix_nil.1 hnil]))

/-- If a directory in a directory cannot be made, nothing has been changed. -/
theorem files_eq_of_createDirectory (hshort : first.length ≤ Path.maxNameLength)
    (hshort' : last.length ≤ Path.maxNameLength) {failure : Failure}
    (h : (createDirectory ((base.child first).child last)).perform session = (.error failure, after)) :
    after.files = session.files := by
  have hne := (base.child first).child_bytes_ne_nil hlast
  by_cases hunusable : ¬((base.child first).child last).Usable
  · obtain ⟨fault, hfault, hrefused⟩ := FileSystem.makeDirectory_of_not_usable hne hunusable
    exact files_createDirectory_of_refused hne hfault (hrefused _) h
  have husable := Classical.not_not.1 hunusable
  have hending := (Path.ending_child base hfirst).child hlast
  -- Where nothing but directories is in the way it would have been made.
  have hobstructed : Open session.files (top ++ [first]) → ¬Open session.files (top ++ [first, last]) := by
    intro hopen hopen'
    obtain ⟨after', hmade⟩ := exists_perform_createDirectory hwf hroot hfree hfirst hlast hshort
      hshort' husable hopen hopen'
    cases h.symm.trans hmade
  cases hnode : session.files.tree.node? (top ++ [first]) with
  | none =>
      refine absurd ?_ (hobstructed (.inl hnode))
      rw [Open, List.append_cons, hwf.tree.none_below hnode]
      exact .inl rfl
  | some node =>
      cases node with
      | link aim => exact absurd hnode (hfree _ _)
      | file content =>
          exact files_createDirectory_of_refused hne (by decide)
            (hroot.leads.makeDirectory_of_parent_file hfree husable hending hshort hnode) h
      | directory =>
          have hchild := hroot.child hfirst hnode
          have hobstructed' := hobstructed (.inr hnode)
          rw [Open, List.append_cons] at hobstructed'
          cases hnode' : session.files.tree.node? (top ++ [first] ++ [last]) with
          | none => exact absurd (.inl hnode') hobstructed'
          | some node =>
              cases node with
              | link aim => exact absurd hnode' (hfree _ _)
              | directory => exact absurd (.inr hnode') hobstructed'
              | file content =>
                  exact files_createDirectory_of_refused hne (by decide)
                    (hchild.leads.makeDirectory_of_file hfree husable
                      (Path.ending_child _ hlast) hshort' hnode') h

end Two

end Files

end ServerPack
