import ServerPack.Proofs.Build.SharedStart

/-!
A build in two sessions that give it the same, from the output tree on. Whatever is in the output
tree, the two agree on it once it has been deleted (`agree_of_deleteTree`), and everything that
comes after that goes by what they agree on. So the build does the same in both
(`buildsAlike_of_sameGiven`): what earlier builds may have left makes no difference.
-/

namespace ServerPack

open FileSystem (Agree AgreeAfter Covers Gains Grows LeadsTo Rooted)

/-! Deleting the output tree. -/

namespace Files

variable {origin : FileSystem} {shared : Location → Prop} {session session' after : Session}
  {base path : Path} {top location : Location} {name : Name}

/-- What is left to do when a directory has been emptied. -/
def removeEmptied (path : Path) : Action Unit := do
  tryCatch (Action.change fun files =>
      match files.removeDirectory path with
      | .error .notFound => .ok files
      | removed => removed) fun failure => do
    Action.log .error ("Failed to delete: " ++ path.display)
    throw failure
  Action.log .debug ("Deleted: " ++ path.display)

theorem perform_deleteTree_of_directory (hexists : session.files.pathExists path = true)
    (hlookup : session.files.lookup .itself path = .ok (location, .directory)) :
    (deleteTree path).perform session =
      (removeEmptied path).perform { session with files := session.files.dropBelow location } := by
  have hremove : (removeAll path).perform session = (Action.change fun files =>
      match files.removeDirectory path with
      | .error .notFound => .ok files
      | removed => removed).perform { session with files := session.files.dropBelow location } := by
    rw [removeAll, Action.perform_bind_of_ok (Action.perform_ask _ session), hlookup]
    rfl
  rw [deleteTree, Action.perform_bind_of_ok (Action.perform_ask _ session), hexists, if_pos rfl,
    removeEmptied,
    Action.perform_bind, Action.perform_bind, Action.perform_tryCatch, Action.perform_tryCatch, hremove]

theorem goesBy_removeEmptied (hpath : origin.Covers shared path) :
    (removeEmptied path).GoesBy origin shared := by
  refine .bind (.tryCatch (.change fun files files' hfiles => ?_) fun _ => .bind (.log _ _) fun _ =>
    .throw _) fun _ => .log _ _
  have hremoved := hfiles.removeDirectory hpath
  generalize files.removeDirectory path = removed, files'.removeDirectory path = removed' at hremoved
  cases hremoved with
  | done hremoved => exact .done hremoved
  | refused fault =>
      cases fault with
      | notFound => exact .done hfiles
      | _ => exact .refused _

/-- Whatever is in a directory, two sessions agree on it when it has been deleted. -/
theorem agree_of_deleteTree (hagree : Session.Agree origin shared session session')
    (hcovers : origin.Covers shared base) (h : Build.Settled base (origin.home base) session.files)
    (h' : Build.Settled base (origin.home base) session'.files) (hname : Path.Plain name)
    (hshort : name.length ≤ Path.maxNameLength) (husable : (base.child name).Usable)
    (hshared : shared (origin.home base ++ [name]))
    (hdirectory : session.files.tree.node? (origin.home base ++ [name]) = some .directory) :
    ((deleteTree (base.child name)).perform session).1 =
      ((deleteTree (base.child name)).perform session').1 ∧
      Session.Agree origin (fun location => shared location ∨
        ∃ names, location = origin.home base ++ name :: names)
          ((deleteTree (base.child name)).perform session).2
            ((deleteTree (base.child name)).perform session').2 := by
  have hdirectory' := (hagree.files.node?_eq hshared).symm.trans hdirectory
  have hemptied : ∀ {session : Session}, Build.Settled base (origin.home base) session.files →
      session.files.tree.node? (origin.home base ++ [name]) = some .directory →
      (deleteTree (base.child name)).perform session = (removeEmptied (base.child name)).perform
        { session with files := session.files.dropBelow (origin.home base ++ [name]) } := by
    intro session hsettled hdirectory
    have hfound : ∀ purpose, session.files.lookup purpose (base.child name) = .ok
        (origin.home base ++ [name], .directory) := by
      intro purpose
      rw [FileSystem.lookup, hsettled.leads.resolve_child hsettled.linkFree hname hshort husable,
        FileTree.targetAt, hdirectory]
    refine perform_deleteTree_of_directory ?_ (hfound .itself)
    rw [FileSystem.pathExists, hfound]
    rfl
  rw [hemptied h hdirectory, hemptied h' hdirectory']
  have hdropped := hagree.files.erase fun location =>
    (origin.home base ++ [name]).isPrefixOf location && location ≠ origin.home base ++ [name]
  refine goesBy_removeEmptied ?_ _ _ ⟨hdropped.mono fun location hlocation => ?_, hagree.randomness⟩
  · exact fun location hway => .inl (hcovers.child hname hshared location hway)
  · rcases hlocation with hlocation | ⟨names, rfl⟩
    · exact .inl hlocation
    · by_cases hnames : names = []
      · exact .inl (hnames ▸ hshared)
      · refine .inr ?_
        rw [List.append_cons]
        simp [hnames]

end Files

namespace Build

variable {session session' after after' : Session} {base : Path} {options : Options}

/-! Before the output tree is touched. -/

theorem receptive_of_furnished {files files' : FileSystem} (h : Receptive base files)
    (hfurnished : Furnished base files files') :
    Receptive base files' := by
  rw [Receptive, FileSystem.home_of_current hfurnished.grows.current,
    FileSystem.onWay_of_current hfurnished.grows.current]
  rcases h with hway | hnode
  · exact .inl hway
  rcases hfurnished.added (files.home base ++ [Utf8.encode workingCopyName]) with hsame | ⟨-, node,
    -, haddition⟩
  · exact .inr (hsame ▸ hnode)
  · refine .inl ?_
    generalize hlocation : files.home base ++ [Utf8.encode workingCopyName] = location at haddition
    have hroots : ∀ root ∈ [sourceName, outputName], Utf8.encode workingCopyName ≠
      Utf8.encode root := by decide
    cases haddition with
    | way hway => exact hway
    | skeleton hroot => exact absurd hlocation (ne_of_head_ne (hroots _ hroot) _ _)
    | settings => exact absurd hlocation (ne_of_head_ne (by decide) _ _)

theorem settled_of_furnish (h : Unobstructed base session.files)
    (hfurnish : (furnish (.of base)).perform session = (.ok (), after)) :
    Settled base (session.files.home base) after.files :=
  have hgrows := grows_furnish h.wellFormed hfurnish
  ⟨hgrows.wellFormed h.wellFormed, hgrows.linkFree h.linkFree,
    (rooted_of_furnish h.wellFormed h.linkFree hfurnish).leads⟩

/-- What comes before the output tree is touched comes alike if the data directory has been prepared
alike. -/
theorem alike_approach (hbackup : options.backup = false) {origin : FileSystem}
    (h : Unobstructed base session.files) (h' : Unobstructed base session'.files)
    (hcurrent : session.files.current = origin.current)
    (hcurrent' : session'.files.current = origin.current)
    (hfurnish : (furnish (.of base)).Alike origin (Prelude base origin) (started (.of base) session)
      (started (.of base) session')) :
    (approach (.of base) options).Alike origin (Foundation base origin) session session' := by
  have hstart : Unobstructed base (started (.of base) session).files := h
  have hstart' : Unobstructed base (started (.of base) session').files := h'
  have hhome : (started (.of base) session).files.home base = origin.home base :=
    FileSystem.home_of_current hcurrent base
  have hhome' : (started (.of base) session').files.home base = origin.home base :=
    FileSystem.home_of_current hcurrent' base
  rw [approach, hbackup]
  refine Action.Alike.of_perform_eq ?_ (Action.perform_bind_of_ok (Action.perform_log _ _ session))
    (Action.perform_bind_of_ok (Action.perform_log _ _ session'))
  refine hfurnish.bind fun _ furnished furnished' hfurnish hfurnish' hagree => ?_
  have hreceptive := receptive_of_furnished hstart.workingCopy
    (furnished_of_furnish hstart.wellFormed hstart.linkFree hfurnish)
  have hreceptive' := receptive_of_furnished hstart'.workingCopy
    (furnished_of_furnish hstart'.wellFormed hstart'.linkFree hfurnish')
  have hsettled := settled_of_furnish hstart hfurnish
  have hsettled' := settled_of_furnish hstart' hfurnish'
  rw [hhome] at hsettled
  rw [hhome'] at hsettled'
  exact (alike_workingSettings hagree hsettled hsettled' hreceptive hreceptive' _).bind
      fun _ _ _ _ _ hagree =>
    .done rfl rfl hagree

theorem usable_of_furnish (h : Unobstructed base session.files)
    (hfurnish : (furnish (.of base)).perform session = (.ok (), after)) :
    (base.child (Utf8.encode outputName)).Usable := by
  rw [furnish_eq] at hfurnish
  obtain ⟨_, made, hmade, -⟩ := Action.bind_eq_ok_iff.1 hfurnish
  have hleaf : Utf8.encode "files".toList ∈ leaves := by decide
  exact ((accepts_of_directories h hmade).2 _ hleaf).of_child (plain_of_mem_leaves hleaf).1.no_slash
    (Path.child_bytes_ne_nil plain_outputName)

/-- When a build comes to the output tree, it is there and can be found. -/
theorem settled_of_approached (hbackup : options.backup = false) (h : Unobstructed base session.files)
    {done : Settings.Document × List Path}
    (happroached : Approached (.of base) options session (.ok done) after) :
    Settled base (session.files.home base) after.files ∧ (base.child (Utf8.encode outputName)).Usable ∧
      after.files.tree.node? (session.files.home base ++ [Utf8.encode outputName]) = some .directory := by
  have hstart : Unobstructed base (started (.of base) session).files := h
  cases happroached with
  | archived _ _ hasked => cases hbackup.symm.trans hasked
  | plain hfurnish hsettings =>
      have hsettled := settled_of_furnish hstart hfurnish
      have houtput := directory_of_furnish hstart.wellFormed hfurnish hsettled.rooted
        (List.mem_cons_of_mem sourceName (List.mem_singleton_self outputName))
      have hgrows := grows_workingSettings hsettled.rooted hsettings
      exact ⟨hsettled.grows hgrows, usable_of_furnish hstart hfurnish, hgrows.sustains.directory houtput⟩

/-! From there on. -/

/-- What two sessions agree on once the output tree has been deleted. -/
def Everything (base : Path) (files : FileSystem) (location : Location) : Prop :=
  Foundation base files location ∨ ∃ names, location = outputOf (files.home base) names

theorem rebuild_eq (base : Path) (options : Options) (settings : Settings.Document) (backups : List Path) :
    rebuild (.of base) options settings backups = (do
      Files.deleteTree (Layout.of base).output
      Files.copyTree (Layout.of base).source (Layout.of base).output
      Action.log .info ("Copied " ++ (Layout.of base).source.display ++ " to " ++
        (Layout.of base).output.display)
      let files ← select (Layout.of base).output options.recursive settings.suffixes
      finish options.writeMode { settings, backups, files }) := by
  rw [rebuild, renewOutput]
  simp only [bind_assoc]

/-- The output tree is deleted and built again alike. -/
theorem agree_of_rebuild (options : Options) {origin : FileSystem}
    (hagree : Session.Agree origin (Foundation base origin) session session')
    (h : Settled base (origin.home base) session.files)
    (h' : Settled base (origin.home base) session'.files)
    (husable : (base.child (Utf8.encode outputName)).Usable)
    (houtput : session.files.tree.node? (origin.home base ++ [Utf8.encode outputName]) =
      some .directory) (settings : Settings.Document) (backups : List Path) :
    ((rebuild (.of base) options settings backups).perform session).1 =
        ((rebuild (.of base) options settings backups).perform session').1 ∧
      Session.Agree origin (Everything base origin)
        ((rebuild (.of base) options settings backups).perform session).2
        ((rebuild (.of base) options settings backups).perform session').2 := by
  have hway : origin.Covers (Foundation base origin) base := fun _ hway => .inl (.inl (.inl hway))
  have hdeleted := Files.agree_of_deleteTree hagree hway h h' plain_outputName (by decide) husable
    (.inl (.inr ⟨[], by decide, rfl⟩)) houtput
  rw [rebuild_eq]
  exact Action.GoesBy.agree_bind hdeleted fun _ _ _ =>
    goesBy_copy_select_finish (fun _ hway => .inl (.inl (.inl (.inl hway))))
    (fun names => .inl (.inl (.inl (.inr (.inl ⟨names, rfl⟩)))))
      (fun names => .inr ⟨names, rfl⟩) options settings backups

/-! Builds that are given the same. -/

/-- A build does the same in two sessions: it comes to the same end, and if it has come to the
output tree, it leaves the same there and the same working copy. -/
structure BuildsAlike (base : Path) (options : Options) (session session' : Session) : Prop where
  result : ((run (.of base) options).perform session).1 = ((run (.of base) options).perform session').1
  output {done approached} : Approached (.of base) options session (.ok done) approached → ∀ names,
    ((run (.of base) options).perform session).2.files.tree.node?
      (outputOf (session.files.home base) names) =
      ((run (.of base) options).perform session').2.files.tree.node?
        (outputOf (session.files.home base) names)
  workingCopy {done approached} : Approached (.of base) options session (.ok done) approached →
    ((run (.of base) options).perform session).2.files.tree.node?
        (session.files.home base ++ [Utf8.encode workingCopyName]) =
      ((run (.of base) options).perform session').2.files.tree.node?
        (session.files.home base ++ [Utf8.encode workingCopyName])

/-- Builds for which the data directory has been prepared alike are alike. -/
theorem buildsAlike_of_furnish (hbackup : options.backup = false) {origin : FileSystem}
    (h : Unobstructed base session.files) (h' : Unobstructed base session'.files)
    (hcurrent : session.files.current = origin.current)
    (hcurrent' : session'.files.current = origin.current)
    (hfurnish : (furnish (.of base)).Alike origin (Prelude base origin) (started (.of base) session)
      (started (.of base) session')) :
    BuildsAlike base options session session' := by
  have hhome : session.files.home base = origin.home base := FileSystem.home_of_current hcurrent base
  have hhome' : session'.files.home base = origin.home base := FileSystem.home_of_current hcurrent' base
  have happroach := alike_approach hbackup h h' hcurrent hcurrent' hfurnish
  have hrun : ((run (.of base) options).perform session).1 = ((run (.of base) options).perform session').1 ∧
      ∀ done approached, Approached (.of base) options session (.ok done) approached →
        Session.Agree origin (Everything base origin) ((run (.of base) options).perform session).2
          ((run (.of base) options).perform session').2 := by
    rw [run_eq_approach_bind]
    cases happroach with
    | failed happroach happroach' =>
        rw [Action.perform_bind_of_error happroach, Action.perform_bind_of_error happroach']
        refine ⟨rfl, fun done approached hreached => ?_⟩
        cases happroach.symm.trans hreached.perform_approach
    | @done done approached approached' happroach happroach' hagree =>
        obtain ⟨hsettled, husable, houtput⟩ :=
          settled_of_approached hbackup h (approached_of_approach happroach)
        obtain ⟨hsettled', -, -⟩ := settled_of_approached hbackup h' (approached_of_approach happroach')
        rw [hhome] at hsettled houtput
        rw [hhome'] at hsettled'
        rw [Action.perform_bind_of_ok happroach, Action.perform_bind_of_ok happroach']
        obtain ⟨hresult, hafter⟩ := agree_of_rebuild options hagree hsettled hsettled' husable
          houtput done.1 done.2
        exact ⟨hresult, fun _ _ _ => hafter⟩
  refine ⟨hrun.1, fun hreached names => ?_, fun hreached => ?_⟩
  · exact (hrun.2 _ _ hreached).files.node?_eq (.inr ⟨names, by rw [hhome]⟩)
  · exact (hrun.2 _ _ hreached).files.node?_eq (.inl (.inr (by rw [hhome])))

/-- Two sessions give a build the same. -/
structure SameGiven (base : Path) (session session' : Session) : Prop where
  current : session'.files.current = session.files.current
  randomness : session'.randomness = session.randomness
  given {location : Location} : Given base session.files location →
    session'.files.tree.node? location = session.files.tree.node? location

theorem SameGiven.agree (h : SameGiven base session session') (hwf : session.files.WellFormed)
    (hfree : session.files.tree.LinkFree) :
    Session.Agree session.files (Given base session.files) session session' :=
  ⟨FileSystem.agree_of_wellFormed hwf hfree rfl h.current fun _ hgiven => (h.given hgiven).symm,
    h.randomness.symm⟩

theorem buildsAlike_of_sameGiven (hbackup : options.backup = false) (h : Unobstructed base session.files)
    (h' : Unobstructed base session'.files) (hsame : SameGiven base session session') :
    BuildsAlike base options session session' := by
  have hstart : Unobstructed base (started (.of base) session).files := h
  have hstart' : Unobstructed base (started (.of base) session').files := h'
  have hagree := hsame.agree h.wellFormed h.linkFree
  exact buildsAlike_of_furnish hbackup h h' rfl hsame.current
    (alike_furnish hstart hstart' ⟨hagree.files, hagree.randomness⟩)

end Build

end ServerPack
