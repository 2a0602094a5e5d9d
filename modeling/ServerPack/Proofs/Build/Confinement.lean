import ServerPack.Proofs.Build.Result

/-!
What a build leaves alone, whatever comes of it. Once a data directory is furnished, a build changes
the working copy of the settings, then the backups if it makes any, and then the output tree
(`progressed_of_approached`, `touched_of_rebuild`). Where the data directory was there before,
furnishing it adds only the skeleton and the bundled settings, so that the source tree keeps its
files and nothing outside the data directory's own parts changes (`confined_of_run`).
-/

namespace ServerPack.Build

open FileSystem (Grows Rooted)

variable {session prepared after : Session} {base : Path} {top : Location} {options : Options}

/-! After the data directory has been furnished. -/

/-- What a build has changed since then: the working copy, the backups if it makes any, and what
lies in a scope. -/
structure Progressed (options : Options) (now : Instant) (top : Location) (scope : Location → Prop)
    (files files' : FileSystem) : Prop where
  outside {location} : ¬scope location → location ≠ top ++ [Utf8.encode workingCopyName] →
    (∀ names, location ≠ top ++ Utf8.encode backupsName :: names) →
    files'.tree.node? location = files.tree.node? location
  unasked : options.backup = false → ∀ names, ¬scope (top ++ Utf8.encode backupsName :: names) →
    files'.tree.node? (top ++ Utf8.encode backupsName :: names) =
      files.tree.node? (top ++ Utf8.encode backupsName :: names)
  kept {names node} : ¬scope (top ++ Utf8.encode backupsName :: names) →
    top ++ Utf8.encode backupsName :: names ≠ archiveOf top sourceName now →
    top ++ Utf8.encode backupsName :: names ≠ archiveOf top outputName now →
    files.tree.node? (top ++ Utf8.encode backupsName :: names) = some node →
    files'.tree.node? (top ++ Utf8.encode backupsName :: names) = some node

theorem Progressed.refl (options : Options) (now : Instant) (top : Location)
    (scope : Location → Prop) (files : FileSystem) :
    Progressed options now top scope files files :=
    ⟨fun _ _ _ => rfl, fun _ _ _ => rfl, fun _ _ _ hnode => hnode⟩

/-- What comes later changes something in the scope only. -/
theorem Progressed.then {now : Instant} {scope : Location → Prop} {files between files' : FileSystem}
    (h : Progressed options now top (fun _ => False) files between)
    (hsame : ∀ {location}, ¬scope location → files'.tree.node? location = between.tree.node? location) :
    Progressed options now top scope files files' where
  outside hscope hcopy hbackups := (hsame hscope).trans (h.outside id hcopy hbackups)
  unasked hbackup names hscope := (hsame hscope).trans (h.unasked hbackup names id)
  kept hscope hsource houtput hnode := (hsame hscope).trans (h.kept id hsource houtput hnode)

theorem ne_archive_of_workingCopy (top : Location) (names : Location) :
    top ++ Utf8.encode backupsName :: names ≠ top ++ [Utf8.encode workingCopyName] :=
  ne_of_head_ne (by decide) _ _

/-- What the settings change. -/
theorem progressed_of_workingSettings {files files' : FileSystem} (now : Instant)
    (h : Grows (fun location => location = top ++ [Utf8.encode workingCopyName]) files files') :
    Progressed options now top (fun _ => False) files files' where
  outside _ hcopy _ := h.outside hcopy
  unasked _ names _ := h.outside (ne_archive_of_workingCopy top names)
  kept {names _} _ _ _ hnode := (h.outside (ne_archive_of_workingCopy top names)).trans hnode

/-- What archives change besides. -/
theorem Progressed.archived {files : FileSystem} {result : Except Failure (List Path)} {settled : Session}
    (h : Progressed options settled.now top (fun _ => False) files settled.files)
    (hroot : settled.files.Rooted base top) (hbackup : options.backup = true)
    (harchive : (archiveTrees (.of base)).perform settled = (result, after)) :
    Progressed options settled.now top (fun _ => False) files after.files where
  outside _ hcopy hbackups :=
    ((grows_archiveTrees hroot harchive).outside fun ⟨names, heq⟩ => hbackups names heq).trans
      (h.outside id hcopy hbackups)
  unasked hnone := nomatch hbackup.symm.trans hnone
  kept _ hsource houtput hnode := kept_of_archiveTrees hroot harchive hsource houtput
    (h.kept id hsource houtput hnode)

/-- The data directory after it has been furnished. -/
theorem rooted_of_started (hwf : session.files.WellFormed) (hfree : session.files.tree.LinkFree)
    {furnished : Session}
    (h : (furnish (.of base)).perform (started (.of base) session) = (.ok (), furnished)) :
    furnished.files.Rooted base (session.files.home base) := by
  have hstart : (started (.of base) session).files.WellFormed := hwf
  have hroot := rooted_of_furnish hstart hfree h
  exact hroot

/-- The data directory when the settings have been dealt with. -/
theorem progressed_of_settled (hwf : session.files.WellFormed) (hfree : session.files.tree.LinkFree)
    {furnished settled : Session} {result : Except Failure Settings.Document}
    (hfurnish : (furnish (.of base)).perform (started (.of base) session) = (.ok (), furnished))
    (hsettings : (workingSettings (.of base) options.writeMode).perform furnished = (result, settled)) :
    settled.now = session.now ∧ settled.files.Rooted base (session.files.home base) ∧
      Progressed options session.now (session.files.home base)
        (fun _ => False) furnished.files settled.files := by
  have hroot := rooted_of_started hwf hfree hfurnish
  have hgrows := grows_workingSettings hroot hsettings
  have hclock : (furnish (.of base)).Keeps Session.now := keeps_furnish (fun _ _ => rfl) _
  have hnow := hclock.view_eq hfurnish
  exact ⟨(now_of_workingSettings hroot hsettings).trans hnow, hgrows.rooted hroot,
    progressed_of_workingSettings _ hgrows⟩

/-- What a build has changed before it touches the output tree. -/
theorem progressed_of_approached {result : Except Failure (Settings.Document × List Path)}
    (hwf : session.files.WellFormed) (hfree : session.files.tree.LinkFree)
    (h : Approached (.of base) options session result after) :
    ∃ furnished : FileSystem, Furnished base session.files furnished ∧
      Progressed options session.now (session.files.home base) (fun _ => False) furnished after.files := by
  have hstart : (started (.of base) session).files.WellFormed := hwf
  have hfurnished : ∀ {result : Except Failure Unit} {furnished : Session},
      (furnish (.of base)).perform (started (.of base) session) = (result, furnished) →
      Furnished base session.files furnished.files :=
    furnished_of_furnish hstart hfree
  have harchived : ∀ {furnished settled : Session} {settings : Settings.Document}
      {result : Except Failure (List Path)},
      (furnish (.of base)).perform (started (.of base) session) = (.ok (), furnished) →
      (workingSettings (.of base) options.writeMode).perform furnished = (.ok settings, settled) →
      options.backup = true → (archiveTrees (.of base)).perform settled = (result, after) →
      Progressed options session.now (session.files.home base)
          (fun _ => False) furnished.files after.files := by
    intro furnished settled settings result hfurnish hsettings hbackup harchive
    obtain ⟨hnow, hroot, hprogressed⟩ := progressed_of_settled hwf hfree hfurnish hsettings
    rw [← hnow] at hprogressed ⊢
    exact hprogressed.archived hroot hbackup harchive
  cases h with
  | unfurnished hfurnish => exact ⟨_, hfurnished hfurnish, .refl _ _ _ _ _⟩
  | unsettled hfurnish hsettings =>
      exact ⟨_, hfurnished hfurnish, (progressed_of_settled hwf hfree hfurnish hsettings).2.2⟩
  | unarchived hfurnish hsettings hbackup harchive =>
      exact ⟨_, hfurnished hfurnish, harchived hfurnish hsettings hbackup harchive⟩
  | archived hfurnish hsettings hbackup harchive =>
      exact ⟨_, hfurnished hfurnish, harchived hfurnish hsettings hbackup harchive⟩
  | plain hfurnish hsettings =>
      exact ⟨_, hfurnished hfurnish, (progressed_of_settled hwf hfree hfurnish hsettings).2.2⟩

/-! The rest of a build. -/

/-- Placeholders are replaced in files of the output tree only. -/
theorem touched_of_finish {before : FileSystem} {staged : Staged} {selected : List Location}
    {mode : WriteMode} {result : Except Failure Report}
    (h : Prepared base top before prepared.files staged.files selected)
    (hfinish : (finish mode staged).perform prepared = (result, after)) :
    Touched top prepared.files after.files := by
  have houtcome := outcome_finish mode staged prepared
  rw [h.outcome_mapM, Action.outcome, hfinish] at houtcome
  rcases hfill : staged.settings.fillAll (selected.map fun names => contentAt before (sourceOf top names))
    prepared.randomness with ⟨filled, failure?, left⟩
  rw [hfill] at houtcome
  have hfiles : after.files =
      prepared.files.putFiles ((selected.map (outputOf top)).zip (filled.map Prod.snd)) := by
    cases failure? <;> exact congrArg (fun outcome => outcome.2.files) houtcome
  have hgrows := h.grows_putFiles (filled.map Prod.snd)
  rw [hfiles]
  refine ⟨hgrows.current, hgrows.tree h.rooted.tree, fun houtside => hgrows.outside ?_, fun names => ?_,
    hgrows.sustains.link.2⟩
  · rintro ⟨names, -, rfl⟩
    exact houtside ⟨names, List.append_assoc ..⟩
  · by_cases hnames : names ∈ selected
    · exact .inr (.inr (.inr ⟨_, (h.source names).trans (h.node?_source hnames)⟩))
    · refine .inl (hgrows.outside ?_)
      rintro ⟨other, hother, hplace⟩
      exact hnames (injective_outputOf top hplace ▸ hother)

/-- Once the output tree may be deleted, nothing else is touched any more. -/
theorem touched_of_rebuild {settings : Settings.Document} {backups : List Path}
    {result : Except Failure Report} (hroot : session.files.Rooted base top)
    (hsource : session.files.tree.node? (top ++ [Utf8.encode sourceName]) = some .directory)
    (h : (rebuild (.of base) options settings backups).perform session = (result, after)) :
    Touched top session.files after.files := by
  rcases Action.bind_cases h with ⟨failure, hrenew, -⟩ | ⟨_, renewed, hrenew, hrest⟩
  · exact touched_of_renewOutput hroot hrenew
  have hrenewed := touched_of_renewOutput hroot hrenew
  rcases Action.bind_cases hrest with ⟨failure, hselect, -⟩ | ⟨paths, listed, hselect, hfinish⟩
  · rwa [(reads_select _ _ _).files_eq hselect]
  · obtain ⟨selected, hprepared, -⟩ := prepared_of_select hroot hsource hrenew hselect
    have hlisted := (reads_select _ _ _).files_eq hselect
    rw [← hlisted] at hrenewed
    have hstaged : Prepared base top session.files listed.files
      (Staged.mk settings backups paths).files selected := hprepared
    exact hrenewed.trans (touched_of_finish hstaged hfinish)

/-- Before the output tree is touched, the data directory can be reached and has a source tree. -/
theorem rooted_of_approached (hwf : session.files.WellFormed) (hfree : session.files.tree.LinkFree)
    {done : Settings.Document × List Path} (h : Approached (.of base) options session (.ok done) after) :
    after.files.Rooted base (session.files.home base) ∧
      after.files.tree.node? (session.files.home base ++ [Utf8.encode sourceName]) = some .directory := by
  have hsettled : ∀ {furnished settled : Session} {settings : Settings.Document},
      (furnish (.of base)).perform (started (.of base) session) = (.ok (), furnished) →
      (workingSettings (.of base) options.writeMode).perform furnished = (.ok settings, settled) →
      settled.files.Rooted base (session.files.home base) ∧
        settled.files.tree.node? (session.files.home base ++ [Utf8.encode sourceName]) =
            some .directory := by
    intro furnished settled settings hfurnish hsettings
    have hroot := rooted_of_started hwf hfree hfurnish
    have hstart : (started (.of base) session).files.WellFormed := hwf
    have hsource := directory_of_furnish hstart hfurnish hroot List.mem_cons_self
    have hgrows := grows_workingSettings hroot hsettings
    exact ⟨hgrows.rooted hroot, hgrows.sustains.directory hsource⟩
  cases h with
  | archived hfurnish hsettings _ harchive =>
      obtain ⟨hroot, hsource⟩ := hsettled hfurnish hsettings
      have hgrows := grows_archiveTrees hroot harchive
      exact ⟨hgrows.rooted hroot, hgrows.sustains.directory hsource⟩
  | plain hfurnish hsettings => exact hsettled hfurnish hsettings

/-- What a build has changed in the end. -/
theorem progressed_of_run {result : Except Failure Report} (hwf : session.files.WellFormed)
    (hfree : session.files.tree.LinkFree)
    (h : (Build.run (.of base) options).perform session = (result, after)) :
    ∃ furnished : FileSystem, Furnished base session.files furnished ∧
      Progressed options session.now (session.files.home base)
        (session.files.home base ++ [Utf8.encode outputName] <+: ·) furnished after.files := by
  rw [run_eq_approach_bind] at h
  rcases Action.bind_cases h with ⟨failure, happroach, -⟩ | ⟨⟨settings, backups⟩, approached,
    happroach, hrebuild⟩
  · obtain ⟨furnished, hfurnished, hprogressed⟩ :=
      progressed_of_approached hwf hfree (approached_of_approach happroach)
    exact ⟨furnished, hfurnished, hprogressed.then fun _ => rfl⟩
  · have happroached := approached_of_approach happroach
    obtain ⟨furnished, hfurnished, hprogressed⟩ := progressed_of_approached hwf hfree happroached
    obtain ⟨hroot, hsource⟩ := rooted_of_approached hwf hfree happroached
    exact ⟨furnished, hfurnished, hprogressed.then (touched_of_rebuild hroot hsource hrebuild).outside⟩

/-! A data directory that was there. -/

/-- What a build may change: no file of the source tree, the settings only if there are none,
besides its own two archives no backup, and nothing outside the data directory's own parts. -/
structure Confined (options : Options) (now : Instant) (top : Location)
    (before after : FileSystem) : Prop where
  source (names : Location) : after.tree.node? (sourceOf top names) = before.tree.node?
    (sourceOf top names) ∨
    names ∈ skeletonNames ∧ before.tree.node? (sourceOf top names) = none ∧
      after.tree.node? (sourceOf top names) = some .directory
  settings (names : Location) : after.tree.node? (top ++ Utf8.encode settingsName :: names) =
      before.tree.node? (top ++ Utf8.encode settingsName :: names) ∨
    names = [] ∧ before.tree.node? (top ++ [Utf8.encode settingsName]) = none ∧
      after.tree.node? (top ++ [Utf8.encode settingsName]) = some
        (.file (.plain (Utf8.encode bundledSettings)))
  backups (names : Location) : options.backup = false →
    after.tree.node? (top ++ Utf8.encode backupsName :: names) =
    before.tree.node? (top ++ Utf8.encode backupsName :: names)
  archives {names : Location} {content : Content} :
    before.tree.node? (top ++ Utf8.encode backupsName :: names) = some (.file content) →
    top ++ Utf8.encode backupsName :: names ≠ archiveOf top sourceName now →
    top ++ Utf8.encode backupsName :: names ≠ archiveOf top outputName now →
    after.tree.node? (top ++ Utf8.encode backupsName :: names) = some (.file content)
  outside {location : Location} :
    (∀ name ∈ [sourceName, outputName, backupsName, settingsName, workingCopyName],
      ¬top ++ [Utf8.encode name] <+: location) →
    after.tree.node? location = before.tree.node? location

/-- To a data directory that was there only the skeleton and the bundled settings are added. -/
theorem Furnished.eq_or_added {files files' : FileSystem} (h : Furnished base files files')
    (hwf : files.WellFormed) (hfree : files.tree.LinkFree) (hdirectory : files.LeadsTo base top)
    (location : Location) :
    files'.tree.node? location = files.tree.node? location ∨ files.tree.node? location = none ∧
      ((∃ root ∈ [sourceName, outputName], ∃ names ∈ skeletonNames,
        location = top ++ Utf8.encode root :: names ∧
        files'.tree.node? location = some .directory) ∨
      location = top ++ [Utf8.encode settingsName] ∧
        files'.tree.node? location = some (.file (.plain (Utf8.encode bundledSettings)))) := by
  have htop := hdirectory.eq_home hfree
  refine (h.added location).imp_right fun ⟨hnone, node, hnode, haddition⟩ => ⟨hnone, ?_⟩
  cases haddition with
  | way hway => cases (hdirectory.directory_of_onWay hwf hfree hway).symm.trans hnone
  | skeleton hroot hnames => exact .inl ⟨_, hroot, _, hnames, htop ▸ rfl, hnode⟩
  | settings => exact .inr ⟨htop ▸ rfl, hnode⟩

/-- Whatever a build in a data directory returns, it has touched nothing but its own outputs. -/
theorem confined_of_run {result : Except Failure Report} (hwf : session.files.WellFormed)
    (hfree : session.files.tree.LinkFree) (hdirectory : session.files.LeadsTo base top)
    (h : (Build.run (.of base) options).perform session = (result, after)) :
    Confined options session.now top session.files after.files := by
  obtain ⟨furnished, hfurnished, hprogressed⟩ := progressed_of_run hwf hfree h
  rw [← hdirectory.eq_home hfree] at hprogressed
  have hadded := hfurnished.eq_or_added hwf hfree hdirectory
  have hother : ∀ {first second : Text}, Utf8.encode first ≠ Utf8.encode second → ∀ names,
      ¬top ++ [Utf8.encode second] <+: top ++ Utf8.encode first :: names :=
    fun hne names => FileTree.not_prefix_of_head_ne hne top names
  have hroots : ∀ other ∈ [settingsName, backupsName], ∀ root ∈ [sourceName, outputName],
      Utf8.encode other ≠ Utf8.encode root := by decide
  refine ⟨fun names => ?_, fun names => ?_, fun names hbackup => ?_,
    fun {names content} hfile hsource houtput => ?_, fun {location} houtside => ?_⟩
  · rw [hprogressed.outside (hother (by decide) names) (ne_of_head_ne (by decide) _ _) fun _ =>
      ne_of_head_ne (by decide) _ _]
    refine (hadded (sourceOf top names)).imp_right fun ⟨hnone, hnew⟩ => ?_
    rcases hnew with ⟨root, -, names', hnames, heq, hmade⟩ | ⟨heq, -⟩
    · obtain rfl : names = names' := (List.cons.inj (List.append_cancel_left heq)).2
      exact ⟨hnames, hnone, hmade⟩
    · exact absurd heq (ne_of_head_ne (by decide) _ _)
  · have hsame : ∀ names, after.files.tree.node? (top ++ Utf8.encode settingsName :: names) =
        furnished.tree.node? (top ++ Utf8.encode settingsName :: names) := fun names =>
      hprogressed.outside (hother (by decide) names) (ne_of_head_ne (by decide) _ _) fun _ =>
        ne_of_head_ne (by decide) _ _
    rw [hsame, hsame]
    refine (hadded _).imp_right fun ⟨hnone, hnew⟩ => ?_
    rcases hnew with ⟨root, hroot, names', -, heq, -⟩ | ⟨heq, hmade⟩
    · exact absurd heq (ne_of_head_ne (hroots _ (by simp) root hroot) _ _)
    · obtain rfl : names = [] := (List.cons.inj (List.append_cancel_left heq)).2
      exact ⟨rfl, hnone, hmade⟩
  · rw [hprogressed.unasked hbackup names (hother (by decide) names)]
    rcases hadded (top ++ Utf8.encode backupsName :: names) with hsame | ⟨-, hnew⟩
    · exact hsame
    rcases hnew with ⟨root, hroot, names', -, heq, -⟩ | ⟨heq, -⟩
    · exact absurd heq (ne_of_head_ne (hroots _ (by simp) root hroot) _ _)
    · exact absurd heq (ne_of_head_ne (by decide) _ _)
  · exact hprogressed.kept (hother (by decide) names) hsource houtput (hfurnished.node?_eq hfile)
  · have hne : ∀ name ∈ [sourceName, outputName, backupsName, settingsName, workingCopyName], ∀ names,
        location ≠ top ++ Utf8.encode name :: names := fun name hname names heq =>
      houtside name hname ⟨names, by rw [List.append_assoc]; exact heq.symm⟩
    rw [hprogressed.outside (houtside _ (by simp)) (hne _ (by simp) []) (hne _ (by simp))]
    rcases hadded location with hsame | ⟨-, hnew⟩
    · exact hsame
    rcases hnew with ⟨root, hroot, names, -, heq, -⟩ | ⟨heq, -⟩
    · exact absurd heq (hne root (List.mem_append_left
        [backupsName, settingsName, workingCopyName] hroot) names)
    · exact absurd heq (hne _ (by simp) [])

theorem confined_of_run_sample : ∃ result after,
    (Build.run (.of sampleBase) ⟨true, true, .once⟩).perform (sampleSession "b") = (result, after) ∧
      Confined ⟨true, true, .once⟩ ⟨0, 0, 0⟩ [Utf8.encode ['d']] (sampleSession "b").files after.files := by
  have hwf : (sampleSession "b").files.WellFormed := by decide +kernel
  have hfree : (sampleSession "b").files.tree.LinkFree := FileTree.node?_ne_link (by decide +kernel)
  have hdirectory : (sampleSession "b").files.LeadsTo sampleBase [Utf8.encode ['d']] := by decide +kernel
  rcases hrun : (Build.run (.of sampleBase) ⟨true, true, .once⟩).perform
    (sampleSession "b") with ⟨result, after⟩
  exact ⟨result, after, rfl, confined_of_run hwf hfree hdirectory hrun⟩

end ServerPack.Build
