import ServerPack.Proofs.Build.KeptOutput
import ServerPack.Proofs.Build.SharedRebuild

/-!
A build after other builds. What an earlier build leaves, whatever came of it, gives the next one
the same as what it had prepared (`leaves_of_run`), and a data directory that has been prepared does
not change when it is prepared again (`furnish_again`); what could not be prepared in a data
directory that is there cannot be prepared again either (`furnish_fails_again`). So a build does
what it would have done the first time (`buildsAlike_of_leftovers`). The way of the data directory
is left out of this: what is left there decides where the data directory is (`leftovers_on_way`).
-/

namespace ServerPack

open FileSystem (Gains Grows LeadsTo Rooted)

namespace Build

open FileTree (destination trimmed)
open Files (Open)

variable {session furnished approached after : Session} {base : Path} {top : Location}
  {options earlier : Options}

/-! What a build leaves. -/

theorem open_of_furnished {files files' : FileSystem} (h : Furnished base files files') {names : Location}
    (hopen : Open files (outputOf (files.home base) names)) :
    Open files' (outputOf (files.home base) names) := by
  rcases h.added (outputOf (files.home base) names) with hsame | ⟨-, node, hnode, haddition⟩
  · rwa [Open, hsame]
  · refine .inr ?_
    generalize hlocation : outputOf (files.home base) names = location at hnode haddition
    cases haddition with
    | way => exact hnode
    | skeleton => exact hnode
    | settings => exact absurd hlocation (ne_of_head_ne (by decide) _ _)

/-- What has been furnished is unobstructed still. -/
theorem Unobstructed.of_furnished {files files' : FileSystem} (h : Unobstructed base files)
    (hfurnished : Furnished base files files') : Unobstructed base files' where
  wellFormed := hfurnished.grows.wellFormed h.wellFormed
  linkFree := hfurnished.grows.linkFree h.linkFree
  output hnames := by
    rw [FileSystem.home_of_current hfurnished.grows.current]
    exact open_of_furnished hfurnished (h.output hnames)
  workingCopy := receptive_of_furnished h.workingCopy hfurnished

/-- The working copy is what it was, or a file. -/
def Rewritten (top : Location) (files files' : FileSystem) : Prop :=
  files'.tree.node? (top ++ [Utf8.encode workingCopyName]) = files.tree.node?
    (top ++ [Utf8.encode workingCopyName]) ∨
    ∃ content, files'.tree.node? (top ++ [Utf8.encode workingCopyName]) = some (.file content)

/-- What a build may have changed before it comes to the output tree: the working copy and the
backups. -/
structure Resettled (top : Location) (files files' : FileSystem) : Prop where
  grows : Grows (fun location => location = top ++ [Utf8.encode workingCopyName] ∨
    ∃ names, location = top ++ Utf8.encode backupsName :: names) files files'
  rewritten : Rewritten top files files'

theorem Resettled.unchanged {files files' : FileSystem} (h : Resettled top files files')
    {first : Name} (names : Location) (hcopy : first ≠ Utf8.encode workingCopyName)
    (hbackups : first ≠ Utf8.encode backupsName) :
    files'.tree.node? (top ++ first :: names) = files.tree.node? (top ++ first :: names) := by
  refine h.grows.outside ?_
  rintro (heq | ⟨more, heq⟩)
  · exact ne_of_head_ne hcopy _ _ heq
  · exact ne_of_head_ne hbackups _ _ heq

theorem resettled_of_workingSettings (hroot : session.files.Rooted base top) {mode : WriteMode}
    {result : Except Failure Settings.Document}
    (h : (workingSettings (.of base) mode).perform session = (result, after)) :
    Resettled top session.files after.files := by
  refine ⟨(grows_workingSettings hroot h).mono fun _ => .inl, ?_⟩
  rcases files_of_workingSettings hroot h with hsame | ⟨content, -, hput⟩
  · exact .inl (by rw [hsame])
  · exact .inr ⟨content, by rw [hput, FileSystem.node?_put_self (by simp)]⟩

theorem Resettled.archiveTrees {files : FileSystem} (h : Resettled top files session.files)
    (hroot : session.files.Rooted base top) {result : Except Failure (List Path)}
    (harchive : (archiveTrees (.of base)).perform session = (result, after)) :
    Resettled top files after.files := by
  have harchives := grows_archiveTrees hroot harchive
  refine ⟨h.grows.trans (harchives.mono fun _ => .inr), ?_⟩
  rw [Rewritten, harchives.outside fun ⟨names, heq⟩ => ne_archive_of_workingCopy top names heq.symm]
  exact h.rewritten

theorem resettled_of_approached (hroot : furnished.files.Rooted base top)
    (hfurnish : (furnish (.of base)).perform (started (.of base) session) = (.ok (), furnished))
    {result : Except Failure (Settings.Document × List Path)}
    (h : Approached (.of base) options session result after) :
    Resettled top furnished.files after.files := by
  cases h with
  | unfurnished hfailed => cases hfurnish.symm.trans hfailed
  | unsettled hfurnish' hsettings =>
      cases hfurnish.symm.trans hfurnish'
      exact resettled_of_workingSettings hroot hsettings
  | unarchived hfurnish' hsettings _ harchive =>
      cases hfurnish.symm.trans hfurnish'
      have hsettled := resettled_of_workingSettings hroot hsettings
      exact hsettled.archiveTrees (hsettled.grows.rooted hroot) harchive
  | archived hfurnish' hsettings _ harchive =>
      cases hfurnish.symm.trans hfurnish'
      have hsettled := resettled_of_workingSettings hroot hsettings
      exact hsettled.archiveTrees (hsettled.grows.rooted hroot) harchive
  | plain hfurnish' hsettings =>
      cases hfurnish.symm.trans hfurnish'
      exact resettled_of_workingSettings hroot hsettings

/-- Whatever comes of a build, behind the working copy and the backups it has touched the output
tree only. -/
theorem exists_resettled_of_run (h : Unobstructed base session.files)
    (hfurnish : (furnish (.of base)).perform (started (.of base) session) = (.ok (), furnished))
    (hroot : furnished.files.Rooted base top) {result : Except Failure Report}
    (htop : top = session.files.home base)
    (hrun : (run (.of base) earlier).perform session = (result, after)) :
    ∃ approached, Resettled top furnished.files approached ∧ Touched top approached after.files := by
  subst htop
  rw [run_eq_approach_bind] at hrun
  rcases Action.bind_cases hrun with ⟨failure, happroach, -⟩ | ⟨done, approached, happroach, hrebuild⟩
  · have hresettled := resettled_of_approached hroot hfurnish (approached_of_approach happroach)
    exact ⟨_, hresettled, .refl (hresettled.grows.tree hroot.tree)⟩
  · have happroached := approached_of_approach happroach
    obtain ⟨hroot', hsource⟩ := rooted_of_approached h.wellFormed h.linkFree happroached
    exact ⟨_, resettled_of_approached hroot hfurnish happroached,
      touched_of_rebuild hroot' hsource hrebuild⟩

/-- The directories of the source tree are there when the data directory has been furnished. -/
theorem directory_of_skeleton (hwf : session.files.WellFormed)
    (hfurnish : (furnish (.of base)).perform session = (.ok (), furnished))
    (hroot : furnished.files.Rooted base top) {names : Location} (hnames : names ∈ skeletonNames) :
    furnished.files.tree.node? (sourceOf top names) = some .directory := by
  rcases List.mem_cons.1 hnames with rfl | hnames
  · exact directory_of_furnish hwf hfurnish hroot List.mem_cons_self
  · obtain ⟨leaf, hleaf, rfl⟩ := List.mem_map.1
      (show names ∈ ["files".toList, "servers".toList].map fun leaf : Text =>
        [Utf8.encode leaf] from hnames)
    obtain ⟨_, hleads⟩ := exists_leadsTo_of_furnish hwf hfurnish
      (mem_skeleton_iff.2 ⟨_, List.mem_cons_self, leaf, hleaf, rfl⟩)
    exact FileSystem.directory_of_leadsTo hroot (within_skeleton base List.mem_cons_self hleaf)
      (by simp) hleads

/-- Neither the current directory nor the way of the data directory is in the output tree. -/
def OutsideOutput (base : Path) (files : FileSystem) : Prop :=
  ∀ location, files.OnWay base location ∨ location = files.current →
    ¬files.home base ++ [Utf8.encode outputName] <+: location

/-- What a build leaves, whatever it has come to, is unobstructed and gives the next one the
same. -/
structure Leaves (base : Path) (files files' : FileSystem) : Prop where
  unobstructed : Unobstructed base files'
  current : files'.current = files.current
  given {location : Location} : Given base files location →
    files'.tree.node? location = files.tree.node? location

/-- Beside the output tree only the working copy and the backups have changed, which the next build
makes anew. -/
theorem leaves_of_touched {files approached files' : FileSystem} (h : Unobstructed base files)
    (hsettled : Settled base (files.home base) files) (houtside : OutsideOutput base files)
    (hskeleton : ∀ names ∈ skeletonNames, files.tree.node? (sourceOf (files.home base) names) =
      some .directory)
    (hresettled : Resettled (files.home base) files approached)
    (htouched : Touched (files.home base) approached files') :
    Leaves base files files' := by
  have hcurrent := htouched.current.trans hresettled.grows.current
  have hhome := FileSystem.home_of_current hcurrent base
  have hbeside : ∀ {first : Name} (names : Location), first ≠ Utf8.encode outputName →
      files'.tree.node? (files.home base ++ first :: names) = approached.tree.node?
          (files.home base ++ first :: names) :=
    fun names hne => htouched.outside (FileTree.not_prefix_of_head_ne hne _ names)
  refine ⟨⟨⟨htouched.tree, ?_⟩, ?_, ?_, ?_⟩, hcurrent, ?_⟩
  · rw [hcurrent, htouched.outside (houtside _ (.inr rfl))]
    exact hresettled.grows.sustains.directory h.wellFormed.current
  · exact fun location aim hlink => hresettled.grows.linkFree h.linkFree location aim (htouched.link hlink)
  · intro names hnames
    rw [hhome]
    rcases htouched.node names with hsame | hnone | hdirectory | ⟨content, hfile⟩
    · rw [Open, hsame, hresettled.unchanged names (by decide) (by decide)]
      exact h.output hnames
    · exact .inl hnone
    · exact .inr hdirectory
    · cases (hresettled.grows.sustains.directory (hskeleton names hnames)).symm.trans hfile
  · rw [Receptive, hhome, FileSystem.onWay_of_current hcurrent, hbeside [] (by decide)]
    refine h.workingCopy.imp_right fun hnode => ?_
    rcases hresettled.rewritten with hsame | hfile
    · rwa [hsame]
    · exact .inr hfile
  · rintro location (hway | ⟨names, rfl⟩ | rfl)
    · have hdirectory := hsettled.leads.directory_of_onWay hsettled.wellFormed hsettled.linkFree hway
      rw [htouched.outside (houtside location (.inl hway)), hdirectory,
        hresettled.grows.sustains.directory hdirectory]
    · exact (hbeside names (by decide)).trans (hresettled.unchanged names (by decide) (by decide))
    · exact (hbeside [] (by decide)).trans (hresettled.unchanged [] (by decide) (by decide))

theorem leaves_of_run (h : Unobstructed base session.files) (houtside : OutsideOutput base session.files)
    (hfurnish : (furnish (.of base)).perform (started (.of base) session) = (.ok (), furnished))
    {result : Except Failure Report} (hrun : (run (.of base) earlier).perform session = (result, after)) :
    Leaves base furnished.files after.files := by
  have hstart : Unobstructed base (started (.of base) session).files := h
  have hfurnished := furnished_of_furnish hstart.wellFormed hstart.linkFree hfurnish
  have hcurrent : furnished.files.current = session.files.current := hfurnished.grows.current
  have hhome : furnished.files.home base = session.files.home base :=
    FileSystem.home_of_current hcurrent base
  have hsettled := settled_of_furnish hstart hfurnish
  rw [show (started (.of base) session).files.home base =
    furnished.files.home base from hhome.symm] at hsettled
  obtain ⟨approached, hresettled, htouched⟩ := exists_resettled_of_run h hfurnish hsettled.rooted hhome hrun
  refine leaves_of_touched (hstart.of_furnished hfurnished) hsettled ?_
    (fun names hnames => directory_of_skeleton hstart.wellFormed hfurnish hsettled.rooted hnames)
      hresettled htouched
  rw [OutsideOutput, hhome, hcurrent, FileSystem.onWay_of_current hcurrent]
  exact houtside

/-! Preparing a data directory again. -/

theorem perform_createDirectory_of_leadsTo {path : Path} {location : Location}
    (hleads : session.files.LeadsTo path location) (husable : path.Usable) :
    (Files.createDirectory path).perform session = (.ok (), session) := by
  have hdirectory : session.files.isDirectory path = true :=
    FileSystem.isDirectory_iff.2 ⟨location, hleads.lookup husable⟩
  rw [Files.createDirectory, Action.perform_bind_of_ok (Action.perform_ask _ session), hdirectory]
  rfl

theorem perform_createDirectories_of_leadsTo {paths : List Path}
    (h : ∀ path ∈ paths, path.Usable ∧ ∃ location, session.files.LeadsTo path location) :
    (paths.forM Files.createDirectory).perform session = (.ok (), session) := by
  induction paths with
  | nil => rfl
  | cons path paths ih =>
      obtain ⟨husable, location, hleads⟩ := h path List.mem_cons_self
      exact (Action.perform_bind_of_ok (perform_createDirectory_of_leadsTo hleads husable)).trans
        (ih fun other hother => h other (List.mem_cons_of_mem _ hother))

/-- The bundled settings are there once they have been provided. -/
theorem pathExists_of_provideBundled
    (h : (provideBundled settingsName base).perform session = (.ok (), after)) :
    after.files.pathExists (Layout.place base settingsName) = true := by
  rw [provideBundled, Action.perform_bind_of_ok (Action.perform_ask _ session)] at h
  cases hexists : session.files.pathExists (Layout.place base settingsName) with
  | true =>
      rw [hexists] at h
      cases h
      exact hexists
  | false =>
      rw [hexists] at h
      obtain ⟨_, written, hwrite, hlog⟩ := Action.bind_eq_ok_iff.1 h
      cases hlog
      obtain ⟨_, between, -, ⟨⟨_, hfailed⟩, -⟩ | ⟨-, hfiles, -⟩⟩ := Files.files_of_writeText hwrite
      · cases hfailed
      · obtain ⟨location, -, -, -, hholds⟩ := FileSystem.holdsFile_of_writeContent hfiles
        exact congrArg Except.isOk hholds

/-- A data directory that has been prepared is prepared already. -/
theorem furnish_again (hwf : session.files.WellFormed)
    (h : (furnish (.of base)).perform session = (.ok (), after)) {again : Session}
    (hfiles : again.files = after.files) :
    ∃ again', (furnish (.of base)).perform again = (.ok (), again') ∧ again'.files = after.files ∧
      again'.randomness = again.randomness := by
  obtain ⟨_, made, hmade, hbundled⟩ := Action.bind_eq_ok_iff.1 h
  have hgrows := grows_provideBundled ((gains_createDirectories hwf hmade).wellFormed hwf) hbundled
  have hskeleton := perform_createDirectories_of_leadsTo fun path hpath =>
    have ⟨husable, location, hleads⟩ := exists_leadsTo_of_skeleton hwf hmade hpath
    (⟨husable, location, hfiles ▸ hgrows.leadsTo hleads⟩ : path.Usable ∧
      ∃ location, again.files.LeadsTo path location)
  have hexists : again.files.pathExists (Layout.place base settingsName) = true :=
    hfiles ▸ pathExists_of_provideBundled hbundled
  have hagain : (provideBundled settingsName base).perform again =
      (Action.log .info (String.ofList settingsName ++ " file already exists.")).perform again := by
    rw [provideBundled, Action.perform_bind_of_ok (Action.perform_ask _ again), hexists, if_pos rfl]
  exact ⟨_, (Action.perform_bind_of_ok hskeleton).trans hagain, hfiles, rfl⟩

/-- What an action has come to without a change to the files, it comes to again. -/
theorem fails_again {action : Action Unit} (haction : action.GoesBy session.files fun _ => True)
    (hwf : session.files.WellFormed) (hfree : session.files.tree.LinkFree) {again : Session}
    (hfiles : again.files = session.files) (hrandomness : again.randomness = session.randomness)
    {failure : Failure} (hfailed : action.perform session = (.error failure, after)) :
    ∃ again', action.perform again = (.error failure, again') := by
  have hagree : Session.Agree session.files (fun _ => True) session again :=
    ⟨FileSystem.agree_of_wellFormed hwf hfree rfl
      (by rw [hfiles]) fun _ _ => by rw [hfiles], hrandomness.symm⟩
  obtain ⟨again', hagain, -⟩ := haction.exists_perform hagree hfailed
  exact ⟨again', hagain⟩

/-- In a data directory that is there, a directory that cannot be made cannot be made again. -/
theorem createDirectories_fail_again {paths : List Path} (h : Settled base top session.files)
    (hpaths : ∀ path ∈ paths, path ∈ (Layout.of base).skeleton) {failure : Failure}
    (hfailed : (paths.forM Files.createDirectory).perform session = (.error failure, after))
    {again : Session} (hfiles : again.files = after.files)
    (hrandomness : again.randomness = session.randomness) :
    ∃ again', (paths.forM Files.createDirectory).perform again = (.error failure, again') := by
  have hshort : ∀ text ∈ [sourceName, outputName, "files".toList, "servers".toList],
      (Utf8.encode text).length ≤ Path.maxNameLength := by decide
  have hplain : ∀ leaf ∈ ["files".toList, "servers".toList], Path.Plain (Utf8.encode leaf) := by decide
  induction paths generalizing session with
  | nil => cases hfailed
  | cons path paths ih =>
      obtain ⟨root, hroot, leaf, hleaf, rfl⟩ := mem_skeleton_iff.1 (hpaths _ List.mem_cons_self)
      rcases Action.bind_cases hfailed with ⟨failure', hfirst, heq⟩ | ⟨_, between, hfirst, hrest⟩
      · cases heq
        have hsame := Files.files_eq_of_createDirectory h.wellFormed h.rooted h.linkFree (plain_root hroot)
          (hplain leaf hleaf) (hshort root (List.mem_append_left ["files".toList, "servers".toList] hroot))
          (hshort leaf (List.mem_append_right [sourceName, outputName] hleaf)) hfirst
        have hgoes : (Files.createDirectory (Layout.place (Layout.place base root) leaf)).GoesBy
          session.files fun _ => True := Files.goesBy_createDirectory fun _ _ => trivial
        obtain ⟨again', hagain⟩ := fails_again hgoes h.wellFormed h.linkFree
          (hfiles.trans hsame) hrandomness hfirst
        exact ⟨again', Action.perform_bind_of_error hagain⟩
      · have hbetween := Files.gains_createDirectory h.wellFormed hfirst
        have hsettled := h.grows hbetween.toGrows
        obtain ⟨husable, location, hleads⟩ := Files.exists_leadsTo_of_createDirectory hfirst
          ((Layout.place base root).child_bytes_ne_nil (hplain leaf hleaf))
        have hleads' : again.files.LeadsTo _ location :=
          hfiles ▸ (gains_createDirectories hsettled.wellFormed hrest).leadsTo hleads
        have hkept : between.randomness = session.randomness :=
          (Files.frugal_createDirectory _).randomness_eq hfirst
        obtain ⟨again', hagain⟩ := ih hsettled
          (fun path hpath => hpaths path (List.mem_cons_of_mem _ hpath)) hrest
          (hrandomness.trans hkept.symm)
        exact ⟨again', (Action.perform_bind_of_ok
          (perform_createDirectory_of_leadsTo hleads' husable)).trans hagain⟩

/-- When the bundled settings cannot be provided, nothing has changed. -/
theorem files_eq_of_provideBundled (hroot : session.files.Rooted base top) {failure : Failure}
    (h : (provideBundled settingsName base).perform session = (.error failure, after)) :
    after.files = session.files := by
  have hplain : Path.Plain (Utf8.encode settingsName) := ⟨by decide, by decide, by decide, by decide⟩
  have hwithin : Path.Within base ([] ++ [Utf8.encode settingsName]) (Layout.place base settingsName) :=
    Path.within_child base hplain
  have hdirectory : session.files.tree.node? (top ++ []) = some .directory := by
    rw [List.append_nil]
    exact hroot.linkless.directory
  rw [provideBundled, Action.perform_bind_of_ok (Action.perform_ask _ session)] at h
  cases hexists : session.files.pathExists (Layout.place base settingsName) with
  | true =>
      rw [hexists] at h
      cases h
  | false =>
      rw [hexists] at h
      rcases Action.bind_cases h with ⟨failure', hwrite, -⟩ | ⟨_, written, -, hlog⟩
      · rcases Files.writeText_within hroot hwithin hdirectory hwrite with ⟨-, rfl⟩ | ⟨hdone, -⟩
        · rfl
        · cases hdone
      · cases hlog

/-- In a data directory that is there, what cannot be prepared cannot be prepared again. -/
theorem furnish_fails_again (h : Settled base top session.files) {failure : Failure}
    (hfailed : (furnish (.of base)).perform session = (.error failure, after)) {again : Session}
    (hfiles : again.files = after.files) (hrandomness : again.randomness = session.randomness) :
    ∃ again', (furnish (.of base)).perform again = (.error failure, again') := by
  rcases Action.bind_cases hfailed with ⟨failure', hdirectories, heq⟩ | ⟨_, made, hmade, hbundled⟩
  · cases heq
    obtain ⟨again', hagain⟩ := createDirectories_fail_again h
      (fun _ hpath => hpath) hdirectories hfiles hrandomness
    exact ⟨again', Action.perform_bind_of_error hagain⟩
  have hgains := gains_createDirectories h.wellFormed hmade
  have hsettled := h.grows hgains.toGrows
  have hsame := files_eq_of_provideBundled hsettled.rooted hbundled
  have hskeleton := perform_createDirectories_of_leadsTo fun path hpath =>
    have ⟨husable, location, hleads⟩ := exists_leadsTo_of_skeleton h.wellFormed hmade hpath
    (⟨husable, location, (hfiles.trans hsame) ▸ hleads⟩ : path.Usable ∧
      ∃ location, again.files.LeadsTo path location)
  have hkept : made.randomness = session.randomness := by
    have hfrugal : ((Layout.of base).skeleton.forM Files.createDirectory).Frugal :=
      .forM fun path _ => Files.frugal_createDirectory path
    exact hfrugal.randomness_eq hmade
  have hgoes : (provideBundled settingsName base).GoesBy made.files fun _ => True :=
    goesBy_provideBundled fun _ _ => trivial
  obtain ⟨again', hagain⟩ := fails_again hgoes hsettled.wellFormed hsettled.linkFree (hfiles.trans hsame)
    (hrandomness.trans hkept.symm) hbundled
  exact ⟨again', (Action.perform_bind_of_ok hskeleton).trans hagain⟩

/-! Building again. -/

/-- A build that could be prepared does the same again after an earlier one. -/
theorem buildsAlike_of_furnished (hbackup : options.backup = false) (h : Unobstructed base session.files)
    (houtside : OutsideOutput base session.files)
    (hfurnish : (furnish (.of base)).perform (started (.of base) session) = (.ok (), furnished))
    {result : Except Failure Report}
    (hrun : (run (.of base) earlier).perform session = (result, after)) {again : Session}
    (hfiles : again.files = after.files) (hrandomness : again.randomness = session.randomness) :
    BuildsAlike base options session again := by
  have hstart : Unobstructed base (started (.of base) session).files := h
  have hfurnished := furnished_of_furnish hstart.wellFormed hstart.linkFree hfurnish
  have hleaves := leaves_of_run h houtside hfurnish hrun
  have hready : Unobstructed base (started (.of base) furnished).files := hstart.of_furnished hfurnished
  have hunchanged : (started (.of base) furnished).files = furnished.files := rfl
  have hready' : Unobstructed base (started (.of base) again).files := by
    rw [show (started (.of base) again).files = after.files from hfiles]
    exact hleaves.unobstructed
  have hcurrent : again.files.current = furnished.files.current := hfiles ▸ hleaves.current
  have hdrawn := (frugal_furnish _).randomness_eq hfurnish
  -- What has been furnished and what the earlier build has left are furnished alike, and the former
  -- does not change by it.
  have hagree : Session.Agree furnished.files (Given base furnished.files) (started (.of base) furnished)
      (started (.of base) again) :=
    ⟨FileSystem.agree_of_wellFormed hready.wellFormed hready.linkFree rfl hcurrent fun _ hgiven =>
      (hfiles ▸ hleaves.given hgiven : again.files.tree.node? _ = _).symm, hdrawn.trans hrandomness.symm⟩
  have halike := alike_furnish hready hready' hagree
  obtain ⟨refurnished, hrefurnish, hsame, hkept⟩ :=
    furnish_again hstart.wellFormed hfurnish hunchanged
  cases halike with
  | failed hfailed => cases hrefurnish.symm.trans hfailed
  | done hfirst hagain hafter =>
      cases hrefurnish.symm.trans hfirst
      have hdone := Action.Alike.done hfurnish hagain
        ⟨hsame ▸ hafter.files, (show refurnished.randomness = furnished.randomness from hkept) ▸
          hafter.randomness⟩
      exact buildsAlike_of_furnish hbackup h hready' hfurnished.grows.current.symm hcurrent hdone

/-- A build that could not be prepared in a data directory that is there cannot be prepared
again. -/
theorem buildsAlike_of_unfurnished (h : Unobstructed base session.files)
    (hleads : session.files.LeadsTo base top) {failure : Failure}
    (hfailed : (furnish (.of base)).perform (started (.of base) session) =
      (.error failure, furnished)) {result : Except Failure Report}
        (hrun : (run (.of base) earlier).perform session = (result, after)) {again : Session}
    (hfiles : again.files = after.files) (hrandomness : again.randomness = session.randomness) :
    BuildsAlike base options session again := by
  obtain ⟨-, rfl⟩ := Prod.mk.inj (hrun.symm.trans (run_of_approached (.unfurnished hfailed)))
  have hsettled : Settled base top (started (.of base) session).files := ⟨h.wellFormed, h.linkFree, hleads⟩
  have hfiles' : (started (.of base) again).files = after.files := hfiles
  have hrandomness' : (started (.of base) again).randomness =
    (started (.of base) session).randomness := hrandomness
  obtain ⟨again', hagain⟩ := furnish_fails_again hsettled hfailed hfiles' hrandomness'
  have hunreached : ∀ {done approached}, ¬Approached (.of base) options session (.ok done) approached := by
    intro done approached hreached
    have hstopped : Approached (.of base) options session (.error failure) _ := .unfurnished hfailed
    cases hreached.perform_approach.symm.trans hstopped.perform_approach
  refine ⟨?_, fun hreached => absurd hreached hunreached, fun hreached => absurd hreached hunreached⟩
  rw [run_of_approached (.unfurnished hfailed), run_of_approached (.unfurnished hagain)]

/-- Builds without backups do the same whatever earlier ones may have left: in two sessions that
agree on the way of the data directory, on the source tree and on the settings, whatever else there
is; and in a session in which a build has been run before, whatever came of it, if the data
directory was there or that build could prepare it. -/
theorem buildsAlike_of_leftovers (hbackup : options.backup = false) (h : Unobstructed base session.files) :
    (∀ session', Unobstructed base session'.files → SameGiven base session session' →
      BuildsAlike base options session session') ∧
    ∀ earlier result after, (run (.of base) earlier).perform session = (result, after) →
    OutsideOutput base session.files →
      ((∃ top, session.files.LeadsTo base top) ∨
        ∃ furnished, (furnish (.of base)).perform (started (.of base) session) = (.ok (), furnished)) →
      ∀ again : Session, again.files = after.files → again.randomness = session.randomness →
        BuildsAlike base options session again := by
  refine ⟨fun session' => buildsAlike_of_sameGiven hbackup h,
    fun earlier result after hrun houtside hprepared again hfiles hrandomness => ?_⟩
  rcases hfurnish : (furnish (.of base)).perform (started (.of base) session) with ⟨failure | _, furnished⟩
  · rcases hprepared with ⟨top, hleads⟩ | ⟨furnished', hdone⟩
    · exact buildsAlike_of_unfurnished h hleads hfurnish hrun hfiles hrandomness
    · cases hfurnish.symm.trans hdone
  · exact buildsAlike_of_furnished hbackup h houtside hfurnish hrun hfiles hrandomness

/-- What is put where a build does not go by leaves what the build is given. -/
theorem SameGiven.put {session' : Session} (h : SameGiven base session session') {location : Location}
    (hlocation : ¬Given base session.files location) (hne : location ≠ []) (node : Node) :
    SameGiven base session { session' with files := session'.files.put location node } where
  current := h.current
  randomness := h.randomness
  given {other} hgiven := by
    have hother : other ≠ location := fun heq => hlocation (heq ▸ hgiven)
    exact (FileSystem.node?_put hne node other).trans ((if_neg hother).trans (h.given hgiven))

/-- The sample after some build: with an output tree, backups and a working copy. -/
def leftoverSession : Session :=
  let name (text : String) : Name := Utf8.encode text.toList
  let files := (sampleSession "b").files
    |>.put [name "d", name "built"] .directory
    |>.put [name "d", name "built", name "old"] (.file (.plain [0xff]))
    |>.put [name "d", name "backup"] .directory
    |>.put [name "d", name "build.setting.resolved.json"] (.file (.plain []))
  { sampleSession "b" with files }

theorem buildsAlike_of_leftovers_sample : ∃ result after,
    (run (.of sampleBase) ⟨true, true, .once⟩).perform (sampleSession "b") = (result, after) ∧
      BuildsAlike sampleBase ⟨false, true, .once⟩ (sampleSession "b") leftoverSession ∧
      BuildsAlike sampleBase ⟨false, true, .once⟩ (sampleSession "b")
        { after with randomness := (sampleSession "b").randomness } := by
  have hunobstructed : Unobstructed sampleBase (sampleSession "b").files :=
    ⟨by decide +kernel, FileTree.node?_ne_link (by decide +kernel), @(by decide +kernel),
      .inr (.inl (by decide +kernel))⟩
  have hleftover : Unobstructed sampleBase leftoverSession.files :=
    ⟨by decide +kernel, FileTree.node?_ne_link (by decide +kernel), @(by decide +kernel),
      .inr (.inr ⟨.plain [], by decide +kernel⟩)⟩
  have hway : ∀ location, (sampleSession "b").files.OnWay sampleBase location → location.length ≤ 1 := by
    rintro _ ⟨front, hfront, rfl⟩
    have hnames : trimmed sampleBase.names = [Utf8.encode ['d']] := by decide +kernel
    rw [hnames] at hfront
    rcases List.prefix_cons_iff.1 hfront with rfl | ⟨more, rfl, hmore⟩
    · exact Nat.zero_le 1
    · rw [List.prefix_nil.1 hmore]
      decide +kernel
  have hgiven : ∀ {name names}, name ≠ Utf8.encode sourceName → name ≠ Utf8.encode settingsName →
      ¬Given sampleBase (sampleSession "b").files (Utf8.encode ['d'] :: name :: names) := by
    rintro name names hsource hsettings (hplace | ⟨more, heq⟩ | heq)
    · exact absurd (hway _ hplace) (by simp)
    · exact hsource (List.cons.inj (List.cons.inj heq).2).1
    · exact hsettings (List.cons.inj (List.cons.inj heq).2).1
  have hsame : SameGiven sampleBase (sampleSession "b") leftoverSession :=
    ((((⟨rfl, rfl, fun _ => rfl⟩ : SameGiven sampleBase (sampleSession "b") (sampleSession "b")).put
      (hgiven (by decide) (by decide)) (by simp) _).put (hgiven (by decide) (by decide)) (by simp) _).put
      (hgiven (by decide) (by decide)) (by simp) _).put (hgiven (by decide) (by decide)) (by simp) _
  have houtside : OutsideOutput sampleBase (sampleSession "b").files := by
    rintro location (hplace | rfl) hbegins
    · exact absurd (hbegins.length_le.trans (hway _ hplace)) (by decide +kernel)
    · exact absurd hbegins (by decide +kernel)
  have hbackup : (⟨false, true, .once⟩ : Options).backup = false := rfl
  obtain ⟨halike, hagain⟩ := buildsAlike_of_leftovers hbackup hunobstructed
  rcases hrun : (run (.of sampleBase) ⟨true, true, .once⟩).perform (sampleSession "b") with ⟨result, after⟩
  have hleads : (sampleSession "b").files.LeadsTo sampleBase [Utf8.encode ['d']] := by decide +kernel
  exact ⟨result, after, rfl, halike _ hleftover hsame, hagain _ _ _ hrun houtside
    (.inl ⟨_, hleads⟩) _ rfl rfl⟩

/-- A session with something in the backups of one directory and a file where another one is
wanted. -/
def awkwardSession (node : Node) : Session :=
  let name (text : String) : Name := Utf8.encode text.toList
  { sampleSession "b" with
    files := FileSystem.put ⟨.empty, []⟩ [name "d"] .directory
      |>.put [name "d", name "backup"] .directory
      |>.put [name "a"] .directory
      |>.put [name "a", name "c"] (.file (.plain []))
      |>.put [name "d", name "backup", name "x"] node }

/-- What there is besides matters where it is on the way of the data directory; and where a
directory on that way is missing that an earlier build makes, the next one can fail for another
reason. -/
theorem leftovers_on_way :
    (∃ session session' : Session, ∃ base, Unobstructed base session.files ∧
      Unobstructed base session'.files ∧
      session'.files.current = session.files.current ∧ session'.randomness = session.randomness ∧
      (∀ location, session'.files.tree.node? location ≠ session.files.tree.node? location →
        ∃ names, location = session.files.home base ++ Utf8.encode backupsName :: names) ∧
      ((run (.of base) ⟨false, true, .once⟩).perform session).1 ≠
        ((run (.of base) ⟨false, true, .once⟩).perform session').1) ∧
    ∃ session : Session, ∃ base, Unobstructed base session.files ∧
      ((run (.of base) ⟨false, true, .once⟩).perform session).1 ≠
        ((run (.of base) ⟨false, true, .once⟩).perform
          { ((run (.of base) ⟨false, true, .once⟩).perform
            session).2 with randomness := session.randomness }).1 := by
  let through : Path := .ofText "d/backup/x/../..".toList
  let missing : Path := .ofText "a/b/../c".toList
  refine ⟨⟨awkwardSession .directory, awkwardSession (.file (.plain [])), through, ?_, ?_, rfl, rfl,
    ?_, ?_⟩, awkwardSession .directory, missing, ?_, ?_⟩
  · exact ⟨by decide +kernel, FileTree.node?_ne_link (by decide +kernel), @(by decide +kernel),
      .inr (.inl (by decide +kernel))⟩
  · exact ⟨by decide +kernel, FileTree.node?_ne_link (by decide +kernel), @(by decide +kernel),
      .inr (.inl (by decide +kernel))⟩
  · intro location hother
    have hhome : (awkwardSession .directory).files.home through = [Utf8.encode ['d']] := by decide +kernel
    rw [hhome]
    refine ⟨[Utf8.encode ['x']], Decidable.not_not.1 fun hne => hother ?_⟩
    have hcommon : ∀ node, (awkwardSession node).files.tree.node? location = _ := fun node =>
      (FileSystem.node?_put (by simp) node location).trans (if_neg hne)
    rw [hcommon, hcommon]
  · decide +kernel
  · exact ⟨by decide +kernel, FileTree.node?_ne_link (by decide +kernel), @(by decide +kernel),
      .inr (.inl (by decide +kernel))⟩
  · decide +kernel

end Build

end ServerPack
