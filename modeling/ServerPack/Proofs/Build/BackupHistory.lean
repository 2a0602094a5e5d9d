import ServerPack.Proofs.Archive.Names
import ServerPack.Proofs.Build.Backups
import ServerPack.Proofs.Build.Repetition

/-!
Backups accumulate. A run leaves every archive alone that is not named for its own time
(`archive_kept_of_run`), and whatever it comes to, it leaves a tree in which the next one can start
(`sound_of_run`). So the archives that a run reports keep their entries through all later runs whose
local times differ from its own by a second at least (`archives_kept_of_runs`). Two runs within one
second share their archives (`archive_replaced_within_second`).
-/

namespace ServerPack.Build

variable {session after : Session} {base : Path} {top : Location} {options : Options}
  {result : Except Failure Report}

/-- Whatever a run comes to, it leaves a well-formed tree without links. -/
theorem sound_of_run (hwf : session.files.WellFormed) (hfree : session.files.tree.LinkFree)
    (h : (run (.of base) options).perform session = (result, after)) :
    after.files.tree.WellFormed ∧ after.files.tree.LinkFree := by
  have hstart : (started (.of base) session).files.WellFormed := hwf
  have happroached : ∀ {done approached}, Approached (.of base) options session done approached →
      approached.files.tree.WellFormed ∧ approached.files.tree.LinkFree := by
    intro done approached happroached
    rcases hfurnish : (furnish (.of base)).perform
      (started (.of base) session) with ⟨failure | _, furnished⟩
    · have hgrows := grows_furnish hstart hfurnish
      cases happroached with
      | unfurnished hfurnish' =>
          cases hfurnish.symm.trans hfurnish'
          exact ⟨hgrows.tree hwf.tree, hgrows.linkFree hfree⟩
      | unsettled hfurnish' => cases hfurnish.symm.trans hfurnish'
      | unarchived hfurnish' => cases hfurnish.symm.trans hfurnish'
      | archived hfurnish' => cases hfurnish.symm.trans hfurnish'
      | plain hfurnish' => cases hfurnish.symm.trans hfurnish'
    · have hfurnished := grows_furnish hstart hfurnish
      obtain ⟨hgrows, -⟩ := resettled_of_approached
        (rooted_of_started hwf hfree hfurnish) hfurnish happroached
      exact ⟨hgrows.tree (hfurnished.tree hwf.tree), hgrows.linkFree (hfurnished.linkFree hfree)⟩
  rw [run_eq_approach_bind] at h
  rcases Action.bind_cases h with ⟨failure, happroach, -⟩ | ⟨⟨settings, backups⟩, approached,
    happroach, hrebuild⟩
  · exact happroached (approached_of_approach happroach)
  · have happroached' := approached_of_approach happroach
    obtain ⟨hroot, hsource⟩ := rooted_of_approached hwf hfree happroached'
    have htouched := touched_of_rebuild hroot hsource hrebuild
    exact ⟨htouched.tree, fun location aim hlink => (happroached happroached').2 location aim
      (htouched.link hlink)⟩

/-- Archives of different local times are in different places. -/
theorem archiveOf_ne_of_time {now now' : Instant} (h : LocalTime.of now ≠ LocalTime.of now')
    (folder folder' : Text) :
    archiveOf top folder now ≠ archiveOf top folder' now' := by
  intro heq
  have hnames := List.append_cancel_left heq
  simp only [List.cons.injEq, and_true] at hnames
  have hname := congrArg Utf8.decode? hnames.2.2
  rw [Utf8.decode?_encode, Utf8.decode?_encode] at hname
  exact h (Archive.nameAt_eq_iff.1 (Option.some.inj hname))

/-- A run leaves the archives of other times as they are. -/
theorem archive_kept_of_run (hwf : session.files.WellFormed) (hfree : session.files.tree.LinkFree)
    (h : (run (.of base) options).perform session = (result, after)) {now : Instant}
    (hnow : LocalTime.of now ≠ LocalTime.of session.now) {folder : Text} {node : Node}
    (hnode : session.files.tree.node? (archiveOf (session.files.home base) folder now) = some node) :
    after.files.tree.node? (archiveOf (session.files.home base) folder now) = some node := by
  obtain ⟨furnished, hfurnished, hprogressed⟩ := progressed_of_run hwf hfree h
  have hbeside : ¬session.files.home base ++ [Utf8.encode outputName] <+: archiveOf
      (session.files.home base) folder now :=
    FileTree.not_prefix_of_head_ne (by decide) _ _
  exact hprogressed.kept hbeside (archiveOf_ne_of_time hnow _ _) (archiveOf_ne_of_time hnow _ _)
    (hfurnished.node?_eq hnode)

/-- What happens to a data directory: runs at some times, each from where the data directory was
left, and between them changes of anything but its backups. The data directory may be given by
another path each time. -/
inductive Runs (top : Location) : FileTree → List Instant → FileTree → Prop
  | none {tree} : Runs top tree [] tree
  | run {session after : Session} {base options result times last} :
      session.files.tree.node? session.files.current = some .directory → session.files.home base = top →
      (run (.of base) options).perform session = (result, after) → Runs top after.files.tree times last →
      Runs top session.files.tree (session.now :: times) last
  | change {tree tree' : FileTree} {times last} : tree'.WellFormed → tree'.LinkFree →
      (∀ names, tree'.node? (top ++ Utf8.encode backupsName :: names) =
        tree.node? (top ++ Utf8.encode backupsName :: names)) →
      Runs top tree' times last → Runs top tree times last

/-- Trees stay well-formed and without links. -/
theorem Runs.sound {tree last : FileTree} {times : List Instant} (h : Runs top tree times last)
    (hwf : tree.WellFormed) (hfree : tree.LinkFree) : last.WellFormed ∧ last.LinkFree := by
  induction h with
  | none => exact ⟨hwf, hfree⟩
  | run hcurrent _ hrun _ ih =>
      obtain ⟨hwf', hfree'⟩ := sound_of_run ⟨hwf, hcurrent⟩ hfree hrun
      exact ih hwf' hfree'
  | change hwf' hfree' _ _ ih => exact ih hwf' hfree'

/-- The archives of one time stay as they are through runs at other times. -/
theorem Runs.archive_kept {tree last : FileTree} {times : List Instant} (h : Runs top tree times last)
    (hwf : tree.WellFormed) (hfree : tree.LinkFree) {now : Instant}
    (htimes : ∀ other ∈ times, LocalTime.of other ≠ LocalTime.of now) {folder : Text} {node : Node}
    (hnode : tree.node? (archiveOf top folder now) = some node) :
    last.node? (archiveOf top folder now) = some node := by
  induction h with
  | none => exact hnode
  | run hcurrent hhome hrun _ ih =>
      obtain ⟨hwf', hfree'⟩ := sound_of_run ⟨hwf, hcurrent⟩ hfree hrun
      have hother := Ne.symm (htimes _ List.mem_cons_self)
      rw [← hhome] at hnode
      have hkept := archive_kept_of_run ⟨hwf, hcurrent⟩ hfree hrun hother hnode
      rw [hhome] at hkept
      exact ih hwf' hfree' (fun other hmem => htimes other (List.mem_cons_of_mem _ hmem)) hkept
  | change hwf' hfree' hbackups _ ih => exact ih hwf' hfree' htimes ((hbackups _).trans hnode)

/-- The archives that a run reports are there, and they keep their entries through all that happens
to the data directory later, as long as no later run has the same local time to the second. -/
theorem archives_kept_of_runs {tree last : FileTree} {earlier later : List Instant} {report : Report}
    (hwf : tree.WellFormed) (hfree : tree.LinkFree)
    (hearlier : Runs (session.files.home base) tree earlier session.files.tree)
    (hcurrent : session.files.tree.node? session.files.current = some .directory)
    (hbackup : options.backup = true)
    (hrun : (run (.of base) options).perform session = (.ok report, after))
    (hlater : Runs (session.files.home base) after.files.tree later last)
    (htimes : ∀ now ∈ later, LocalTime.of now ≠ LocalTime.of session.now) :
    report.backups = archivePaths base session.now ∧ ∀ path ∈ report.backups, ∃ entries,
      after.files.tree.node? (session.files.home path) = some (.file (.archive entries)) ∧
        last.node? (session.files.home path) = some (.file (.archive entries)) := by
  obtain ⟨hwf', hfree'⟩ := hearlier.sound hwf hfree
  obtain ⟨hafterWf, hafterFree⟩ := sound_of_run ⟨hwf', hcurrent⟩ hfree' hrun
  obtain ⟨harchived, hended, -⟩ := @backedUp_of_run session base options ⟨hwf', hcurrent⟩ hfree' hbackup
  rcases hended _ _ hrun with ⟨failure, hfailed, -⟩ | ⟨settings, backups, approached, happroached,
    hrebuild, hreport⟩
  · cases hfailed
  obtain ⟨-, _, _, entries, entries', -, -, -, hbacked⟩ := harchived settings backups approached happroached
  have hbackedUp := hbacked _ _ hrebuild
  have hplace : ∀ folder, Path.Plain (Utf8.encode folder) →
    session.files.home (archivePath base folder session.now) =
      archiveOf (session.files.home base) folder session.now := fun folder hfolder =>
    FileSystem.home_of_within (within_archivePath base hfolder session.now)
  refine ⟨hreport report rfl, fun path hpath => ?_⟩
  rw [hreport report rfl, archivePaths] at hpath
  rcases List.mem_cons.1 hpath with rfl | hpath
  · rw [hplace _ plain_sourceName]
    exact ⟨entries, hbackedUp.source, hlater.archive_kept hafterWf hafterFree htimes hbackedUp.source⟩
  · obtain rfl := List.mem_singleton.1 hpath
    rw [hplace _ plain_outputName]
    exact ⟨entries', hbackedUp.output, hlater.archive_kept hafterWf hafterFree htimes hbackedUp.output⟩

theorem archives_kept_of_runs_sample : ∃ report after result last,
    (run (.of sampleBase) ⟨true, true, .once⟩).perform (sampleSession "b") = (.ok report, after) ∧
      (run (.of sampleBase) ⟨true, true, .once⟩).perform
        { after with files := ⟨after.files.tree, []⟩, now := ⟨1, 0, 0⟩ } = (result, last) ∧
      report.backups.length = 2 ∧ ∀ path ∈ report.backups, ∃ entries,
        last.files.tree.node? ((sampleSession "b").files.home path) = some (.file (.archive entries)) := by
  have hwf : (sampleSession "b").files.WellFormed := by decide +kernel
  have hfree : (sampleSession "b").files.tree.LinkFree := FileTree.node?_ne_link (by decide +kernel)
  have hok : ((run (.of sampleBase) ⟨true, true, .once⟩).perform (sampleSession "b")).1.isOk =
    true := by decide +kernel
  rcases hrun : (run (.of sampleBase) ⟨true, true, .once⟩).perform
    (sampleSession "b") with ⟨failure | report, after⟩
  · rw [hrun] at hok
    cases hok
  rcases hlast : (run (.of sampleBase) ⟨true, true, .once⟩).perform
    { after with files := ⟨after.files.tree, []⟩, now := ⟨1, 0, 0⟩ } with ⟨result, last⟩
  have hlater : Runs ((sampleSession "b").files.home sampleBase) after.files.tree
      [⟨1, 0, 0⟩] last.files.tree :=
    @Runs.run _ { after with files := ⟨after.files.tree, []⟩, now := ⟨1, 0, 0⟩ } last _ _ _ _ _ rfl
      rfl hlast .none
  obtain ⟨hbackups, hkept⟩ := archives_kept_of_runs hwf.tree hfree .none hwf.current rfl hrun hlater
    (by decide)
  exact ⟨report, after, result, last, rfl, hlast, by rw [hbackups]; rfl, fun path hpath =>
    have ⟨entries, _, hentries⟩ := hkept path hpath
    ⟨entries, hentries⟩⟩

/-- Of two runs within one second the later one replaces the archives that the earlier one has
reported. -/
theorem archive_replaced_within_second :
    ∃ (session after last : Session) (report later : Report) (path : Path),
    session.files.WellFormed ∧ session.files.tree.LinkFree ∧
      (run (.of sampleBase) ⟨true, true, .once⟩).perform session = (.ok report, after) ∧
      after.now = session.now ∧ (run (.of sampleBase) ⟨true, true, .once⟩).perform after =
        (.ok later, last) ∧
      path ∈ report.backups ∧
      after.files.tree.node? (session.files.home path) = some (.file (.archive [])) ∧
      last.files.tree.node? (session.files.home path) ≠ some (.file (.archive [])) := by
  have hwf : (sampleSession "b").files.WellFormed := by decide +kernel
  have hfree : (sampleSession "b").files.tree.LinkFree := FileTree.node?_ne_link (by decide +kernel)
  let first := (run (.of sampleBase) ⟨true, true, .once⟩).perform (sampleSession "b")
  let second := (run (.of sampleBase) ⟨true, true, .once⟩).perform first.2
  let path := archivePath sampleBase outputName ⟨0, 0, 0⟩
  have hruns : first.1.toOption.map Report.backups = some (archivePaths sampleBase ⟨0, 0, 0⟩) ∧
      first.2.now = (sampleSession "b").now ∧ second.1.isOk = true ∧
      first.2.files.tree.node? ((sampleSession "b").files.home path) = some (.file (.archive [])) ∧
      second.2.files.tree.node? ((sampleSession "b").files.home path) ≠ some (.file (.archive [])) := by
    decide +kernel
  obtain ⟨hbackups, hnow, hok, hempty, hreplaced⟩ := hruns
  rcases hfirst : first with ⟨failure | report, after⟩
  · rw [hfirst] at hbackups
    cases hbackups
  have hlast : second = (run (.of sampleBase) ⟨true, true, .once⟩).perform first.2 := rfl
  rcases hsecond : second with ⟨failure | later, last⟩
  · rw [hsecond] at hok
    cases hok
  rw [hsecond, hfirst] at hlast
  rw [hfirst] at hbackups hnow hempty
  rw [hsecond] at hreplaced
  have hreport : report.backups = archivePaths sampleBase ⟨0, 0, 0⟩ := Option.some.inj hbackups
  exact ⟨_, after, last, report, later, path, hwf, hfree, hfirst, hnow, hlast.symm,
    by rw [hreport]; simp [archivePaths, path], hempty, hreplaced⟩

end ServerPack.Build
