import ServerPack.Proofs.Archive.Entries
import ServerPack.Proofs.Build.KeptOutput

/-!
Nothing is destroyed without a backup. When a build that takes backups gets to where it deletes the
output tree, both trees are recorded in the archives of its time, as they were before it
(`backedUp_of_approached`). It does not get there if a file in the trees has a name that is not
UTF-8 (`backedUp_of_run`).
-/

namespace ServerPack.Build

open Archive (Records Hindered)

variable {session settled after : Session} {base : Path} {options : Options}

theorem Furnished.file_iff {files files' : FileSystem} (h : Furnished base files files') {root : Text}
    (hroot : root ∈ [sourceName, outputName]) (names : Location) (content : Content) :
    files'.tree.node? (files.home base ++ Utf8.encode root :: names) = some (.file content) ↔
      files.tree.node? (files.home base ++ Utf8.encode root :: names) = some (.file content) := by
  have hsettings : ∀ root ∈ [sourceName, outputName],
    Utf8.encode root ≠ Utf8.encode settingsName := by decide
  rcases h.added (files.home base ++ Utf8.encode root :: names) with hsame | ⟨hnone, node, hnode, haddition⟩
  · rw [hsame]
  rw [hnone, hnode]
  generalize hlocation : files.home base ++ Utf8.encode root :: names = location at haddition
  cases haddition with
  | way => exact ⟨nofun, nofun⟩
  | skeleton => exact ⟨nofun, nofun⟩
  | settings => exact absurd hlocation (ne_of_head_ne (hsettings root hroot) _ _)

/-- Before archives are taken both trees are there, with the files that they had. -/
theorem trees_of_settled (hwf : session.files.WellFormed) (hfree : session.files.tree.LinkFree)
    {furnished : Session} {result : Except Failure Settings.Document}
    (hfurnish : (furnish (.of base)).perform (started (.of base) session) = (.ok (), furnished))
    (hsettings : (workingSettings (.of base) options.writeMode).perform furnished =
      (result, settled)) {root : Text}
    (hroot : root ∈ [sourceName, outputName]) :
    settled.files.tree.node? (session.files.home base ++ [Utf8.encode root]) = some .directory ∧
      ∀ names content, settled.files.tree.node? (session.files.home base ++ Utf8.encode root :: names) =
        some (.file content) ↔
          session.files.tree.node? (session.files.home base ++ Utf8.encode root :: names) = some
            (.file content) := by
  have hcopy : ∀ root ∈ [sourceName, outputName],
    Utf8.encode root ≠ Utf8.encode workingCopyName := by decide
  have hbackups : ∀ root ∈ [sourceName, outputName], Utf8.encode root ≠ Utf8.encode backupsName := by decide
  have hstart : (started (.of base) session).files.WellFormed := hwf
  obtain ⟨-, -, hprogressed⟩ := progressed_of_settled hwf hfree hfurnish hsettings
  have hsame : ∀ names, settled.files.tree.node? (session.files.home base ++ Utf8.encode root :: names) =
      furnished.files.tree.node? (session.files.home base ++ Utf8.encode root :: names) := fun names =>
    hprogressed.outside id (ne_of_head_ne (hcopy root hroot) _ _) fun _ =>
      ne_of_head_ne (hbackups root hroot) _ _
  constructor
  · rw [hsame]
    exact directory_of_furnish hstart hfurnish (rooted_of_started hwf hfree hfurnish) hroot
  · intro names content
    rw [hsame]
    have hfurnished := furnished_of_furnish hstart hfree hfurnish
    exact hfurnished.file_iff hroot names content

/-- Both trees, as they were before a build, are recorded in archives of the time of the build. -/
structure BackedUp (base : Path) (session : Session) (files : FileSystem)
    (entries entries' : List (Text × Bytes)) : Prop where
  source : files.tree.node? (archiveOf (session.files.home base) sourceName session.now) =
    some (.file (.archive entries))
  output : files.tree.node? (archiveOf (session.files.home base) outputName session.now) =
    some (.file (.archive entries'))
  sourceRecords : Records (Utf8.encode sourceName) session.files.tree (session.files.home base) entries
  outputRecords : Records (Utf8.encode outputName) session.files.tree (session.files.home base) entries'

/-- The paths of the two archives. -/
def archivePaths (base : Path) (now : Instant) : List Path :=
  [archivePath base sourceName now, archivePath base outputName now]

/-- Why a build could not take its archives, if not for the name of a file. -/
inductive Forestalled (base : Path) (options : Options) (session : Session) (failure : Failure) : Prop
  | furnishing {after : Session} :
      (furnish (.of base)).perform (started (.of base) session) = (.error failure, after) →
      Forestalled base options session failure
  | settling {furnished after : Session} :
      (furnish (.of base)).perform (started (.of base) session) = (.ok (), furnished) →
      (workingSettings (.of base) options.writeMode).perform furnished = (.error failure, after) →
      Forestalled base options session failure
  | source {furnished settled : Session} {settings} :
      (furnish (.of base)).perform (started (.of base) session) = (.ok (), furnished) →
      (workingSettings (.of base) options.writeMode).perform furnished = (.ok settings, settled) →
      Hindered base (session.files.home base) (Utf8.encode sourceName)
        (archivePath base sourceName session.now) settled
        failure → Forestalled base options session failure
  | output {furnished settled between : Session} {settings count} :
      (furnish (.of base)).perform (started (.of base) session) = (.ok (), furnished) →
      (workingSettings (.of base) options.writeMode).perform furnished = (.ok settings, settled) →
      (Archive.pack (Layout.of base).source (archivePath base sourceName session.now)).perform settled =
        (.ok count, between) →
      Hindered base (session.files.home base) (Utf8.encode outputName)
        (archivePath base outputName session.now) between
        failure → Forestalled base options session failure

/-- The archives that a build has taken when it gets to the output tree. -/
theorem backedUp_of_approached (hwf : session.files.WellFormed) (hfree : session.files.tree.LinkFree)
    (hbackup : options.backup = true) {settings : Settings.Document} {backups : List Path}
    {approached : Session}
    (h : Approached (.of base) options session (.ok (settings, backups)) approached) :
    backups = archivePaths base session.now ∧ ∃ settled between entries entries',
      (Archive.pack (Layout.of base).source (archivePath base sourceName session.now)).perform settled =
        (.ok entries.length, between) ∧
      (Archive.pack (Layout.of base).output (archivePath base outputName session.now)).perform between =
        (.ok entries'.length, approached) ∧
      BackedUp base session approached.files entries entries' := by
  cases h with
  | plain _ _ hplain => cases hbackup.symm.trans hplain
  | @archived furnished settings settled _ _ hfurnish hsettings _ harchive =>
      obtain ⟨hnow, hroot, -⟩ := progressed_of_settled hwf hfree hfurnish hsettings
      have hdirectory := fun {root} (htree : root ∈ [sourceName, outputName]) =>
        (trees_of_settled hwf hfree hfurnish hsettings htree).1
      have hfiles := fun {root} (htree : root ∈ [sourceName, outputName]) =>
        (trees_of_settled hwf hfree hfurnish hsettings htree).2
      rcases archiveTrees_cases harchive with ⟨failure, hresult, -⟩ | ⟨count, between, hfirst, hrest⟩
      · cases hresult
      rcases hrest with ⟨failure, hresult, -⟩ | ⟨count', hsecond, hresult⟩
      · cases hresult
      rw [hnow] at hfirst hsecond hresult
      have hfirstPath := within_archivePath base plain_sourceName session.now
      have hsecondPath := within_archivePath base plain_outputName session.now
      have hgrown := Archive.grows_pack hroot hfirstPath hfirst
      have hbetween : ∀ names, between.files.tree.node?
        (session.files.home base ++ Utf8.encode outputName :: names) =
          settled.files.tree.node? (session.files.home base ++ Utf8.encode outputName :: names) :=
              fun names =>
        hgrown.outside fun ⟨names', heq⟩ => ne_of_head_ne (by decide) _ _ heq
      obtain ⟨entries, rfl, hsource, hrecords⟩ :=
        Archive.records_of_pack hroot (hdirectory (by simp)) hfirstPath (by decide) hfirst
      obtain ⟨entries', rfl, houtput, hrecords'⟩ := Archive.records_of_pack (hgrown.rooted hroot)
        ((hbetween []).trans (hdirectory (by simp))) hsecondPath (by decide) hsecond
      refine ⟨Except.ok.inj hresult, settled, between, entries, entries', hfirst, hsecond, ?_,
        houtput, ?_, ?_⟩
      · have hne : archiveOf (session.files.home base) sourceName session.now ≠
            archiveOf (session.files.home base) outputName session.now := fun heq =>
          absurd (List.cons.inj (List.cons.inj (List.append_cancel_left heq)).2).1 (by decide)
        exact Archive.kept_of_pack (hgrown.rooted hroot) hsecondPath hsecond hne hsource
      · exact hrecords.of_file_iff fun names content => ((hfiles (by simp)) names content).symm
      · refine hrecords'.of_file_iff fun names content => ?_
        rw [hbetween]
        exact ((hfiles (by simp)) names content).symm

/-- A build that fails before it gets to the output tree fails for the name of a file, or for
something that came before any misnamed file. -/
theorem forestalled_of_approached (hwf : session.files.WellFormed) (hfree : session.files.tree.LinkFree)
    {failure : Failure} (h : Approached (.of base) options session (.error failure) after) :
    (∃ shown, failure = .nameNotUtf8 shown) ∨ Forestalled base options session failure := by
  cases h with
  | unfurnished hfurnish => exact .inr (.furnishing hfurnish)
  | unsettled hfurnish hsettings => exact .inr (.settling hfurnish hsettings)
  | @unarchived furnished settings settled _ _ hfurnish hsettings _ harchive =>
      obtain ⟨hnow, hroot, -⟩ := progressed_of_settled hwf hfree hfurnish hsettings
      have hdirectory := fun {root} (htree : root ∈ [sourceName, outputName]) =>
        (trees_of_settled hwf hfree hfurnish hsettings htree).1
      have hfirstPath := within_archivePath base plain_sourceName session.now
      have hsecondPath := within_archivePath base plain_outputName session.now
      have hcases := archiveTrees_cases harchive
      rw [hnow] at hcases
      rcases hcases with ⟨_, hresult, hfirst⟩ | ⟨count, between, hfirst, hrest⟩
      · cases hresult
        exact (Archive.hindered_of_pack hroot (hdirectory (by simp)) (by decide) hfirstPath
          (by decide) hfirst).imp_right fun hhindered => .source hfurnish hsettings hhindered
      rcases hrest with ⟨_, hresult, hsecond⟩ | ⟨count', -, hresult⟩
      · cases hresult
        have hgrown := Archive.grows_pack hroot hfirstPath hfirst
        have hbetween : between.files.tree.node? (session.files.home base ++ [Utf8.encode outputName]) =
            settled.files.tree.node? (session.files.home base ++ [Utf8.encode outputName]) :=
          hgrown.outside fun ⟨names', heq⟩ => ne_of_head_ne (by decide) _ _ heq
        exact (Archive.hindered_of_pack (hgrown.rooted hroot)
          (hbetween.trans (hdirectory (by simp))) (by decide)
          hsecondPath (by decide) hsecond).imp_right fun hhindered =>
            .output hfurnish hsettings hfirst hhindered
      · cases hresult

theorem backups_of_rebuild {settings : Settings.Document} {backups : List Path} {report : Report}
    (h : (rebuild (.of base) options settings backups).perform session = (.ok report, after)) :
    report.backups = backups := by
  obtain ⟨_, _, -, hselect⟩ := Action.bind_eq_ok_iff.1 h
  obtain ⟨_, _, -, hfinish⟩ := Action.bind_eq_ok_iff.1 hselect
  obtain ⟨_, _, -, hlog⟩ := Action.bind_eq_ok_iff.1 hfinish
  obtain ⟨_, _, -, hend⟩ := Action.bind_eq_ok_iff.1 hlog
  cases hend
  rfl

/-- With backups, a build gets to where it deletes the output tree only when both trees, as they
were before it, are recorded in its two archives, and these stay; a build that succeeds reports
them. If a file of the trees is misnamed it does not get there: it fails, for that name or for
something that came before, and keeps the output tree. -/
theorem backedUp_of_run (hwf : session.files.WellFormed) (hfree : session.files.tree.LinkFree)
    (hbackup : options.backup = true) :
    (∀ settings backups approached, Approached (.of base) options session
      (.ok (settings, backups)) approached →
      backups = archivePaths base session.now ∧ ∃ settled between entries entries',
        (Archive.pack (Layout.of base).source (archivePath base sourceName session.now)).perform settled =
          (.ok entries.length, between) ∧
        (Archive.pack (Layout.of base).output (archivePath base outputName session.now)).perform between =
          (.ok entries'.length, approached) ∧
        BackedUp base session approached.files entries entries' ∧
        ∀ result after, (rebuild (.of base) options settings backups).perform approached = (result, after) →
          BackedUp base session after.files entries entries') ∧
    (∀ result after, (Build.run (.of base) options).perform session = (result, after) →
      (∃ failure, result = .error failure ∧ Approached (.of base) options session (.error failure) after) ∨
      ∃ settings backups approached, Approached (.of base) options session
        (.ok (settings, backups)) approached ∧
        (rebuild (.of base) options settings backups).perform approached = (result, after) ∧
        ∀ report, result = .ok report → report.backups = archivePaths base session.now) ∧
    ∀ root ∈ [sourceName, outputName], ∀ names content,
      session.files.tree.node? (session.files.home base ++ Utf8.encode root :: names) = some
        (.file content) →
      Path.Misnamed names → ∃ failure after,
        (Build.run (.of base) options).perform session = (.error failure, after) ∧
        Approached (.of base) options session (.error failure) after ∧
        AddsTo base outputName skeletonNames session.files after.files ∧
        ((∃ shown, failure = .nameNotUtf8 shown) ∨ Forestalled base options session failure) := by
  refine ⟨fun settings backups approached happroach => ?_, fun result after hrun => ?_,
    fun root hroot names content hfile hmisnamed => ?_⟩
  · obtain ⟨hbackups, settled, between, entries, entries', hfirst, hsecond, hbacked⟩ :=
      backedUp_of_approached hwf hfree hbackup happroach
    refine ⟨hbackups, settled, between, entries, entries', hfirst, hsecond, hbacked,
      fun result after hrebuild => ?_⟩
    obtain ⟨hrooted, hsource⟩ := rooted_of_approached hwf hfree happroach
    have hkept : ∀ folder, after.files.tree.node? (archiveOf (session.files.home base) folder session.now) =
        approached.files.tree.node? (archiveOf (session.files.home base) folder session.now) :=
            fun folder => by
      refine (touched_of_rebuild hrooted hsource hrebuild).outside fun ⟨more, heq⟩ => ?_
      rw [List.append_assoc] at heq
      exact ne_of_head_ne (by decide) _ _ heq
    exact ⟨(hkept _).trans hbacked.source, (hkept _).trans hbacked.output, hbacked.sourceRecords,
      hbacked.outputRecords⟩
  · rw [run_eq_approach_bind] at hrun
    rcases Action.bind_cases hrun with ⟨failure, happroach, rfl⟩ | ⟨⟨settings, backups⟩, approached,
      happroach, hrebuild⟩
    · exact .inl ⟨failure, rfl, approached_of_approach happroach⟩
    have happroached := approached_of_approach happroach
    refine .inr ⟨settings, backups, approached, happroached, hrebuild, ?_⟩
    rintro report rfl
    rw [backups_of_rebuild hrebuild, (backedUp_of_approached hwf hfree hbackup happroached).1]
  · rcases happroach : (approach (.of base) options).perform
      session with ⟨failure | ⟨settings, backups⟩, after⟩
    · have happroached := approached_of_approach happroach
      exact ⟨failure, after, run_of_approached happroached, happroached,
        addsTo_output_of_approached hwf hfree happroached,
        forestalled_of_approached hwf hfree happroached⟩
    · obtain ⟨-, _, _, entries, entries', -, -, hbacked⟩ :=
        backedUp_of_approached hwf hfree hbackup (approached_of_approach happroach)
      rcases List.mem_cons.1 hroot with rfl | hroot
      · exact absurd hmisnamed (hbacked.sourceRecords.named hfile)
      · obtain rfl := List.mem_singleton.1 hroot
        exact absurd hmisnamed (hbacked.outputRecords.named hfile)

theorem backedUp_of_run_sample : ∃ report after entries entries',
    (Build.run (.of sampleBase) ⟨true, true, .once⟩).perform (sampleSession "b") = (.ok report, after) ∧
      report.backups = archivePaths sampleBase ⟨0, 0, 0⟩ ∧
      BackedUp sampleBase (sampleSession "b") after.files entries entries' := by
  have hwf : (sampleSession "b").files.WellFormed := by decide +kernel
  have hfree : (sampleSession "b").files.tree.LinkFree := FileTree.node?_ne_link (by decide +kernel)
  have hok : ((Build.run (.of sampleBase) ⟨true, true, .once⟩).perform (sampleSession "b")).1.isOk =
      true := by
    decide +kernel
  rcases hrun : (Build.run (.of sampleBase) ⟨true, true, .once⟩).perform
    (sampleSession "b") with ⟨failure | report, after⟩
  · rw [hrun] at hok
    cases hok
  obtain ⟨harchived, hended, -⟩ := @backedUp_of_run (sampleSession "b") sampleBase
    ⟨true, true, .once⟩ hwf hfree rfl
  rcases hended _ _ hrun with ⟨failure, hfailed, -⟩ | ⟨settings, backups, approached, happroached,
    hrebuild, hreport⟩
  · cases hfailed
  obtain ⟨-, _, _, entries, entries', -, -, -, hbacked⟩ := harchived settings backups approached happroached
  exact ⟨report, after, entries, entries', rfl, hreport report rfl, hbacked _ _ hrebuild⟩

end ServerPack.Build
