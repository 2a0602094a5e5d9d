import ServerPack.Proofs.Build.Confinement

/-!
A build that does not get to the point where it deletes the output tree keeps it. Until then nothing
but directories is added to the output tree: those of its skeleton, and missing ones on the way of
the data directory where its path is written through the tree itself (`run_of_approached`). A data
directory is `d` also if it is written `d/built/x/../..`, and then `d/built/x` is made
(`way_through_output`).
-/

namespace ServerPack.Build

variable {session after : Session} {base : Path} {options : Options}

/-- In one part of the data directory everything is as it was, but for directories that have been
made where nothing was: at some places, or on the way of the data directory itself. -/
def AddsTo (base : Path) (part : Text) (added : List Location) (before after : FileSystem) : Prop :=
  ∀ names, after.tree.node? (before.home base ++ Utf8.encode part :: names) =
      before.tree.node? (before.home base ++ Utf8.encode part :: names) ∨
    before.tree.node? (before.home base ++ Utf8.encode part :: names) = none ∧
      after.tree.node? (before.home base ++ Utf8.encode part :: names) = some .directory ∧
      (names ∈ added ∨ before.OnWay base (before.home base ++ Utf8.encode part :: names))

theorem AddsTo.file {part : Text} {added : List Location} {before after : FileSystem}
    (h : AddsTo base part added before after) {names : Location} {content : Content}
    (hfile : before.tree.node? (before.home base ++ Utf8.encode part :: names) = some (.file content)) :
    after.tree.node? (before.home base ++ Utf8.encode part :: names) = some (.file content) := by
  rcases h names with hsame | ⟨hnone, -⟩
  · rw [hsame, hfile]
  · cases hfile.symm.trans hnone

theorem Furnished.addsTo_output {files files' : FileSystem} (h : Furnished base files files') :
    AddsTo base outputName skeletonNames files files' := by
  intro names
  refine (h.added _).imp_right fun ⟨hnone, node, hnode, haddition⟩ => ⟨hnone, ?_⟩
  generalize hlocation : files.home base ++ Utf8.encode outputName :: names = location at hnode haddition
  cases haddition with
  | way hway => exact ⟨hnode, .inr hway⟩
  | skeleton _ hnames =>
      obtain rfl : names = _ := (List.cons.inj (List.append_cancel_left hlocation)).2
      exact ⟨hnode, .inl hnames⟩
  | settings => exact absurd hlocation (ne_of_head_ne (by decide) _ _)

theorem Furnished.addsTo_backups {files files' : FileSystem} (h : Furnished base files files') :
    AddsTo base backupsName [] files files' := by
  have hroots : ∀ root ∈ [sourceName, outputName], Utf8.encode backupsName ≠ Utf8.encode root := by decide
  intro names
  refine (h.added _).imp_right fun ⟨hnone, node, hnode, haddition⟩ => ⟨hnone, ?_⟩
  generalize hlocation : files.home base ++ Utf8.encode backupsName :: names = location at hnode haddition
  cases haddition with
  | way hway => exact ⟨hnode, .inr hway⟩
  | skeleton hroot => exact absurd hlocation (ne_of_head_ne (hroots _ hroot) _ _)
  | settings => exact absurd hlocation (ne_of_head_ne (by decide) _ _)

theorem AddsTo.of_eq {part : Text} {added : List Location} {before between after : FileSystem}
    (h : AddsTo base part added before between)
    (hsame : ∀ names, after.tree.node? (before.home base ++ Utf8.encode part :: names) =
      between.tree.node? (before.home base ++ Utf8.encode part :: names)) :
    AddsTo base part added before after := fun names => by
  rw [hsame]
  exact h names

/-- Until a build touches the output tree, it keeps what it holds. -/
theorem addsTo_output_of_approached {result : Except Failure (Settings.Document × List Path)}
    (hwf : session.files.WellFormed) (hfree : session.files.tree.LinkFree)
    (h : Approached (.of base) options session result after) :
    AddsTo base outputName skeletonNames session.files after.files := by
  obtain ⟨furnished, hfurnished, hprogressed⟩ := progressed_of_approached hwf hfree h
  exact hfurnished.addsTo_output.of_eq fun names =>
    hprogressed.outside id (ne_of_head_ne (by decide) _ _) fun _ => ne_of_head_ne (by decide) _ _

/-- Until there are settings, the backups are kept. -/
theorem addsTo_backups_of_settings {furnished : Session} {result : Except Failure Settings.Document}
    (hwf : session.files.WellFormed) (hfree : session.files.tree.LinkFree)
    (hfurnish : (furnish (.of base)).perform (started (.of base) session) = (.ok (), furnished))
    (hsettings : (workingSettings (.of base) options.writeMode).perform furnished = (result, after)) :
    AddsTo base backupsName [] session.files after.files := by
  have hstart : (started (.of base) session).files.WellFormed := hwf
  have hfurnished := furnished_of_furnish hstart hfree hfurnish
  have hgrows := grows_workingSettings (rooted_of_started hwf hfree hfurnish) hsettings
  exact hfurnished.addsTo_backups.of_eq fun names => hgrows.outside (ne_archive_of_workingCopy _ names)

/-- A build that fails before it touches the output tree has not gone on. -/
theorem run_of_approached {failure : Failure}
    (h : Approached (.of base) options session (.error failure) after) :
    (Build.run (.of base) options).perform session = (.error failure, after) := by
  rw [run_eq_approach_bind]
  exact Action.perform_bind_of_error h.perform_approach

/-- A build that fails while it prepares, while it reads the settings or while it takes backups
returns that failure and keeps the output tree, and before it takes backups also those that there
are. Where a build has lost or changed a file of the output tree, it had read the settings and, if
it takes backups, completed both. -/
theorem output_kept_of_run (hwf : session.files.WellFormed) (hfree : session.files.tree.LinkFree) :
    (∀ failure after, Approached (.of base) options session (.error failure) after →
      (Build.run (.of base) options).perform session = (.error failure, after) ∧
        AddsTo base outputName skeletonNames session.files after.files) ∧
    (∀ furnished failure after, (furnish (.of base)).perform (started (.of base) session) =
      (.ok (), furnished) →
      (workingSettings (.of base) options.writeMode).perform furnished = (.error failure, after) →
      AddsTo base backupsName [] session.files after.files) ∧
    ∀ result after names content, (Build.run (.of base) options).perform session = (result, after) →
      session.files.tree.node? (outputOf (session.files.home base) names) = some (.file content) →
      after.files.tree.node? (outputOf (session.files.home base) names) ≠ some (.file content) →
      ∃ furnished settings settled,
        (furnish (.of base)).perform (started (.of base) session) = (.ok (), furnished) ∧
        (workingSettings (.of base) options.writeMode).perform furnished = (.ok settings, settled) ∧
        (options.backup = true → ∃ count between count' archived,
          (Archive.pack (Layout.of base).source (archivePath base sourceName session.now)).perform settled =
            (.ok count, between) ∧
          (Archive.pack (Layout.of base).output (archivePath base outputName session.now)).perform between =
            (.ok count', archived)) := by
  refine ⟨fun failure after h => ⟨run_of_approached h, addsTo_output_of_approached hwf hfree h⟩,
    fun furnished failure after hfurnish hsettings =>
      addsTo_backups_of_settings hwf hfree hfurnish hsettings,
    fun result after names content hrun hfile hlost => ?_⟩
  rw [run_eq_approach_bind] at hrun
  rcases Action.bind_cases hrun with ⟨failure, happroach, -⟩ | ⟨done, approached, happroach, -⟩
  · exact absurd ((addsTo_output_of_approached hwf hfree (approached_of_approach happroach)).file
      hfile) hlost
  cases approached_of_approach happroach with
  | @archived furnished settings settled _ _ hfurnish hsettings _ harchive =>
      refine ⟨furnished, settings, settled, hfurnish, hsettings, fun _ => ?_⟩
      have hnow := (progressed_of_settled hwf hfree hfurnish hsettings).1
      rw [← hnow]
      rcases archiveTrees_cases harchive with ⟨failure, hresult, -⟩ | ⟨count, between, hfirst, hrest⟩
      · cases hresult
      rcases hrest with ⟨failure, hresult, -⟩ | ⟨count', hsecond, -⟩
      · cases hresult
      · exact ⟨count, between, count', approached, hfirst, hsecond⟩
  | @plain furnished settings settled hfurnish hsettings hbackup =>
      exact ⟨furnished, settings, approached, hfurnish, hsettings, fun hsome =>
        nomatch hbackup.symm.trans hsome⟩

/-- A data directory with an output tree and settings that are no settings. -/
def brokenSession : Session where
  files := {
    tree :=
      let text (content : String) : Node := .file (.plain (Utf8.encode content.toList))
      let nodes : List (List String × Node) := [
        (["d"], .directory), (["d", "built"], .directory), (["d", "built", "a"], text "1"),
        (["d", "build.setting.json"], text "x")]
      nodes.foldl (fun tree (names, node) =>
        tree.insert (names.map fun name => Utf8.encode name.toList) node) .empty
    current := [] }
  randomness := (sampleSession "b").randomness
  now := (sampleSession "b").now

theorem output_kept_of_run_sample : ∃ failure after,
    (Build.run (.of sampleBase) ⟨true, true, .once⟩).perform brokenSession = (.error failure, after) ∧
      after.files.tree.node? (outputOf [Utf8.encode ['d']] [Utf8.encode ['a']]) =
        some (.file (.plain (Utf8.encode ['1']))) := by
  have hwf : brokenSession.files.WellFormed := by decide +kernel
  have hfree : brokenSession.files.tree.LinkFree := FileTree.node?_ne_link (by decide +kernel)
  have hfailed : ((approach (.of sampleBase) ⟨true, true, .once⟩).perform brokenSession).1.isOk =
      false := by
    decide +kernel
  have hfile : brokenSession.files.tree.node?
    (outputOf (brokenSession.files.home sampleBase) [Utf8.encode ['a']]) =
      some (.file (.plain (Utf8.encode ['1']))) := by decide +kernel
  rcases happroach : (approach (.of sampleBase) ⟨true, true, .once⟩).perform
    brokenSession with ⟨failure | done, after⟩
  · obtain ⟨hrun, hkept⟩ := (output_kept_of_run hwf hfree).1 failure after
      (approached_of_approach happroach)
    exact ⟨failure, after, hrun, hkept.file hfile⟩
  · rw [happroach] at hfailed
    cases hfailed

/-- Directories may also be made in the output tree where it is on the way of the data directory. -/
theorem way_through_output : brokenSession.files.WellFormed ∧ brokenSession.files.tree.LinkFree ∧
    ∃ failure after, ∃ base : Path, ∃ names,
      Approached (.of base) ⟨false, true, .once⟩ brokenSession (.error failure) after ∧
      names ∉ skeletonNames ∧
      brokenSession.files.tree.node? (outputOf (brokenSession.files.home base) names) = none ∧
      after.files.tree.node? (outputOf (brokenSession.files.home base) names) = some .directory := by
  refine ⟨by decide +kernel, FileTree.node?_ne_link (by decide +kernel), ?_⟩
  let base : Path := .ofText "d/built/x/../..".toList
  have hfailed : ((approach (.of base) ⟨false, true, .once⟩).perform brokenSession).1.isOk = false := by
    decide +kernel
  have hmade : ((approach (.of base) ⟨false, true, .once⟩).perform brokenSession).2.files.tree.node?
      (outputOf (brokenSession.files.home base) [Utf8.encode ['x']]) = some .directory := by decide +kernel
  rcases happroach : (approach (.of base) ⟨false, true, .once⟩).perform
    brokenSession with ⟨failure | done, after⟩
  · rw [happroach] at hmade
    exact ⟨failure, after, base, [Utf8.encode ['x']],
      approached_of_approach happroach, by decide, by decide +kernel, hmade⟩
  · rw [happroach] at hfailed
    cases hfailed

end ServerPack.Build
