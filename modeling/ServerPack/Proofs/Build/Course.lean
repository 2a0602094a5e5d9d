import ServerPack.Proofs.Build.DrawFreeSteps
import ServerPack.Proofs.Build.OutputRenewal
import ServerPack.Proofs.Build.Skeleton
import ServerPack.Proofs.Selection.Selected

/-!
The course of a build up to the time when it begins to replace placeholders (`exists_course`). When
the directories and the settings are there, the path of the data directory leads to it, and the
source tree is what it stays from then on: the working copy of the settings, the archives and the
output tree lie elsewhere. So the files that the build finds in the new output tree are those that
stand in the source tree and are selected there.
-/

namespace ServerPack

open FileSystem (Grows Rooted)

namespace Build

variable {session after : Session} {base : Path} {top : Location}

/-! The trees. -/

/-- The source tree is what it was and the output tree is the same. The files that are to be looked
at are among those of the output tree, each of them once. -/
structure Prepared (base : Path) (top : Location) (before files : FileSystem) (paths : List Path)
    (selected : List Location) : Prop where
  rooted : files.Rooted base top
  source (names : List Name) : files.tree.node? (top ++ Utf8.encode sourceName :: names) =
    before.tree.node? (top ++ Utf8.encode sourceName :: names)
  output (names : List Name) : files.tree.node? (top ++ Utf8.encode outputName :: names) =
    before.tree.node? (top ++ Utf8.encode sourceName :: names)
  paths_eq : paths = selected.map (pathBelow (Layout.of base).output)
  nodup : selected.Nodup
  file {names} : names ∈ selected → names ≠ [] ∧ (pathBelow (Layout.of base).output names).Usable ∧
    ∃ content, before.tree.node? (top ++ Utf8.encode sourceName :: names) = some (.file content)

/-- The files of a new output tree that have been listed are those that are selected in the source
tree. -/
theorem prepared_of_select {renewed : Session} {recursive : Bool} {suffixes : List Text} {paths : List Path}
    (hroot : session.files.Rooted base top)
    (hsource : session.files.tree.node? (top ++ [Utf8.encode sourceName]) = some .directory)
    (hrenew : (renewOutput (.of base)).perform session = (.ok (), renewed))
    (hselect : (select (Layout.of base).output recursive suffixes).perform renewed = (.ok paths, after)) :
    ∃ selected, Prepared base top session.files after.files paths selected ∧
      Selected recursive suffixes (Utf8.encode outputName) session.files.tree
        (top ++ [Utf8.encode sourceName]) selected := by
  have hrenewed := renewed_renewOutput hroot hsource hrenew
  obtain ⟨location, hlookup, -⟩ := exists_of_select hselect
  obtain ⟨rfl, -⟩ := FileSystem.lookup_within hrenewed.rooted
    (Path.within_child base plain_outputName) (by simp) hlookup
  obtain ⟨selected, hpaths, hselected⟩ := selected_of_select hrenewed.rooted.tree hlookup
    (Path.lastName?_child plain_outputName) hselect
  have hchosen : Selected recursive suffixes (Utf8.encode outputName) session.files.tree
      (top ++ [Utf8.encode sourceName]) selected := hselected.of_below_eq fun names => by
    rw [List.append_assoc, List.append_assoc]
    exact hrenewed.same names
  refine ⟨selected, ?_, hchosen⟩
  rw [(reads_select _ _ _).files_eq hselect]
  refine ⟨hrenewed.rooted, fun names => hrenewed.outside ?_, hrenewed.same, hpaths,
    hchosen.increasing.imp Std.ne_of_lt, fun {names} hmem => ?_⟩
  · rintro ⟨more, heq⟩
    rw [List.append_assoc] at heq
    exact ne_of_head_ne (by decide) _ _ heq
  · obtain ⟨⟨node, -, hlies, hfile, -⟩, -⟩ := hchosen.mem_iff.1 hmem
    have hnode := hlies.there
    rw [List.append_assoc] at hnode
    cases node with
    | directory => cases hfile
    | file content => exact ⟨hlies.ne_nil, hrenewed.usable names content hnode, content, hnode⟩
    | link aim => exact absurd hnode hroot.linkless.no_link

/-- Only the source tree counts of what was there before. -/
theorem Prepared.of_source_eq {before before' files : FileSystem} {paths : List Path}
    {selected : List Location} (h : Prepared base top before files paths selected)
    (hsame : ∀ names, before.tree.node? (top ++ Utf8.encode sourceName :: names) =
      before'.tree.node? (top ++ Utf8.encode sourceName :: names)) :
    Prepared base top before' files paths selected :=
  ⟨h.rooted, fun names => (h.source names).trans (hsame names), fun names =>
    (h.output names).trans (hsame names), h.paths_eq, h.nodup, fun hmem => hsame _ ▸ h.file hmem⟩

theorem prepared_of_renew (hroot : session.files.Rooted base top)
    (hsource : session.files.tree.node? (top ++ [Utf8.encode sourceName]) = some .directory)
    {options : Options} {settings : Settings.Document} {staged : Staged}
    (h : (renew (.of base) options settings).perform session = (.ok staged, after)) :
    staged.settings = settings ∧ ∃ selected,
    Prepared base top session.files after.files staged.files selected ∧
      Selected options.recursive settings.suffixes (Utf8.encode outputName) session.files.tree
        (top ++ [Utf8.encode sourceName]) selected := by
  have hrest : ∀ {backups : List Path} {archived : Session},
      Grows (fun location => ∃ names, location = top ++ Utf8.encode backupsName :: names)
        session.files archived.files →
      (do
        renewOutput (.of base)
        let files ← select (Layout.of base).output options.recursive settings.suffixes
        return ({ settings, backups, files } : Staged) : Action Staged).perform archived =
          (.ok staged, after) →
      staged.settings = settings ∧ ∃ selected,
        Prepared base top session.files after.files staged.files selected ∧
        Selected options.recursive settings.suffixes (Utf8.encode outputName) session.files.tree
          (top ++ [Utf8.encode sourceName]) selected := by
    intro backups archived hgrows h
    obtain ⟨_, renewed, hrenew, h⟩ := Action.bind_eq_ok_iff.1 h
    obtain ⟨paths, listed, hselect, hend⟩ := Action.bind_eq_ok_iff.1 h
    cases hend
    have hsame : ∀ names, archived.files.tree.node? (top ++ Utf8.encode sourceName :: names) =
        session.files.tree.node? (top ++ Utf8.encode sourceName :: names) := fun names =>
      hgrows.outside fun ⟨names', heq⟩ => ne_of_head_ne (by decide) _ _ heq
    obtain ⟨selected, hprepared, hselected⟩ := prepared_of_select (hgrows.rooted hroot)
      (hgrows.sustains.directory hsource) hrenew hselect
    exact ⟨rfl, selected, hprepared.of_source_eq hsame, hselected.of_below_eq fun names => by
      rw [List.append_assoc]
      exact hsame names⟩
  rw [renew] at h
  cases hbackup : options.backup with
  | false =>
      rw [hbackup] at h
      exact hrest (.refl _ _) h
  | true =>
      rw [hbackup] at h
      obtain ⟨backups, archived, harchive, h⟩ := Action.bind_eq_ok_iff.1 h
      exact hrest (grows_archiveTrees hroot harchive) h

/-- A build that can begin to replace placeholders has made the directories. -/
theorem furnished_of_stage {options : Options} {staged : Staged}
    (h : (stage (.of base) options).perform session = (.ok staged, after)) :
    ∃ furnished : Session, (furnish (.of base)).outcome session = (.ok (), furnished.silent) ∧ (do
      let settings ← workingSettings (.of base) options.writeMode
      renew (.of base) options settings : Action Staged).perform furnished = (.ok staged, after) := by
  obtain ⟨_, started, hstart, h⟩ := Action.bind_eq_ok_iff.1 h
  obtain ⟨_, furnished, hfurnish, h⟩ := Action.bind_eq_ok_iff.1 h
  have hsilent : session.silent = started.silent := (Action.Reads.silent_eq (.log _ _) hstart).symm
  refine ⟨furnished, ?_, h⟩
  rw [(quiet_furnish _).outcome_eq started hsilent, Action.outcome, hfurnish]

/-- What a build has come by when it begins to replace placeholders: the session with the
directories and the settings file, the text of the settings, its document and what is put into it
for its own placeholders, the settings with the list of files, the session with the new output tree,
and where the files of the list stand below the trees. -/
structure Course where
  furnished : Session
  raw : Text
  document : Settings.Document
  own : List Resolved
  staged : Staged
  prepared : Session
  selected : List Location

/-- A build takes this course from a session on, up to the files in which placeholders are
replaced. -/
structure Course.Taken (course : Course) (base : Path) (top : Location) (options : Options)
    (session : Session) : Prop where
  furnish : (furnish (.of base)).outcome session = (.ok (), course.furnished)
  raw : course.furnished.files.textAt (Layout.of base).settings = .ok course.raw
  document : Settings.parse course.raw = .ok course.document
  own : course.document.resolveIn course.raw session.randomness =
    (.ok course.own, course.prepared.randomness)
  settings : Settings.parse
    (Substitution.putAll (Placeholder.occurringIn course.raw) course.own course.raw) =
      .ok course.staged.settings
  stage : (stage (.of base) options).perform session = (.ok course.staged, course.prepared)
  rooted : course.furnished.files.Rooted base top
  prepared : Prepared base top course.furnished.files course.prepared.files course.staged.files
    course.selected
  selected : Selected options.recursive course.staged.settings.suffixes (Utf8.encode outputName)
    course.furnished.files.tree (top ++ [Utf8.encode sourceName]) course.selected

/-- A build that has come to the files has taken such a course, if the path of the data directory
leads to a directory without links once the directories have been made. -/
theorem exists_course (hwf : session.files.WellFormed)
    (hrooted : ∀ {furnished : Session}, (furnish (.of base)).perform session = (.ok (), furnished) →
      furnished.files.Rooted base top)
    {options : Options} {staged : Staged}
    (h : (stage (.of base) options).perform session = (.ok staged, after)) :
    ∃ course : Course, course.staged = staged ∧ course.prepared = after ∧
    course.Taken base top options session := by
  obtain ⟨noisy, hfurnish, hrest⟩ := furnished_of_stage h
  obtain ⟨started, hperform, hsilent⟩ := Action.outcome_eq_ok_iff.1 hfurnish
  obtain ⟨hfiles, hrandomness, -⟩ := Session.mk.inj hsilent
  have hroot : noisy.files.Rooted base top := hfiles ▸ hrooted hperform
  have hwf' : noisy.files.WellFormed := hfiles ▸ (grows_furnish hwf hperform).wellFormed hwf
  have hsource : noisy.files.tree.node? (top ++ [Utf8.encode sourceName]) = some .directory :=
    hfiles ▸ directory_of_furnish hwf hperform (hrooted hperform) List.mem_cons_self
  have hdrawn := (frugal_furnish _).randomness_eq hperform
  obtain ⟨settings, configured, hsettings, hrenew⟩ := Action.bind_eq_ok_iff.1 hrest
  obtain ⟨raw, text, hraw, hexpand, hparse, -⟩ := exists_of_workingSettings hroot hsettings
  obtain ⟨document, own, hdocument, hown, rfl⟩ := Settings.exists_of_expandFrom hexpand
  rw [Settings.Document.fill_eq_putAll hown] at hparse
  have hgrows := grows_workingSettings hroot hsettings
  obtain ⟨rfl, selected, hprepared, hselected⟩ := prepared_of_renew (hgrows.rooted hroot)
    (hgrows.sustains.directory hsource) hrenew
  have houtside : ∀ names, configured.files.tree.node? (top ++ Utf8.encode sourceName :: names) =
      noisy.files.tree.node? (top ++ Utf8.encode sourceName :: names) := fun names =>
    hgrows.outside (ne_of_head_ne (by decide) _ _)
  refine ⟨⟨noisy.silent, raw, document, own, staged, after, selected⟩, rfl, rfl, hfurnish, hraw,
    hdocument, ?_, hparse, h,
    hroot, hprepared.of_source_eq houtside, hselected.of_below_eq fun names => ?_⟩
  · rw [(frugal_renew _ _ _).randomness_eq hrenew, ← hown, ← hdrawn]
    exact congrArg (document.resolveIn raw) hrandomness.symm
  · rw [List.append_assoc]
    exact houtside names

end Build

end ServerPack
