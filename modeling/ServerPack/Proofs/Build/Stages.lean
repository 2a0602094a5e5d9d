import ServerPack.Proofs.Build.LogIndependence

/-!
A build in two parts, in two ways. `stage` does everything up to the list of the files in which
placeholders are replaced, and `finish` replaces them (`run_eq_stage_bind`). `approach` does
everything that comes before the output tree is touched, and `rebuild` the rest
(`run_eq_approach_bind`); what comes of `approach` is one of five things (`Approached`).
-/

namespace ServerPack.Build

/-- What a build knows when it begins to replace placeholders. -/
structure Staged where
  settings : Settings.Document
  backups : List Path
  files : List Path

/-- The settings that the working copy holds. -/
def readWorkingCopy (layout : Layout) : Action Settings.Document := do
  let document ← Action.ofExcept (Settings.parse (← Files.readText layout.resolvedSettings))
  document.secrets.forM fun path =>
    Action.log .debug ("Placeholder [" ++ String.ofList path ++ "] generates a new secret on every use")
  return document

theorem workingSettings_eq (layout : Layout) (mode : WriteMode) :
    workingSettings layout mode = (do
      let raw ← Files.readText layout.settings
      persistTo layout.resolvedSettings raw
      let _ ← Settings.expand (m := Action) mode (persistTo layout.resolvedSettings) raw
      readWorkingCopy layout) := rfl

/-- The archives, the new output tree and the list of the files in it. -/
def renew (layout : Layout) (options : Options) (settings : Settings.Document) : Action Staged := do
  let backups ← if options.backup then archiveTrees layout else pure []
  renewOutput layout
  let files ← select layout.output options.recursive settings.suffixes
  return { settings, backups, files }

/-- A build up to the list of the files in which placeholders are replaced. -/
def stage (layout : Layout) (options : Options) : Action Staged := do
  Action.log .info ("Starting build in " ++ layout.dataDirectory.display)
  furnish layout
  let settings ← workingSettings layout options.writeMode
  renew layout options settings

/-- What a build reports that has replaced so many placeholders in each file. -/
def Staged.report (staged : Staged) (counts : List Nat) : Report where
  matched := staged.files.length
  changed := (counts.filter (0 < ·)).length
  substituted := counts.foldl (· + ·) 0
  backups := staged.backups

/-- The placeholders are replaced in one file after the other. -/
def finish (mode : WriteMode) (staged : Staged) : Action Report := do
  let counts ← staged.files.mapM (substituteFile mode staged.settings.resolve)
  Action.log .info "Build finished."
  return staged.report counts

theorem run_eq_stage_bind (layout : Layout) (options : Options) :
    run layout options = stage layout options >>= finish options.writeMode := by
  rw [run, stage, funext (renew.eq_1 layout options)]
  cases options.backup <;>
    simp only [bind_assoc, pure_bind, Bool.false_eq_true, if_false, if_true, finish, Staged.report]

/-- What a build does before it touches the output tree: directories, settings and archives. -/
def approach (layout : Layout) (options : Options) : Action (Settings.Document × List Path) := do
  Action.log .info ("Starting build in " ++ layout.dataDirectory.display)
  furnish layout
  let settings ← workingSettings layout options.writeMode
  let backups ← if options.backup then archiveTrees layout else pure []
  return (settings, backups)

/-- What a build does from there on: a new output tree, in which placeholders are replaced. -/
def rebuild (layout : Layout) (options : Options) (settings : Settings.Document) (backups : List Path) :
    Action Report := do
  renewOutput layout
  let files ← select layout.output options.recursive settings.suffixes
  finish options.writeMode { settings, backups, files }

theorem run_eq_approach_bind (layout : Layout) (options : Options) :
    run layout options = approach layout options >>= fun (settings, backups) =>
      rebuild layout options settings backups := by
  rw [run, approach]
  cases options.backup <;>
    simp only [bind_assoc, pure_bind, Bool.false_eq_true, if_false, if_true, rebuild, finish, Staged.report]

/-- The session when the start of a build has been noted. -/
def started (layout : Layout) (session : Session) : Session :=
  { session with log := session.log ++ [⟨.info, "Starting build in " ++ layout.dataDirectory.display⟩] }

/-- What comes of a build before it touches the output tree. -/
inductive Approached (layout : Layout) (options : Options) (session : Session) :
    Except Failure (Settings.Document × List Path) → Session → Prop
  | unfurnished {failure after} :
    (furnish layout).perform (started layout session) = (.error failure, after) →
      Approached layout options session (.error failure) after
  | unsettled {furnished failure after} :
    (furnish layout).perform (started layout session) = (.ok (), furnished) →
      (workingSettings layout options.writeMode).perform furnished = (.error failure, after) →
      Approached layout options session (.error failure) after
  | unarchived {furnished settings settled failure after} :
      (furnish layout).perform (started layout session) = (.ok (), furnished) →
      (workingSettings layout options.writeMode).perform furnished = (.ok settings, settled) →
      options.backup = true → (archiveTrees layout).perform settled = (.error failure, after) →
      Approached layout options session (.error failure) after
  | archived {furnished settings settled backups after} :
      (furnish layout).perform (started layout session) = (.ok (), furnished) →
      (workingSettings layout options.writeMode).perform furnished = (.ok settings, settled) →
      options.backup = true → (archiveTrees layout).perform settled = (.ok backups, after) →
      Approached layout options session (.ok (settings, backups)) after
  | plain {furnished settings settled} :
    (furnish layout).perform (started layout session) = (.ok (), furnished) →
      (workingSettings layout options.writeMode).perform furnished = (.ok settings, settled) →
      options.backup = false → Approached layout options session (.ok (settings, [])) settled

theorem approached_of_approach {layout : Layout} {options : Options} {session after : Session}
    {result : Except Failure (Settings.Document × List Path)}
    (happroach : (approach layout options).perform session = (result, after)) :
    Approached layout options session result after := by
  rw [approach, Action.perform_bind_of_ok (Action.perform_log ..)] at happroach
  change (furnish layout >>= fun _ => _).perform (started layout session) = _ at happroach
  rcases Action.bind_cases happroach with ⟨failure, hfurnish, rfl⟩ | ⟨_, furnished, hfurnish, hrest⟩
  · exact .unfurnished hfurnish
  rcases Action.bind_cases hrest with ⟨failure, hsettings, rfl⟩ | ⟨settings, settled, hsettings, hbackups⟩
  · exact .unsettled hfurnish hsettings
  cases hbackup : options.backup with
  | false =>
      rw [hbackup] at hbackups
      cases hbackups
      exact .plain hfurnish hsettings hbackup
  | true =>
      rw [hbackup] at hbackups
      rcases Action.bind_cases hbackups with ⟨failure, harchive, rfl⟩ | ⟨backups, archived, harchive, hend⟩
      · exact .unarchived hfurnish hsettings hbackup harchive
      · cases hend
        exact .archived hfurnish hsettings hbackup harchive

theorem Approached.perform_approach {layout : Layout} {options : Options} {session after : Session}
    {result : Except Failure (Settings.Document × List Path)}
    (h : Approached layout options session result after) :
    (approach layout options).perform session = (result, after) := by
  rw [approach, Action.perform_bind_of_ok (Action.perform_log ..)]
  change (furnish layout >>= fun _ => _).perform (started layout session) = _
  cases h with
  | unfurnished hfurnish => exact Action.perform_bind_of_error hfurnish
  | unsettled hfurnish hsettings =>
      rw [Action.perform_bind_of_ok hfurnish]
      exact Action.perform_bind_of_error hsettings
  | unarchived hfurnish hsettings hbackup harchive =>
      rw [Action.perform_bind_of_ok hfurnish, Action.perform_bind_of_ok hsettings, hbackup]
      exact Action.perform_bind_of_error harchive
  | archived hfurnish hsettings hbackup harchive =>
      rw [Action.perform_bind_of_ok hfurnish, Action.perform_bind_of_ok hsettings, hbackup]
      exact Action.perform_bind_of_ok harchive
  | plain hfurnish hsettings hbackup =>
      rw [Action.perform_bind_of_ok hfurnish, Action.perform_bind_of_ok hsettings, hbackup]
      rfl

theorem quiet_readWorkingCopy (layout : Layout) : (readWorkingCopy layout).Quiet :=
  .bind (Files.quiet_readText _) fun _ => .bind (.ofExcept _) fun _ =>
      .bind (.forM fun _ _ => .log _ _) fun _ =>
    .pure _

theorem quiet_renew (layout : Layout) (options : Options) (settings : Settings.Document) :
    (renew layout options settings).Quiet := by
  have hrest : ∀ backups : List Path, (do
      renewOutput layout
      let files ← select layout.output options.recursive settings.suffixes
      return { settings, backups, files } : Action Staged).Quiet := fun _ =>
    .bind (quiet_renewOutput layout) fun _ => .bind (quiet_select _ _ _) fun _ => .pure _
  rw [renew]
  cases options.backup with
  | false => exact .bind (.pure _) hrest
  | true => exact .bind (quiet_archiveTrees layout) hrest

theorem quiet_finish (mode : WriteMode) (staged : Staged) : (finish mode staged).Quiet :=
  .bind (.mapM fun path _ => quiet_substituteFile mode
      (Settings.quiet_resolve staged.settings) path) fun _ =>
    .bind (.log _ _) fun _ => .pure _

end ServerPack.Build
