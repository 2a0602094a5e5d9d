import ServerPack.Archive.Name
import ServerPack.Archive.Pack
import ServerPack.Build.Bundled
import ServerPack.Build.Selection
import ServerPack.Settings.Expansion

/-!
The build itself. It makes the skeleton of directories and the settings file, resolves the settings
against themselves into a working copy, archives both trees, replaces the output tree by a copy of
the template tree, and replaces the placeholders in the selected files. The first failure ends it,
and what was done before stays.
-/

namespace ServerPack.Build

open ServerPack.Action (ask log)

/-- What a build is asked to do. -/
structure Options where
  backup : Bool
  recursive : Bool
  writeMode : WriteMode
  deriving DecidableEq

/-- What a build has done. -/
structure Report where
  matched : Nat
  changed : Nat
  substituted : Nat
  backups : List Path
  deriving DecidableEq

/-- Writes the bundled document of a name into a directory, unless something of that name is
there. -/
def provideBundled (name : Text) (directory : Path) : Action Unit := do
  let target := Layout.place directory name
  if ← ask (·.pathExists target) then log .info (String.ofList name ++ " file already exists.")
  else
    match bundled? name with
    | none => log .error ("Resource file not found: " ++ String.ofList name)
    | some text => do
      Files.writeText target text
      log .info ("Resource file extracted: " ++ String.ofList name)

/-- Makes the directories and the settings file that a build needs. -/
def furnish (layout : Layout) : Action Unit := do
  layout.skeleton.forM Files.createDirectory
  provideBundled settingsName layout.dataDirectory

/-- Writes a body to its file. -/
def persistTo (path : Path) (body : Text) : Action Unit := do
  log .trace ("Writing " ++ path.display)
  Files.writeText path body

/-- Resolves the settings file against itself into the working copy, and reads that. -/
def workingSettings (layout : Layout) (mode : WriteMode) : Action Settings.Document := do
  let raw ← Files.readText layout.settings
  let persist : Text → Action Unit := persistTo layout.resolvedSettings
  persist raw
  let _ ← Settings.expand mode persist raw
  let document ← Action.ofExcept (Settings.parse (← Files.readText layout.resolvedSettings))
  document.secrets.forM fun path =>
    log .debug ("Placeholder [" ++ String.ofList path ++ "] generates a new secret on every use")
  return document

/-- Archives the template tree and the output tree under the time of the clock. -/
def archiveTrees (layout : Layout) : Action (List Path) := do
  let name := Archive.nameAt (← get).now
  [(layout.source, sourceName), (layout.output, outputName)].mapM fun (root, folder) => do
    let archive := Layout.place (Layout.place layout.backups folder) name
    let _ ← Archive.pack root archive
    return archive

/-- Replaces the output tree by a copy of the template tree. -/
def renewOutput (layout : Layout) : Action Unit := do
  Files.deleteTree layout.output
  Files.copyTree layout.source layout.output
  log .info ("Copied " ++ layout.source.display ++ " to " ++ layout.output.display)

/-- Replaces the placeholders in a file and gives their number; a file without any is not
written. -/
def substituteFile (mode : WriteMode) (resolve : Text → Action Text) (path : Path) : Action Nat := do
  let body ← Files.readText path
  let placeholders ← Substitution.find body
  if placeholders.isEmpty then return 0
  log .debug ("Substituting " ++ toString placeholders.length ++ " placeholder(s) in " ++ path.display)
  let _ ← Substitution.run mode resolve (persistTo path) placeholders body
  return placeholders.length

/-- Runs a build. -/
def run (layout : Layout) (options : Options) : Action Report := do
  log .info ("Starting build in " ++ layout.dataDirectory.display)
  furnish layout
  let settings ← workingSettings layout options.writeMode
  let backups ← if options.backup then archiveTrees layout else pure []
  renewOutput layout
  let files ← select layout.output options.recursive settings.suffixes
  let counts ← files.mapM (substituteFile options.writeMode settings.resolve)
  log .info "Build finished."
  return {
    matched := files.length
    changed := (counts.filter (0 < ·)).length
    substituted := counts.foldl (· + ·) 0
    backups }

end ServerPack.Build
