import ServerPack.FileSystem.Path

/-!
Where a build finds and puts things, all of it in one data directory.
-/

namespace ServerPack.Build

/-- The name of the settings file in a data directory, and of the bundled document. -/
def settingsName : Text := "build.setting.json".toList

/-- The name of the template tree. -/
def sourceName : Text := "default".toList

/-- The name of the output tree. -/
def outputName : Text := "built".toList

/-- The places of a build. -/
structure Layout where
  dataDirectory : Path
  source : Path
  output : Path
  backups : Path
  settings : Path
  resolvedSettings : Path
  deriving DecidableEq

namespace Layout

/-- A path inside another. -/
def place (base : Path) (name : Text) : Path := base.join (.ofText name)

/-- The places in a data directory. -/
def of (dataDirectory : Path) : Layout where
  dataDirectory
  source := place dataDirectory sourceName
  output := place dataDirectory outputName
  backups := place dataDirectory "backup".toList
  settings := place dataDirectory settingsName
  resolvedSettings := place dataDirectory "build.setting.resolved.json".toList

/-- The directories that are there before a build starts. -/
def skeleton (layout : Layout) : List Path :=
  [layout.source, layout.output].flatMap fun root =>
    [place root "files".toList, place root "servers".toList]

end Layout

end ServerPack.Build
