import ServerPack.Build.Run
import ServerPack.CommandLine.Arguments

/-!
The program: its arguments make a build, and what happens becomes an exit status and two texts. Log
records go to the error output as far as the verbosity lets them through, and the message of a
failure behind them.
-/

namespace ServerPack.CommandLine

/-- What a run of the program leaves behind besides its changes of the file system. -/
structure Outcome where
  status : Nat
  output : String
  errors : String

/-- The name of the program and its version. -/
def versionLine : String := "mcpacker 0.3.0\n"

/-- How the program is called. -/
def usage : String :=
  "Usage: mcpacker [-d|--data-dir DIR] [--no-backup] [--flat] [--write-mode per-placeholder|once]"
    ++ " [-v|--verbose]... [-h|--help] [-V|--version]\n"

/-- The sentence for arguments that are refused. -/
def Refusal.message : Refusal → String
  | .help | .version => ""
  | .unknownArgument => "error: unexpected argument\n"
  | .invalidValue => "error: a value is missing or not allowed\n"
  | .conflict => "error: an option was given twice\n"
  | .tooManyValues => "error: an option without a value was given one\n"

/-- What the program does instead of a build. -/
def Refusal.outcome (refusal : Refusal) : Outcome :=
  match refusal with
  | .help => ⟨0, usage, ""⟩
  | .version => ⟨0, versionLine, ""⟩
  | refusal => ⟨2, "", refusal.message ++ usage⟩

/-- The build that arguments ask for; without a data directory it is in the directory of the
program. -/
def build (arguments : Arguments) (programDirectory : Path) : Action Build.Layout := do
  let layout := Build.Layout.of ((arguments.dataDirectory.map Path.ofText).getD programDirectory)
  let report ← Build.run layout
    { backup := !arguments.noBackup, recursive := !arguments.flat, writeMode := arguments.writeMode }
  Action.log .info ("Substituted " ++ toString report.substituted ++ " placeholder(s) in "
    ++ toString report.changed ++ " of " ++ toString report.matched ++ " matched file(s), "
    ++ toString report.backups.length ++ " backup(s) written.")
  return layout

/-- The lines of the log that the arguments let through. -/
def logText (arguments : Arguments) (records : List LogRecord) : String :=
  String.ofList <| (LogRecord.visible (.ofVerbosity arguments.verbosity) records).flatMap LogRecord.line

/-- Runs the program with the arguments behind its name. -/
def run (arguments : List Text) (programDirectory : Path) (session : Session) : Outcome × Session :=
  match parse arguments with
  | .error refusal => (refusal.outcome, session)
  | .ok arguments =>
    let (result, after) := (build arguments programDirectory).perform { session with log := [] }
    let lines := logText arguments after.log
    let outcome : Outcome :=
      match result with
      | .ok layout => ⟨0, "Build completed successfully in " ++ layout.output.display ++ ".\n", lines⟩
      | .error failure => ⟨1, "", lines ++ failure.message ++ "\n"⟩
    (outcome, { after with log := session.log ++ after.log })

end ServerPack.CommandLine
