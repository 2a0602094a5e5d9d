import ServerPack.Archive.Name
import ServerPack.Failure
import ServerPack.FileSystem.Tree
import ServerPack.Log
import ServerPack.Secret

/-!
Sessions and actions. A session is everything that a run reads and changes: the file system, the
source of randomness, the clock and the log. An action works on a session and may fail; what it did
before it failed stays done.
-/

namespace ServerPack

/-- The surroundings of a run. The clock stands still while it is looked at. -/
structure Session where
  files : FileSystem
  randomness : RandomSource
  now : Instant
  log : List LogRecord := []

/-- A computation on a session that may fail and keeps what it has changed. -/
abbrev Action := ExceptT Failure (StateM Session)

namespace Action

/-- Writes a line to the log. -/
def log (level : Level) (message : String) : Action Unit :=
  modify fun session => { session with log := session.log ++ [⟨level, message⟩] }

/-- The result of a computation without effects; a failure that has a diagnosis leaves it in the
log. -/
def ofExcept {α : Type} : Except Failure α → Action α
  | .ok a => pure a
  | .error failure => do
    match failure.diagnosis with
    | some line => log .error line
    | none => pure ()
    throw failure

/-- A change of the file system that may be refused. -/
def change (update : FileSystem → Except IoFault FileSystem) : Action Unit := do
  match update (← get).files with
  | .ok files => modify fun session => { session with files := files }
  | .error fault => throw (.io fault)

/-- A question to the file system. -/
def ask {α : Type} (question : FileSystem → α) : Action α := do
  return question (← get).files

/-- A random string of a length, which must not be zero. -/
def randomText (length : Nat) : Action Text := do
  if length = 0 then throw (.lengthNotPositive 0)
  let (text, randomness) := (← get).randomness.take length
  modify fun session => { session with randomness }
  return text

/-- Runs an action on a session. -/
def perform {α : Type} (action : Action α) (session : Session) : Except Failure α × Session :=
  action.run.run session

end Action

end ServerPack
