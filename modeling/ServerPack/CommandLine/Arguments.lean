import ServerPack.Log
import ServerPack.Placeholder.Substitution

/-!
Arguments of the command line. Options have a long name and some of them a short one; short options
may stand together behind one hyphen. The value of an option follows it after `=`, or as the next
argument, or directly behind a short name. A value that is an argument of its own is only looked at
when the next option has been recognised or when the arguments end, so an argument that is no option
at all is refused before a wrong value that stands in front of it.
-/

namespace ServerPack.CommandLine

/-- What the command line asks for. -/
structure Arguments where
  dataDirectory : Option Text := none
  noBackup : Bool := false
  flat : Bool := false
  writeMode : WriteMode := .perPlaceholder
  verbosity : Nat := 0
  deriving DecidableEq

/-- Reasons not to start: the user has asked for something else, or the arguments are wrong. -/
inductive Refusal where
  | help
  | version
  | unknownArgument
  | invalidValue
  | conflict
  | tooManyValues
  deriving DecidableEq

/-- Options that stand alone. -/
inductive Flag where
  | noBackup
  | flat
  | verbose
  | help
  | version
  deriving DecidableEq

/-- Options that have a value. -/
inductive Setting where
  | dataDirectory
  | writeMode
  deriving DecidableEq

/-- The option of a long name. -/
def longOption? (name : String) : Option (Flag ⊕ Setting) :=
  match name with
  | "no-backup" => some (.inl .noBackup)
  | "flat" => some (.inl .flat)
  | "verbose" => some (.inl .verbose)
  | "help" => some (.inl .help)
  | "version" => some (.inl .version)
  | "data-dir" => some (.inr .dataDirectory)
  | "write-mode" => some (.inr .writeMode)
  | _ => none

/-- The option of a short name. -/
def shortOption? (name : Char) : Option (Flag ⊕ Setting) :=
  match name with
  | 'v' => some (.inl .verbose)
  | 'h' => some (.inl .help)
  | 'V' => some (.inl .version)
  | 'd' => some (.inr .dataDirectory)
  | _ => none

/-- The arguments read so far: what is settled, which settings have been given, the setting that is
not settled yet with its value if there is one, and whether `--` has ended the options. -/
structure Reading where
  settled : Arguments := {}
  given : List Setting := []
  pending : Option (Setting × Option Text) := none
  ended : Bool := false

namespace Reading

/-- The highest count of verbosity options. -/
def maxVerbosity : Nat := 255

/-- Settles a setting with its value. -/
def assign (reading : Reading) (setting : Setting) (value : Option Text) : Except Refusal Reading :=
  match value with
  | none => .error .invalidValue
  | some text =>
    if setting ∈ reading.given then .error .conflict
    else
      let reading := { reading with given := setting :: reading.given }
      match setting with
      | .dataDirectory =>
        if text.isEmpty then .error .invalidValue
        else .ok { reading with settled := { reading.settled with dataDirectory := some text } }
      | .writeMode =>
        match [WriteMode.perPlaceholder, WriteMode.once].find? (·.name = text) with
        | some writeMode => .ok { reading with settled := { reading.settled with writeMode } }
        | none => .error .invalidValue

/-- Settles the setting that is still open. -/
def settle (reading : Reading) : Except Refusal Reading :=
  match reading.pending with
  | none => .ok reading
  | some (setting, value) => { reading with pending := none }.assign setting value

/-- Takes a flag. -/
def flag (reading : Reading) (flag : Flag) : Except Refusal Reading := do
  let reading ← reading.settle
  let settled := reading.settled
  match flag with
  | .help => .error .help
  | .version => .error .version
  | .noBackup =>
    if settled.noBackup then .error .conflict
    else .ok { reading with settled := { settled with noBackup := true } }
  | .flat =>
    if settled.flat then .error .conflict
    else .ok { reading with settled := { settled with flat := true } }
  | .verbose =>
    .ok { reading with settled := { settled with verbosity := min (settled.verbosity + 1) maxVerbosity } }

/-- Takes a setting with the value attached to it; without one the next argument may be its
value. -/
def setting (reading : Reading) (setting : Setting) (attached : Option Text) : Except Refusal Reading := do
  let reading ← reading.settle
  match attached with
  | some value => reading.assign setting (some value)
  | none => .ok { reading with pending := some (setting, none) }

/-- Takes short options that stand together. -/
def cluster (reading : Reading) : Text → Except Refusal Reading
  | [] => .ok reading
  | name :: rest =>
    match shortOption? name with
    | some (.inl flag) => do (← reading.flag flag).cluster rest
    | some (.inr setting) =>
      reading.setting setting <|
        match rest with
        | [] => none
        | '=' :: value => some value
        | value => some value
    | none => .error .unknownArgument

/-- Takes a long option, with what stands behind `=` if there is one. -/
def long (reading : Reading) (body : Text) : Except Refusal Reading :=
  let name := body.takeWhile (· ≠ '=')
  let attached := if name.length < body.length then some (body.drop (name.length + 1)) else none
  match longOption? (String.ofList name) with
  | some (.inl flag) => if attached.isSome then .error .tooManyValues else reading.flag flag
  | some (.inr setting) => reading.setting setting attached
  | none => .error .unknownArgument

/-- Takes one more argument. -/
def argument (reading : Reading) (argument : Text) : Except Refusal Reading :=
  if reading.ended then .error .unknownArgument
  else
    match argument with
    | ['-', '-'] => .ok { reading with ended := true }
    | '-' :: '-' :: body => reading.long body
    | '-' :: c :: rest => reading.cluster (c :: rest)
    | value =>
      match reading.pending with
      | some (setting, none) => .ok { reading with pending := some (setting, some value) }
      | _ => .error .unknownArgument

end Reading

/-- What the arguments behind the name of the program ask for. -/
def parse (arguments : List Text) : Except Refusal Arguments := do
  let reading ← arguments.foldlM Reading.argument {}
  let reading ← reading.settle
  .ok reading.settled

end ServerPack.CommandLine
