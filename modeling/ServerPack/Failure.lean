import ServerPack.Json.Fault
import ServerPack.Json.Value

/-!
Everything that can go wrong, by cause. `Failure.message` is the sentence that the user is shown,
and `Failure.diagnosis` the line that a failed lookup leaves in the error log besides.
-/

namespace ServerPack

/-- A refusal by the file system. -/
inductive IoFault where
  | notFound
  | alreadyExists
  | notADirectory
  | isADirectory
  | invalidArgument
  | nameTooLong
  | directoryNotEmpty
  | tooManyLinks
  | nulInPath
  | invalidUtf8
  | notRegularFile
  deriving DecidableEq

/-- The words for a refusal; those of the operating system carry its number. -/
def IoFault.message : IoFault → String
  | .notFound => "No such file or directory (os error 2)"
  | .alreadyExists => "File exists (os error 17)"
  | .notADirectory => "Not a directory (os error 20)"
  | .isADirectory => "Is a directory (os error 21)"
  | .invalidArgument => "Invalid argument (os error 22)"
  | .nameTooLong => "File name too long (os error 36)"
  | .directoryNotEmpty => "Directory not empty (os error 39)"
  | .tooManyLinks => "Too many levels of symbolic links (os error 40)"
  | .nulInPath => "file name contained an unexpected NUL byte"
  | .invalidUtf8 => "stream did not contain valid UTF-8"
  | .notRegularFile => "the source path is neither a regular file nor a symlink to a regular file"

/-- A settings document whose JSON is sound but whose placeholder section has the wrong shape. -/
inductive Misshape where
  | wrongType (found : Json.Found) (expected : String)
  | wrongLength (length : Nat) (expected : String)
  | missingField (name : String)
  | notANumber (fault : Json.Fault)
  deriving DecidableEq

/-- What is said of a section of the wrong shape. A number inside a string is reported with its
place there. -/
def Misshape.message : Misshape → String
  | .wrongType found expected => "invalid type: " ++ found.phrase ++ ", expected " ++ expected
  | .wrongLength length expected => "invalid length " ++ toString length ++ ", expected " ++ expected
  | .missingField name => "missing field `" ++ name ++ "`"
  | .notANumber fault => fault.message []

/-- The reasons for which something was not done. -/
inductive Failure where
  | io (fault : IoFault)
  | walk (path : Text) (fault : IoFault)
  | settingsSyntax (document : Text) (fault : Json.Fault)
  | settingsShape (misshape : Misshape)
  | rootNotObject (found : Json.Kind)
  | noPlaceholderSection
  | notAnObject (key path : Text)
  | unknownPath (path : Text)
  | notSubstitutable (path : Text) (found : Json.Kind)
  | lengthNotPositive (length : Nat)
  | nameNotUtf8 (name : Text)
  | noDirectory (path : Text)
  | refused (reason : Text)
  deriving DecidableEq

namespace Failure

/-- The sentence for a failure. -/
def message : Failure → String
  | io fault => "IO error: " ++ fault.message ++ "."
  | walk path fault =>
    "Failed to walk directory. Original error: IO error for operation on " ++ String.ofList path ++ ": "
      ++ fault.message
  | settingsSyntax document fault =>
    "Failed to parse settings document. Original error: " ++ fault.message document
  | settingsShape misshape => "Failed to parse settings document. Original error: " ++ misshape.message
  | rootNotObject found =>
    "Settings document root must be an object, found " ++ found.phrase ++ "."
  | noPlaceholderSection => "Settings document must contain a 'placeholder' section."
  | notAnObject key path =>
    "Invalid structure for path '" ++ String.ofList path ++ "': expected an object at key '"
      ++ String.ofList key ++ "'."
  | unknownPath path => "Path '" ++ String.ofList path ++ "' not found in settings document."
  | notSubstitutable path found =>
    "Value at path '" ++ String.ofList path ++ "' is " ++ found.phrase
      ++ ", expected a string, number or boolean."
  | lengthNotPositive length => "Random string length must be positive, got " ++ toString length ++ "."
  | nameNotUtf8 name => "Path '" ++ String.ofList name ++ "' contains invalid Unicode characters."
  | noDirectory path => "The provided path is not a directory: '" ++ String.ofList path ++ "'."
  | refused reason => String.ofList reason

/-- The line that goes to the error log when settings cannot answer. -/
def diagnosis : Failure → Option String
  | rootNotObject found =>
    some ("Settings document root must be an object, found " ++ found.phrase)
  | unknownPath path =>
    some ("Failed to retrieve path [" ++ String.ofList path ++ "]: not found in current.")
  | notAnObject key path =>
    some ("Invalid structure for path [" ++ String.ofList path ++ "]: expected an object at key ["
      ++ String.ofList key ++ "]")
  | notSubstitutable path found =>
    some ("Value at path [" ++ String.ofList path ++ "] is " ++ found.phrase ++
      " and cannot be substituted")
  | _ => none

end Failure

end ServerPack
