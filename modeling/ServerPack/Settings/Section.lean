import ServerPack.Failure
import ServerPack.Json.Reader

/-!
The shape of the placeholder section of a settings document: an object with a field `data` that is
an object and a field `suffixes` that is an array of strings and may be missing. An array may stand
for it, with the fields in that order. Fields are checked in key order and other fields are not
looked at.
-/

namespace ServerPack.Settings

open Json (Found)

/-- What a value is called where a value of another type should be. -/
def foundOf : Json → Found
  | .null => .null
  | .bool value => .boolean value
  | .number _ => .number
  | .string text => .string text
  | .array _ => .sequence
  | .object _ => .map

/-- The complaint about a value of the wrong type. -/
def mistyped {α : Type} (value : Json) (expected : String) : Except Misshape α :=
  .error (.wrongType (foundOf value) expected)

/-- An object that begins with the key of numbers and goes on is neither a number nor an object. -/
def checkNumberObject (value : Json) (length : Nat) : Except Misshape Unit :=
  match value with
  | .string text =>
    match Json.Number.read text with
    | .ok _ => .error (.wrongLength length "fewer elements in map")
    | .error fault => .error (.notANumber fault)
  | value => mistyped value "string containing a number"

mutual

/-- A value anywhere below `data`: all is well unless some object begins with the key of numbers. -/
def checkValue : Json → Except Misshape Unit
  | .array items => checkItems items
  | .object [] => .ok ()
  | .object ((key, value) :: rest) =>
    if key = Json.numberKey then checkNumberObject value (rest.length + 1)
    else do
      checkValue value
      checkMembers rest
  | _ => .ok ()

/-- The elements of an array below `data`. -/
def checkItems : List Json → Except Misshape Unit
  | [] => .ok ()
  | item :: rest => do
    checkValue item
    checkItems rest

/-- The members of an object. -/
def checkMembers : List (Text × Json) → Except Misshape Unit
  | [] => .ok ()
  | (_, value) :: rest => do
    checkValue value
    checkMembers rest

end

/-- The field `data`. -/
def checkData : Json → Except Misshape Unit
  | .object members => checkMembers members
  | value => mistyped value "a map"

/-- An element of `suffixes`. -/
def readSuffix : Json → Except Misshape Text
  | .string text => .ok text
  | value => mistyped value "a string"

/-- The field `suffixes`. -/
def readSuffixes : Json → Except Misshape (List Text)
  | .array items => items.mapM readSuffix
  | value => mistyped value "a sequence"

/-- The suffixes of a section of the right shape. -/
def readSection : Json → Except Misshape (List Text)
  | .object fields => do
    let data := Dictionary.get? "data".toList fields
    (data.map checkData).getD (.ok ())
    let suffixes ← ((Dictionary.get? "suffixes".toList fields).map readSuffixes).getD (.ok [])
    if data.isNone then .error (.missingField "data") else .ok suffixes
  | .array [] => .error (.wrongLength 0 "struct PlaceholderSection with 2 elements")
  | .array [data] => do
    checkData data
    .ok []
  | .array (data :: suffixes :: more) => do
    checkData data
    let suffixes ← readSuffixes suffixes
    if more.isEmpty then .ok suffixes
    else .error (.wrongLength (more.length + 2) "fewer elements in array")
  | value => mistyped value "struct PlaceholderSection"

end ServerPack.Settings
