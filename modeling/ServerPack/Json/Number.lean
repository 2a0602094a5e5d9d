import ServerPack.Json.Fault

/-!
The spelling of numbers, as a machine over characters: an optional minus, an integer part without
leading zeros, an optional fraction and an optional exponent. `Stage.next` says which characters may
follow, `Stage.complete` where a number may end. `Number.read` reads a text that is a number and
nothing else.
-/

namespace ServerPack.Json.Number

/-- How far a number has been read. -/
inductive Stage where
  | minus
  | zero
  | integer
  | point
  | fraction
  | exponent
  | exponentSign
  | exponentDigits
  deriving DecidableEq

/-- The stage after the first character of a number. -/
def Stage.first (c : Char) : Option Stage :=
  if c = '-' then some .minus
  else if c = '0' then some .zero
  else if c.isDigit then some .integer
  else none

/-- The stage after one more character, if the number goes on with it. -/
def Stage.next (stage : Stage) (c : Char) : Option Stage :=
  let digits (after : Stage) : Option Stage := if c.isDigit then some after else none
  let exponentOr (other : Option Stage) : Option Stage :=
    if c = 'e' ∨ c = 'E' then some .exponent else other
  let pointOr (other : Option Stage) : Option Stage := if c = '.' then some .point else other
  match stage with
  | .minus => if c = '0' then some .zero else digits .integer
  | .zero => pointOr (exponentOr none)
  | .integer => pointOr (exponentOr (digits .integer))
  | .point => digits .fraction
  | .fraction => exponentOr (digits .fraction)
  | .exponent => if c = '+' ∨ c = '-' then some .exponentSign else digits .exponentDigits
  | .exponentSign => digits .exponentDigits
  | .exponentDigits => digits .exponentDigits

/-- A number may end here. -/
def Stage.complete : Stage → Bool
  | .zero | .integer | .fraction | .exponentDigits => true
  | .minus | .point | .exponent | .exponentSign => false

/-- A character that does not go on with the number is taken before it is seen to be wrong. -/
def Stage.takesNext : Stage → Bool
  | .minus | .exponent | .exponentSign => true
  | .zero | .integer | .point | .fraction | .exponentDigits => false

/-- The spelling that is kept: the number `-0` is zero, every other spelling stays. -/
def keep (spelling : Text) : Text := if spelling = ['-', '0'] then ['0'] else spelling

/-- Goes through the rest of a number that has to fill its text, of which `left` bytes are
unread. -/
def readFrom (stage : Stage) (left : Nat) : Text → Except (Problem × Nat) Unit
  | [] => if stage.complete then .ok () else .error (.endInValue, 0)
  | c :: rest =>
    match stage.next c with
    | some stage => readFrom stage (left - c.utf8Size) rest
    | none => .error (.invalidNumber, if stage.takesNext then left - 2 else left - 1)

/-- The number that a text is the spelling of, or what is wrong with it. -/
def read (text : Text) : Except Fault Text :=
  let checked : Except (Problem × Nat) Unit :=
    match text with
    | [] => .error (.endInValue, 0)
    | c :: rest =>
      match Stage.first c with
      | some stage => readFrom stage (Utf8.size rest) rest
      | none => .error (.invalidNumber, Utf8.size text - 1)
  match checked with
  | .ok () => .ok (keep text)
  | .error (problem, left) => .error ⟨problem, left, some text⟩

/-- A spelling as it is found where a string should be: an integer if it is one of 64 bits, signed
or not. -/
def found (spelling : Text) : Found :=
  let digits := spelling.dropWhile (· = '-')
  let magnitude : Nat := digits.foldl (fun n c => n * 10 + (c.toNat - 48)) 0
  if !digits.all Char.isDigit then .number
  else if digits.length < spelling.length then
    if magnitude ≤ 0x8000000000000000 then .integer (-(magnitude : Int)) else .number
  else if magnitude < 0x10000000000000000 then .integer magnitude else .number

example : (read ['1', '.', '5', '0', 'e', '-', '3']).toOption = some
    ['1', '.', '5', '0', 'e', '-', '3'] := by
  decide
example : (read ['0', '1']).toOption = none := by decide

end ServerPack.Json.Number
