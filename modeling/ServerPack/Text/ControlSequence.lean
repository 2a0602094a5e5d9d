import ServerPack.Text.Utf8

/-!
Text for a reader that is no terminal. Control sequences begin with an escape character and tell a
terminal how to show what follows; `withoutControls` leaves them out, and with them every control
character but tab, line feed, form feed and carriage return, the blank controls.

The machine reads one character after another. A blank control in the middle of a sequence is shown,
and so is what follows it up to the next other control, with which the sequence goes on. A sequence
that is never finished takes everything behind it.
-/

namespace ServerPack.Text

/-- What is being read: plain text, or a part of a control sequence. Parametric sequences end with a
letter, device strings and private strings with the byte 0x9C, which may be a part of a longer
character, and command strings with the bell. -/
inductive ControlStage where
  | text
  | escape
  | escapeIntermediate
  | parametric
  | parametricParameter
  | parametricIntermediate
  | parametricIgnored
  | device
  | deviceParameter
  | deviceIntermediate
  | deviceString
  | privateString
  | commandString
  deriving DecidableEq

/-- The controls that are shown. -/
def isBlankControl (c : Char) : Bool := c = '\t' || c = '\n' || c = '\x0c' || c = '\r'

/-- The characters that are no controls. -/
def isGraphic (c : Char) : Bool := 0x20 ≤ c.toNat && c.toNat ≠ 0x7F

namespace ControlStage

/-- Controls act in the middle of what is being read and are not a part of it. -/
def lets : ControlStage → Bool
  | text | escape | escapeIntermediate | parametric | parametricParameter | parametricIntermediate
  | parametricIgnored => true
  | device | deviceParameter | deviceIntermediate | deviceString | privateString | commandString => false

/-- The stage after an ASCII character that is no control. -/
def afterGraphic (stage : ControlStage) (c : Char) : ControlStage :=
  let isIntermediate : Bool := c.toNat < 0x30
  let isParameter : Bool := c.toNat < 0x3C
  let isPrivate : Bool := c.toNat < 0x40
  match stage with
  | text => text
  | escape =>
    if isIntermediate then escapeIntermediate
    else match c with
      | '[' => parametric
      | ']' => commandString
      | 'P' => device
      | 'X' | '^' | '_' => privateString
      | _ => text
  | escapeIntermediate => if isIntermediate then escapeIntermediate else text
  | parametric =>
    if isIntermediate then parametricIntermediate else if isPrivate then parametricParameter else text
  | parametricParameter =>
    if isIntermediate then parametricIntermediate
    else if isParameter then parametricParameter
    else if isPrivate then parametricIgnored
    else text
  | parametricIntermediate =>
    if isIntermediate then parametricIntermediate else if isPrivate then parametricIgnored else text
  | parametricIgnored => if isPrivate then parametricIgnored else text
  | device =>
    if isIntermediate then deviceIntermediate else if isPrivate then deviceParameter else deviceString
  | deviceParameter =>
    if isIntermediate then deviceIntermediate
    else if isParameter then deviceParameter
    else deviceString
  | deviceIntermediate => if isIntermediate then deviceIntermediate else deviceString
  | deviceString => deviceString
  | privateString => privateString
  | commandString => commandString

/-- The stage after a character that is not shown. -/
def after (stage : ControlStage) (c : Char) : ControlStage :=
  if c = '\x18' ∨ c = '\x1a' then text
  else if c = '\x1b' then escape
  else if 0x80 ≤ c.toNat then
    match stage with
    | deviceString | privateString => if (Utf8.encode [c]).contains 0x9C then text else stage
    | _ => stage
  else if isGraphic c then stage.afterGraphic c
  else if c = '\x07' ∧ stage = commandString then text
  else stage

end ControlStage

/-- The machine: whether the character before was shown, and the stage. -/
structure ControlReader where
  shown : Bool := false
  stage : ControlStage := .text
  deriving DecidableEq

/-- The machine after one more character, which is shown if `shown` then holds. -/
def ControlReader.step (reader : ControlReader) (c : Char) : ControlReader :=
  if isBlankControl c ∧ reader.stage.lets ∨ isGraphic c ∧ (reader.shown ∨ reader.stage = .text) then
    ⟨true, if 0x80 ≤ c.toNat then .text else reader.stage⟩
  else ⟨false, reader.stage.after c⟩

/-- The characters of the rest of a text that are shown. -/
def shownFrom (reader : ControlReader) : Text → Text
  | [] => []
  | c :: rest =>
    let reader := reader.step c
    if reader.shown then c :: shownFrom reader rest else shownFrom reader rest

/-- The text without control sequences and without controls other than blank ones. -/
def withoutControls (text : Text) : Text := shownFrom {} text

/-- What is shown is in the text. -/
theorem shownFrom_sublist (reader : ControlReader) (text : Text) :
    (shownFrom reader text).Sublist text := by
  induction text generalizing reader with
  | nil => exact List.Sublist.slnil
  | cons c rest ih =>
    rw [shownFrom]
    split
    · exact (ih _).cons_cons c
    · exact (ih _).cons c

/-- A text without controls is shown as it is. -/
theorem withoutControls_eq_self {text : Text} (h : ∀ c ∈ text, isGraphic c ∨ isBlankControl c) :
    withoutControls text = text := by
  suffices ∀ reader : ControlReader, reader.stage = .text → shownFrom reader text = text from this _ rfl
  induction text with
  | nil => intros; rfl
  | cons c rest ih =>
    intro reader hstage
    have hc : isBlankControl c ∨ isGraphic c := (h c (by simp)).symm
    have hstep : reader.step c = ⟨true, .text⟩ := by
      simp [ControlReader.step, hstage, ControlStage.lets, hc]
    rw [shownFrom, hstep]
    exact congrArg (c :: ·) (ih (fun d hd => h d (by simp [hd])) _ rfl)

example : withoutControls ['a', '\x1b', '[', '3', '1', 'm', 'b', '\x07', 'c'] = ['a', 'b', 'c'] := by decide
example : withoutControls ['a', '\x1b', ']', 'b', '\n'] = ['a'] := by decide

end ServerPack.Text
