import ServerPack.Text.Basic
import ServerPack.Text.Printable

/-!
Quoted text, as messages show a string that was found where something else was expected: between
double quotes, with a backslash before quotes and backslashes, short escapes for four controls, and
the code point in hexadecimal for every other character that cannot be shown as itself. An
apostrophe is left alone.
-/

namespace ServerPack.Text

/-- The digits of a number in lower case hexadecimal. -/
def hexadecimal (n : Nat) : Text := Nat.toDigits 16 n

/-- A character as it stands between the quotes. -/
def escaped (c : Char) : Text :=
  if c = '"' then ['\\', '"']
  else if c = '\\' then ['\\', '\\']
  else if c = '\n' then ['\\', 'n']
  else if c = '\r' then ['\\', 'r']
  else if c = '\t' then ['\\', 't']
  else if c = '\x00' then ['\\', '0']
  else if isPlain c then [c]
  else ['\\', 'u', '\x7b'] ++ hexadecimal c.toNat ++ ['\x7d']

/-- A text between double quotes, with escapes. -/
def quoted (text : Text) : Text := '"' :: text.flatMap escaped ++ ['"']

end ServerPack.Text
