import ServerPack.Dictionary
import ServerPack.Text.Basic

/-!
Placeholders: a path and the form in which it is written. The text form is `$(mcp.path)`; the number
form is `"$(mcp.path)(number)"`, quotes included, so that a number can take the place of a string.
Sets of placeholders are ordered by path and, for one path, by form with the number form first.
-/

namespace ServerPack

/-- The two written forms. -/
inductive Form where
  | number
  | text
  deriving DecidableEq

/-- What stands before the path. -/
def Form.opening : Form → Text
  | .number => "\"$(mcp.".toList
  | .text => "$(mcp.".toList

/-- What stands behind the path. -/
def Form.closing : Form → Text
  | .number => ")(number)\"".toList
  | .text => ")".toList

/-- The number form comes before the text form. -/
instance : LT Form := ⟨fun a b => a = .number ∧ b = .text⟩

instance : DecidableLT Form := fun a b => inferInstanceAs (Decidable (a = .number ∧ b = .text))

/-- A placeholder. -/
structure Placeholder where
  path : Text
  form : Form
  deriving DecidableEq

namespace Placeholder

/-- The literal that stands for a placeholder in a body. -/
def literal (placeholder : Placeholder) : Text :=
  placeholder.form.opening ++ placeholder.path ++ placeholder.form.closing

/-- Placeholders are ordered by path, then by form. -/
instance : LT Placeholder := ⟨fun a b => a.path < b.path ∨ a.path = b.path ∧ a.form < b.form⟩

instance : DecidableLT Placeholder :=
  fun a b => inferInstanceAs (Decidable (a.path < b.path ∨ a.path = b.path ∧ a.form < b.form))

/-- The placeholders of an ordered set by path: each path with its forms, in the same order. -/
def byPath : List Placeholder → List (Text × List Form)
  | [] => []
  | placeholder :: rest =>
    match byPath rest with
    | (path, forms) :: more =>
      if path = placeholder.path then (path, placeholder.form :: forms) :: more
      else (placeholder.path, [placeholder.form]) :: (path, forms) :: more
    | [] => [(placeholder.path, [placeholder.form])]

end Placeholder

end ServerPack
