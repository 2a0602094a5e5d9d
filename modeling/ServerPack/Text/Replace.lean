import ServerPack.Text.Basic

/-!
Literal replacement. `replaceAll pattern value body` goes through `body` from the left, writes
`value` for each occurrence of the non-empty `pattern` and goes on behind it, so occurrences never
overlap and a value is never looked at again.
-/

namespace ServerPack.Text

/-- `replaceAll` inside a body whose next `skip` characters belong to an occurrence already
replaced. -/
def replaceFrom (pattern value : Text) : (skip : Nat) → Text → Text
  | _, [] => []
  | skip + 1, _ :: rest => replaceFrom pattern value skip rest
  | 0, c :: rest =>
    if pattern.isPrefixOf (c :: rest) then value ++ replaceFrom pattern value (pattern.length - 1) rest
    else c :: replaceFrom pattern value 0 rest

/-- The body with every occurrence of a non-empty pattern replaced, from the left and without
overlap. -/
def replaceAll (pattern value body : Text) : Text := replaceFrom pattern value 0 body

example : replaceAll ['a', 'a'] ['b', 'a'] ['a', 'a', 'a', 'c', 'a', 'a'] =
    ['b', 'a', 'a', 'c', 'b', 'a'] := by decide

end ServerPack.Text
