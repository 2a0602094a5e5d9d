import ServerPack.Placeholder.Basic

/-!
Finding placeholders. A path is a non-empty run of characters other than `)`. Occurrences of one
form are found from the left without overlap. A text form that lies inside an occurrence of the
number form belongs to that one and does not count on its own. `occurringIn` gives the set of all
placeholders of a body.
-/

namespace ServerPack

/-- A path at a place in a body: the numbers of characters before it begins and before it ends. -/
structure Occurrence where
  path : Text
  start : Nat
  stop : Nat
  deriving DecidableEq

/-- The first lies inside the second. -/
def Occurrence.inside (inner outer : Occurrence) : Bool :=
  outer.start ≤ inner.start && inner.stop ≤ outer.stop

namespace Form

/-- The path of the placeholder of this form with which a text begins. -/
def pathAt? (form : Form) (text : Text) : Option Text :=
  if form.opening.isPrefixOf text then
    let rest := text.drop form.opening.length
    let path := rest.takeWhile (· ≠ ')')
    if path ≠ [] ∧ form.closing.isPrefixOf (rest.dropWhile (· ≠ ')')) then some path else none
  else none

/-- The number of characters of a placeholder with this path. -/
def width (form : Form) (path : Text) : Nat := form.opening.length + path.length + form.closing.length

/-- The occurrences in the rest of a body, `start` characters into it and with the next `skip`
characters taken by the occurrence before. -/
def occurrencesFrom (form : Form) : (start skip : Nat) → Text → List Occurrence
  | _, _, [] => []
  | start, skip + 1, _ :: rest => occurrencesFrom form (start + 1) skip rest
  | start, 0, c :: rest =>
    match form.pathAt? (c :: rest) with
    | some path =>
      ⟨path, start, start + form.width path⟩ :: occurrencesFrom form (start + 1) (form.width path - 1) rest
    | none => occurrencesFrom form (start + 1) 0 rest

/-- The occurrences of placeholders of this form in a body, from the left and without overlap. -/
def occurrences (form : Form) (body : Text) : List Occurrence := form.occurrencesFrom 0 0 body

end Form

namespace Placeholder

/-- The placeholders of a body, as an ordered set. -/
def occurringIn (body : Text) : List Placeholder :=
  let numbers := Form.number.occurrences body
  let texts := (Form.text.occurrences body).filter fun text => !numbers.any text.inside
  Dictionary.distinct (numbers.map (⟨·.path, .number⟩) ++ texts.map (⟨·.path, .text⟩))

end Placeholder

end ServerPack
