import ServerPack.Placeholder.Occurrence
import ServerPack.Session
import ServerPack.Text.Replace

/-!
Substitution. Every path of a set of placeholders is resolved once, in increasing order and before
anything is replaced, so a path that cannot be resolved leaves the body as it was. Then path by path
the number form and after it the text form are replaced by the resolved value. The body so far is
persisted after every path or the final body once; with no path nothing is persisted.
-/

namespace ServerPack

/-- When a substituted body is persisted. -/
inductive WriteMode where
  | perPlaceholder
  | once
  deriving DecidableEq

/-- The name of a mode on the command line. -/
def WriteMode.name : WriteMode → Text
  | .perPlaceholder => "per-placeholder".toList
  | .once => "once".toList

/-- A path, the forms in which it is written and the value that takes their place. -/
structure Resolved where
  path : Text
  forms : List Form
  value : Text
  deriving DecidableEq

namespace Resolved

/-- The body with every form of the path replaced. -/
def replaceIn (body : Text) (resolved : Resolved) : Text :=
  resolved.forms.foldl (fun body form => Text.replaceAll (Placeholder.literal ⟨resolved.path, form⟩)
    resolved.value body) body

end Resolved

namespace Substitution

variable {m : Type → Type} [Monad m] [MonadLiftT Action m]

/-- A path with its forms and its value. -/
def resolveEntry (resolve : Text → m Text) (entry : Text × List Form) : m Resolved := do
  return ⟨entry.1, entry.2, ← resolve entry.1⟩

/-- The paths of an ordered set of placeholders with their values. -/
def resolveAll (resolve : Text → m Text) (placeholders : List Placeholder) : m (List Resolved) :=
  (Placeholder.byPath placeholders).mapM (resolveEntry resolve)

/-- Replaces path by path, persisting each body on the way if asked to. -/
def replaceEach (mode : WriteMode) (persist : Text → m Unit) : List Resolved → Text → m Text
  | [], body => pure body
  | resolved :: rest, body => do
    let body := resolved.replaceIn body
    Action.log .debug ("Applied placeholder [" ++ String.ofList resolved.path ++ "]")
    if mode = .perPlaceholder then persist body
    replaceEach mode persist rest body

/-- The body with the placeholders of a set replaced. -/
def run (mode : WriteMode) (resolve : Text → m Text) (persist : Text → m Unit)
    (placeholders : List Placeholder) (body : Text) : m Text := do
  let resolved ← resolveAll resolve placeholders
  let body ← replaceEach mode persist resolved body
  if mode = .once ∧ resolved ≠ [] then persist body
  return body

/-- The placeholders of a body; their number is noted in the log. -/
def find (body : Text) : Action (List Placeholder) := do
  let placeholders := Placeholder.occurringIn body
  Action.log .trace ("Scanned " ++ toString placeholders.length ++ " placeholder(s)")
  return placeholders

end Substitution

end ServerPack
