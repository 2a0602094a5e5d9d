import ServerPack.Placeholder.Substitution
import ServerPack.Settings.Value

/-!
Settings that refer to themselves. `expand` replaces the placeholders in the text of a settings
document by the values that the document itself gives them, once: what a value brings in is not
looked at again. `parseExpanded` reads the result.
-/

namespace ServerPack.Settings

variable {m : Type → Type} [Monad m] [MonadLiftT Action m]

/-- The text of a settings document with its own placeholders replaced. -/
def expand (mode : WriteMode) (persist : Text → m Unit) (raw : Text) : m Text := do
  let document ← (Action.ofExcept (parse raw) : Action Document)
  let placeholders ← (Substitution.find raw : Action (List Placeholder))
  Action.log .debug ("Settings reference " ++ toString placeholders.length ++
    " placeholder(s) of their own")
  Substitution.run mode (fun path => document.resolve path) persist placeholders raw

/-- The document that a text is after it has been resolved against itself. -/
def parseExpanded (raw : Text) : Action Document := do
  let text ← expand (m := Action) .perPlaceholder (fun _ => pure ()) raw
  Action.ofExcept (parse text)

end ServerPack.Settings
