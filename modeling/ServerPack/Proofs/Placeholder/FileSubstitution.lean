import ServerPack.Proofs.Build.LogIndependence
import ServerPack.Proofs.FileSystem.Overwrite

/-!
What a substitution does to a file that is there. `Document.resolveFrom` gives the values of paths
and the randomness that is left, `fill` the body with these values. A run on a file that can be read
resolves first and writes then; whether it writes after each path or once at the end, the file holds
the same afterwards and nothing else has changed (`outcome_run`). So the outcome for one file is an
equation without the mode in it (`outcome_substituteFile`).
-/

namespace ServerPack

open ServerPack.Action (outcome_bind)

/-- The body with the values of resolved paths in place of their placeholders, path by path. -/
def fill (resolved : List Resolved) (body : Text) : Text := resolved.foldl Resolved.replaceIn body

namespace Settings.Document

/-- The value of a path and the randomness that is left. -/
def valueFrom (document : Document) (path : Text) (randomness : RandomSource) :
    Except Failure Text × RandomSource :=
  match document.value path with
  | .ok (.text text) => (.ok text, randomness)
  | .ok .secret => (.ok (randomness.take secretLength).1, (randomness.take secretLength).2)
  | .error failure => (.error failure, randomness)

/-- The values of paths, one after the other up to the first failure, and the randomness that is
left. -/
def resolveFrom (document : Document) : List (Text × List Form) → RandomSource →
    Except Failure (List Resolved) × RandomSource
  | [], randomness => (.ok [], randomness)
  | (path, forms) :: rest, randomness =>
    match document.valueFrom path randomness with
    | (.ok value, randomness) =>
      match resolveFrom document rest randomness with
      | (.ok resolved, randomness) => (.ok (⟨path, forms, value⟩ :: resolved), randomness)
      | (.error failure, randomness) => (.error failure, randomness)
    | (.error failure, randomness) => (.error failure, randomness)

theorem outcome_resolve (document : Document) (path : Text) (session : Session) :
    (document.resolve path).outcome session =
      ((document.valueFrom path session.randomness).1,
        { session.silent with randomness := (document.valueFrom path session.randomness).2 }) := by
  rw [resolve, valueFrom, Action.outcome]
  cases hvalue : document.value path with
  | error failure =>
      rw [Action.ofExcept]
      cases failure.diagnosis <;> rfl
  | ok value => cases value <;> rfl

theorem outcome_resolveAll (document : Document) (placeholders : List Placeholder) (session : Session) :
    (Substitution.resolveAll (m := Action) document.resolve placeholders).outcome session =
      ((document.resolveFrom (Placeholder.byPath placeholders) session.randomness).1,
        { session.silent with
          randomness := (document.resolveFrom
            (Placeholder.byPath placeholders) session.randomness).2 }) := by
  rw [Substitution.resolveAll]
  generalize Placeholder.byPath placeholders = paths
  have hquiet : ∀ paths : List (Text × List Form),
      (paths.mapM (Substitution.resolveEntry (m := Action) document.resolve)).Quiet :=
    fun _ => .mapM fun _ _ => .bind (quiet_resolve document _) fun _ => .pure _
  induction paths generalizing session with
  | nil => rfl
  | cons entry rest ih =>
      rw [List.mapM_cons, outcome_bind fun _ => .bind (hquiet rest) fun _ => .pure _,
        Substitution.resolveEntry, outcome_bind fun _ => .pure _, outcome_resolve, resolveFrom]
      rcases document.valueFrom entry.1 session.randomness with ⟨_ | value, randomness⟩
      · rfl
      · dsimp only
        rw [Action.outcome_pure]
        dsimp only
        rw [outcome_bind fun _ => .pure _, ih]
        dsimp only [Session.silent]
        rcases document.resolveFrom rest randomness with ⟨_ | resolved, randomness'⟩ <;> rfl

end Settings.Document

/-- The session without its log, after a text has been written to the file at a location. -/
def Session.rewritten (session : Session) (location : Location) (text : Text) : Session :=
  { session.silent with files := session.files.put location (.file (.plain (Utf8.encode text))) }

@[simp] theorem Session.rewritten_rewritten (session : Session) (location : Location) (text text' : Text) :
    (session.rewritten location text).rewritten location text' = session.rewritten location text' := by
  simp [rewritten, silent]

variable {path : Path} {location : Location} {content : Content} {session : Session}

theorem FileSystem.HoldsFile.rewritten (h : session.files.HoldsFile path location content) (text : Text) :
    (session.rewritten location text).files.HoldsFile path location (.plain (Utf8.encode text)) := by
  have hholds := h.put (.plain (Utf8.encode text)) h
  rwa [if_pos rfl] at hholds

open FileSystem (HoldsFile)

theorem outcome_persistTo (h : session.files.HoldsFile path location content) (text : Text) :
    (Build.persistTo path text).outcome session = (.ok (), session.rewritten location text) := by
  have hsilent : session.silent.files.HoldsFile path location content := h
  have hwrite : (Files.writeText path text).perform session.silent =
      (.ok (), session.rewritten location text) :=
    hsilent.perform_writeText text
  rw [Build.persistTo, Action.outcome_log_bind (Files.quiet_writeText path text),
    ← Files.quiet_writeText path text, Action.outcome, hwrite]
  rfl

namespace Substitution

/-- Path by path the file is written only in the one mode, and then it holds the last body. -/
theorem outcome_replaceEach (mode : WriteMode) (h : session.files.HoldsFile path location content)
    (resolved : List Resolved) (body : Text) :
    (replaceEach (m := Action) mode (Build.persistTo path) resolved body).outcome session =
      (.ok (fill resolved body),
        if mode = .perPlaceholder ∧ resolved ≠ [] then session.rewritten location (fill resolved body)
        else session.silent) := by
  induction resolved generalizing session content body with
  | nil => simp [replaceEach, fill]
  | cons first rest ih =>
      have hrest : ∀ body, (replaceEach (m := Action) mode
          (Build.persistTo path) rest body).Quiet := fun body =>
        quiet_replaceEach mode (Build.quiet_persistTo path) rest body
      rw [replaceEach]
      dsimp only
      by_cases hmode : mode = .perPlaceholder
      · rw [if_pos hmode]
        refine (Action.outcome_log_bind (.bind (Build.quiet_persistTo path _) fun _ => hrest _)
          session).trans ?_
        rw [Action.outcome_bind_of_ok (fun _ => hrest _) (outcome_persistTo h _), ih (h.rewritten _)]
        by_cases hnil : rest = []
        · subst hnil
          simp [hmode, fill, Session.rewritten, Session.silent]
        · simp [hmode, hnil, fill]
      · rw [if_neg hmode]
        refine (Action.outcome_log_bind (hrest _) session).trans ?_
        rw [ih h]
        simp [hmode, fill]

/-- The text with the placeholders of a body replaced and the session, without its log, in which the
file at a location has been rewritten. -/
def substituted (document : Settings.Document) (session : Session) (location : Location) (body : Text) :
    Except Failure Text × Session :=
  match document.resolveFrom (Placeholder.byPath (Placeholder.occurringIn body)) session.randomness with
  | (.ok resolved, randomness) =>
    (.ok (fill resolved body),
      if resolved = [] then { session.silent with randomness }
      else { session.rewritten location (fill resolved body) with randomness })
  | (.error failure, randomness) => (.error failure, { session.silent with randomness })

theorem silent_substituted (document : Settings.Document) (session : Session) (location : Location)
    (body : Text) :
    (substituted document session location body).2.silent =
      (substituted document session location body).2 := by
  rw [substituted]
  rcases document.resolveFrom _ _ with ⟨_ | _, _⟩
  · rfl
  · dsimp only
    split <;> rfl

/-- A run writes the file at most once in effect, whatever the mode, and not at all if a path has no
value. -/
theorem outcome_run (mode : WriteMode) (document : Settings.Document)
    (h : session.files.HoldsFile path location content) (body : Text) :
    (run (m := Action) mode document.resolve (Build.persistTo path)
      (Placeholder.occurringIn body) body).outcome
      session = substituted document session location body := by
  have hpersist := Build.quiet_persistTo path
  have hreplace := fun resolved => quiet_replaceEach mode hpersist resolved body
  have hend : ∀ resolved : List Resolved, ∀ body,
      ((if mode = .once ∧ resolved ≠ [] then do Build.persistTo path body; return body
        else return body : Action Text)).Quiet := by
    intro resolved body
    split
    · exact .bind (hpersist body) fun _ => .pure _
    · exact .pure _
  rw [run, substituted]
  refine (outcome_bind (fun resolved => .bind (hreplace resolved) (hend resolved)) session).trans ?_
  rw [Settings.Document.outcome_resolveAll]
  rcases document.resolveFrom (Placeholder.byPath (Placeholder.occurringIn body)) session.randomness with
    ⟨failure | resolved, randomness⟩
  · rfl
  dsimp only
  have hholds : ({ session.silent with randomness } : Session).files.HoldsFile path location content := h
  refine (Action.outcome_bind_of_ok (hend resolved)
    (outcome_replaceEach mode hholds resolved body)).trans ?_
  by_cases hnil : resolved = []
  · subst hnil
    simp [Session.silent]
  cases mode with
  | perPlaceholder => simp [hnil, Session.silent, Session.rewritten]
  | once =>
      simp only [hnil, ne_eq, not_false_eq_true, and_true, if_true]
      exact (Action.outcome_bind_of_ok (fun _ => .pure _) (outcome_persistTo hholds _)).trans
        (by simp [Session.silent, Session.rewritten])

end Substitution

/-- The text in the file at the end of a path. -/
def FileSystem.textAt (files : FileSystem) (path : Path) : Except IoFault Text :=
  match files.readContent path with
  | .ok content =>
    match Utf8.decode? content.bytes with
    | some text => .ok text
    | none => .error .invalidUtf8
  | .error fault => .error fault

theorem outcome_readText (path : Path) (session : Session) :
    (Files.readText path).outcome session = ((session.files.textAt path).mapError .io, session.silent) := by
  rw [Files.readText, FileSystem.textAt, Action.outcome, Action.perform_bind, Action.perform_ask]
  cases session.files.readContent path with
  | error fault => rfl
  | ok content =>
      dsimp only
      cases Utf8.decode? content.bytes <;> rfl

theorem perform_readText {text : Text} (h : session.files.textAt path = .ok text) :
    (Files.readText path).perform session = (.ok text, session) := by
  rw [FileSystem.textAt] at h
  rw [Files.readText, Action.perform_bind, Action.perform_ask]
  cases hread : session.files.readContent path with
  | error fault =>
      rw [hread] at h
      cases h
  | ok content =>
      rw [hread] at h
      dsimp only at h ⊢
      cases hdecode : Utf8.decode? content.bytes with
      | none =>
          rw [hdecode] at h
          cases h
      | some decoded =>
          rw [hdecode] at h
          cases h
          rfl

theorem FileSystem.HoldsFile.textAt {files : FileSystem} (h : files.HoldsFile path location content) :
    files.textAt path =
      match Utf8.decode? content.bytes with
      | some text => .ok text
      | none => .error .invalidUtf8 := by
  have hlookup : files.lookup .target path = .ok (location, .file content) := h
  rw [FileSystem.textAt, FileSystem.readContent, hlookup]
  rfl

theorem FileSystem.exists_holdsFile_of_textAt {files : FileSystem} {text : Text}
    (h : files.textAt path = .ok text) :
    ∃ location content, files.HoldsFile path location content ∧ Utf8.decode? content.bytes = some text := by
  rw [textAt, readContent] at h
  rcases hlookup : files.lookup .target path with fault | ⟨location, node⟩
  · rw [hlookup] at h
    cases h
  rw [hlookup] at h
  cases node with
  | directory => cases h
  | link aim => cases h
  | file content =>
      refine ⟨location, content, hlookup, ?_⟩
      change (match Utf8.decode? content.bytes with
        | some text => .ok text
        | none => .error .invalidUtf8 : Except IoFault Text) = _ at h
      split at h
      · cases h
        assumption
      · cases h

/-- Settings are resolved against themselves with the same outcome in both modes. -/
theorem outcome_expand (mode : WriteMode) (h : session.files.HoldsFile path location content) (raw : Text) :
    (Settings.expand (m := Action) mode (Build.persistTo path) raw).outcome session =
      match Settings.parse raw with
      | .ok document => Substitution.substituted document session location raw
      | .error failure => (.error failure, session.silent) := by
  have hrun := fun document : Settings.Document =>
    Substitution.quiet_run mode (Settings.quiet_resolve document) (Build.quiet_persistTo path)
      (Placeholder.occurringIn raw) raw
  have hparse := Action.outcome_ofExcept (Settings.parse raw) session
  rw [Settings.expand]
  cases hdocument : Settings.parse raw with
  | error failure =>
      rw [hdocument] at hparse
      exact Action.outcome_bind_of_error hparse
  | ok document =>
      have hparsed : (Action.ofExcept (.ok document)).perform session = (.ok document, session) := rfl
      refine (Action.outcome_bind_of_perform hparsed).trans ?_
      refine (Action.outcome_bind_of_perform rfl).trans ?_
      refine (Action.outcome_bind_of_perform rfl).trans ?_
      refine ((hrun document).outcome_eq session ?_).trans (Substitution.outcome_run mode document h raw)
      rfl

/-- What becomes of a file when its placeholders are replaced. -/
theorem outcome_substituteFile (mode : WriteMode) (document : Settings.Document)
    (h : session.files.HoldsFile path location content) :
    (Build.substituteFile mode document.resolve path).outcome session =
      match Utf8.decode? content.bytes with
      | some body =>
        match Substitution.substituted document session location body with
        | (.ok _, after) => (.ok (Placeholder.occurringIn body).length, after)
        | (.error failure, after) => (.error failure, after)
      | none => (.error (.io .invalidUtf8), session.silent) := by
  have htext := h.textAt
  rw [Build.substituteFile]
  cases hdecode : Utf8.decode? content.bytes with
  | none =>
      rw [hdecode] at htext
      refine Action.outcome_bind_of_error ?_
      rw [outcome_readText, htext]
      rfl
  | some body =>
      have hrun := Substitution.quiet_run mode (Settings.quiet_resolve document)
        (Build.quiet_persistTo path) (Placeholder.occurringIn body) body
      rw [hdecode] at htext
      refine (Action.outcome_bind_of_perform (perform_readText htext)).trans ?_
      refine (Action.outcome_bind_of_perform rfl).trans ?_
      dsimp only
      by_cases hempty : Placeholder.occurringIn body = []
      · simp only [hempty, List.isEmpty_nil, if_true, Substitution.substituted, Placeholder.byPath,
          Settings.Document.resolveFrom]
        rfl
      · rw [if_neg (by simpa using hempty)]
        refine (Action.outcome_bind_of_perform rfl).trans ?_
        refine (outcome_bind (fun _ => .pure _) _).trans ?_
        rw [hrun.outcome_eq session ?_, Substitution.outcome_run mode document h body]
        · have hsilent := Substitution.silent_substituted document session location body
          rcases hsubstituted : Substitution.substituted document session location body with ⟨_ | _, after⟩
          · rfl
          · rw [hsubstituted] at hsilent
            exact congrArg _ hsilent
        · rfl

end ServerPack
