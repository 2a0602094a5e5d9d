import ServerPack.Proofs.Archive.Outcomes
import ServerPack.Proofs.Placeholder.FilledFiles
import ServerPack.Proofs.Text.Utf8

/-!
The settings of a build as a function of the text in the settings file and the randomness at hand
(`outcome_workingSettings`). Whatever they come to, nothing but the working copy is written
(`grows_workingSettings`), and where there are settings they are those of the text, resolved once
against itself (`exists_of_workingSettings`).
-/

namespace ServerPack

/-- What a text of settings comes to that is resolved against itself: the settings or why there are
none, the text of the working copy and the randomness that is left. -/
def Settings.worked (raw : Text) (randomness : RandomSource) :
    Except Failure Document × Text × RandomSource :=
  match expandFrom raw randomness with
  | (.ok text, left) => (parse text, text, left)
  | (.error failure, left) => (.error failure, raw, left)

theorem Action.outcome_forM_log {α : Type} (level : Level) (message : α → String) (l : List α)
    (session : Session) :
    (l.forM fun a => Action.log level (message a)).outcome session = (.ok (), session.silent) := by
  induction l with
  | nil => rfl
  | cons a l ih => exact (outcome_log_bind (.forM fun _ _ => .log _ _) session).trans ih

namespace Build

open FileSystem (Grows Rooted)

variable {session after : Session} {base : Path} {top : Location}
  {result : Except Failure Settings.Document}

/-- The working copy of the settings can be written into the data directory. -/
theorem place_workingCopy (hroot : session.files.Rooted base top) :
    session.files.tree.Place top (Utf8.encode workingCopyName) :=
  ⟨hroot.linkless.directory, plain_workingCopyName, by decide⟩

theorem outcome_persistTo_eq (path : Path) (text : Text) (session : Session) :
    (persistTo path text).outcome session = (Files.writeText path text).outcome session :=
  Action.outcome_log_bind (Files.quiet_writeText path text) session

/-- What is read from the working copy is what it holds. -/
theorem outcome_readWorkingCopy {layout : Layout} {location : Location} {text : Text}
    (hholds : session.files.HoldsFile layout.resolvedSettings location (.plain (Utf8.encode text))) :
    (readWorkingCopy layout).outcome session = (Settings.parse text, session.silent) := by
  have htext : session.files.textAt layout.resolvedSettings = .ok text := by
    rw [hholds.textAt, Content.bytes, Utf8.decode?_encode]
  have hlogs : ∀ document : Settings.Document, (do
      document.secrets.forM fun path =>
        Action.log .debug ("Placeholder [" ++ String.ofList path ++ "] generates a new secret on every use")
      return document : Action Settings.Document).Quiet :=
        fun _ => .bind (.forM fun _ _ => .log _ _) fun _ => .pure _
  rw [readWorkingCopy, Action.outcome_bind_of_perform (perform_readText htext), Action.outcome_bind hlogs,
    Action.outcome_ofExcept]
  rcases Settings.parse text with failure | document
  · rfl
  · dsimp only
    rw [Action.outcome_bind fun _ => .pure _, Action.outcome_forM_log]
    rfl

/-- The settings file is read, its text is written to the working copy, and the working copy holds
in the end what has become of it. -/
theorem outcome_workingSettings (hroot : session.files.Rooted base top) (mode : WriteMode) :
    (workingSettings (.of base) mode).outcome session =
      match session.files.textAt (Layout.of base).settings with
      | .error fault => (.error (.io fault), session.silent)
      | .ok raw =>
        match ((Files.writeText (Layout.of base).resolvedSettings raw).outcome session).1 with
        | .error failure => (.error failure, session.silent)
        | .ok () =>
          match Settings.worked raw session.randomness with
          | (settings, text, randomness) =>
            (settings, { session.silent with
              files := session.files.put (top ++ [Utf8.encode workingCopyName])
                (.file (.plain (Utf8.encode text)))
              randomness }) := by
  have hwithin : Path.Within base ([] ++ [Utf8.encode workingCopyName]) (Layout.of base).resolvedSettings :=
    Path.within_child base plain_workingCopyName
  have hdirectory : session.silent.files.tree.node? (top ++ []) = some .directory := by
    rw [List.append_nil]
    exact hroot.linkless.directory
  have hexpandQuiet : ∀ raw, (do
      let _ ← Settings.expand (m := Action) mode (persistTo (Layout.of base).resolvedSettings) raw
      readWorkingCopy (.of base) : Action Settings.Document).Quiet := fun raw =>
    .bind (Settings.quiet_expand mode (quiet_persistTo _) raw) fun _ => quiet_readWorkingCopy _
  rw [workingSettings_eq, Action.outcome_bind fun raw => .bind (quiet_persistTo _ raw) fun _ =>
    hexpandQuiet raw, outcome_readText]
  rcases session.files.textAt (Layout.of base).settings with fault | raw
  · rfl
  change (persistTo (Layout.of base).resolvedSettings raw >>= fun _ => _).outcome session.silent = _
  rw [Action.outcome_bind fun _ => hexpandQuiet raw, outcome_persistTo_eq]
  dsimp only
  rw [← Files.quiet_writeText _ raw session, Action.outcome]
  rcases hwrite : (Files.writeText (Layout.of base).resolvedSettings raw).perform
    session.silent with ⟨result, written⟩
  rcases Files.writeText_within (show session.silent.files.Rooted base top from hroot) hwithin
    hdirectory hwrite with
    ⟨⟨failure, rfl⟩, rfl⟩ | ⟨rfl, hwritten, -, hholds⟩
  · rfl
  have hholds : written.silent.files.HoldsFile _ _ _ := hholds
  have hexpand := outcome_expand_eq_expandFrom mode hholds
  have hrandomness : written.silent.randomness = session.randomness := by rw [hwritten]; rfl
  dsimp only
  rw [Action.outcome_bind fun _ => quiet_readWorkingCopy _, hexpand, hrandomness, Settings.worked]
  rcases Settings.expandFrom raw session.randomness with ⟨failure | text, left⟩
  · rw [hwritten]
    rfl
  · dsimp only
    have hholds' : ({ written.silent.rewritten _ text with randomness := left } :
        Session).files.HoldsFile _ _ _ :=
      FileSystem.HoldsFile.rewritten hholds text
    rw [outcome_readWorkingCopy hholds', hwritten]
    rw [Session.rewritten]
    simp only [Session.silent, FileSystem.put_put, List.nil_append]

/-- The settings are those of the settings file, resolved once against themselves, and the working
copy is the only file that is written. -/
theorem exists_of_workingSettings (hroot : session.files.Rooted base top) {mode : WriteMode}
    {settings : Settings.Document}
    (h : (workingSettings (.of base) mode).perform session = (.ok settings, after)) :
    ∃ raw text, session.files.textAt (Layout.of base).settings = .ok raw ∧
      Settings.expandFrom raw session.randomness = (.ok text, after.randomness) ∧
      Settings.parse text = .ok settings ∧
      after.files = session.files.put (top ++ [Utf8.encode workingCopyName])
        (.file (.plain (Utf8.encode text))) := by
  have houtcome := outcome_workingSettings hroot mode
  rw [Action.outcome, h] at houtcome
  split at houtcome
  · cases houtcome
  · next raw htext =>
    split at houtcome
    · cases houtcome
    · rcases hexpand : Settings.expandFrom raw session.randomness with ⟨failure | text, left⟩ <;>
        rw [Settings.worked, hexpand] at houtcome
      · cases houtcome
      · obtain ⟨hparse, hafter⟩ := Prod.mk.inj houtcome
        obtain ⟨hfiles, hrandomness, -⟩ := Session.mk.inj hafter
        have hleft : after.randomness = left := hrandomness
        exact ⟨raw, text, htext, hleft ▸ hexpand, hparse.symm, hfiles⟩

/-- The clock is not touched. -/
theorem now_of_workingSettings (hroot : session.files.Rooted base top) {mode : WriteMode}
    (h : (workingSettings (.of base) mode).perform session = (result, after)) :
    after.now = session.now := by
  have houtcome := outcome_workingSettings hroot mode
  rw [Action.outcome, h] at houtcome
  have hnow : after.now = _ := congrArg (fun outcome => outcome.2.now) houtcome
  rw [hnow]
  split
  · rfl
  · split <;> rfl

/-- Where the working copy could be written there is a file or nothing. -/
theorem takes_workingCopy (hroot : session.files.Rooted base top) {raw : Text}
    (h : ((Files.writeText (Layout.of base).resolvedSettings raw).outcome session).1 = .ok ())
    (content : Content) :
    session.files.tree.Takes (top ++ [Utf8.encode workingCopyName]) (.file content) := by
  have hwithin : Path.Within base ([] ++ [Utf8.encode workingCopyName]) (Layout.of base).resolvedSettings :=
    Path.within_child base plain_workingCopyName
  have hdirectory : session.files.tree.node? (top ++ []) = some .directory := by
    rw [List.append_nil]
    exact hroot.linkless.directory
  rcases hwrite : (Files.writeText (Layout.of base).resolvedSettings raw).perform
    session with ⟨result, written⟩
  rw [Action.outcome, hwrite] at h
  rcases Files.writeText_within hroot hwithin hdirectory hwrite with ⟨⟨failure, rfl⟩, -⟩ | ⟨-, -, htakes, -⟩
  · cases h
  · exact htakes

/-- Whatever the settings come to, the working copy is written or nothing is. -/
theorem files_of_workingSettings (hroot : session.files.Rooted base top) {mode : WriteMode}
    (h : (workingSettings (.of base) mode).perform session = (result, after)) :
    after.files = session.files ∨ ∃ content,
      session.files.tree.Takes (top ++ [Utf8.encode workingCopyName]) (.file content) ∧
        after.files = session.files.put (top ++ [Utf8.encode workingCopyName]) (.file content) := by
  have houtcome := outcome_workingSettings hroot mode
  rw [Action.outcome, h] at houtcome
  have hfiles : after.files = _ := congrArg (fun outcome => outcome.2.files) houtcome
  rw [hfiles]
  split
  · exact .inl rfl
  · split
    · exact .inl rfl
    · next hwrite => exact .inr ⟨_, takes_workingCopy hroot hwrite _, rfl⟩

theorem grows_workingSettings (hroot : session.files.Rooted base top) {mode : WriteMode}
    (h : (workingSettings (.of base) mode).perform session = (result, after)) :
    Grows (fun location => location = top ++ [Utf8.encode workingCopyName]) session.files after.files := by
  rcases files_of_workingSettings hroot h with hsame | ⟨content, htakes, hput⟩
  · exact hsame ▸ .refl _ _
  · exact hput ▸ FileSystem.grows_put (place_workingCopy hroot) htakes rfl

end Build

end ServerPack
