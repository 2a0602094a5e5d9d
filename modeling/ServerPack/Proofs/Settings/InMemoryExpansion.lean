import ServerPack.Proofs.Build.Result
import ServerPack.Proofs.FileSystem.Creation

/-!
Settings from their file and from their text. In memory a text is expanded without anything being
persisted (`Settings.outcome_parseExpanded`). Loaded from the settings file of a data directory it
gives the same document or the same failure with the same randomness, whichever way it is written to
the working copy on the way, and the working copy holds either the text itself or the expanded one
in the end (`outcome_workingSettings_eq_parseExpanded`).
-/

namespace ServerPack

open ServerPack.Action (outcome_bind)

/-! In memory. -/

namespace Substitution

/-- Where bodies are persisted nowhere, the last one is all that is left of them. -/
theorem outcome_replaceEach_in_memory (mode : WriteMode) (resolved : List Resolved) (body : Text)
    (session : Session) :
    (replaceEach (m := Action) mode (fun _ => pure ()) resolved body).outcome session =
      (.ok (fill resolved body), session.silent) := by
  induction resolved generalizing body session with
  | nil => rfl
  | cons first rest ih =>
      have hrest : (replaceEach (m := Action) mode (fun _ => pure ()) rest (first.replaceIn body)).Quiet :=
        quiet_replaceEach mode (fun _ => .pure _) rest _
      rw [replaceEach]
      dsimp only
      split
      · exact (Action.outcome_log_bind (.bind (.pure _) fun _ => hrest) session).trans (ih _ _)
      · exact (Action.outcome_log_bind hrest session).trans (ih _ _)

theorem outcome_run_in_memory (mode : WriteMode) (document : Settings.Document) (body : Text)
    (session : Session) :
    (run (m := Action) mode document.resolve (fun _ => pure ())
      (Placeholder.occurringIn body) body).outcome session =
      match document.resolveIn body session.randomness with
      | (.ok resolved, randomness) => (.ok (fill resolved body), { session.silent with randomness })
      | (.error failure, randomness) => (.error failure, { session.silent with randomness }) := by
  have hreplace : ∀ resolved : List Resolved,
      (replaceEach (m := Action) mode (fun _ => pure ()) resolved body).Quiet := fun resolved =>
    quiet_replaceEach mode (fun _ => .pure _) resolved body
  have hend : ∀ (resolved : List Resolved) (body : Text), (if mode = .once ∧ resolved ≠ [] then do
      (pure () : Action Unit)
      return body
    else return body : Action Text) = pure body := by
    intro resolved body
    split <;> rfl
  have hendQuiet : ∀ (resolved : List Resolved) (body : Text), (if mode = .once ∧ resolved ≠ [] then do
      (pure () : Action Unit)
      return body
    else return body : Action Text).Quiet := by
    intro resolved body
    rw [hend]
    exact .pure _
  rw [run]
  refine (outcome_bind (fun resolved => .bind (hreplace resolved) (hendQuiet resolved)) session).trans ?_
  rw [Settings.Document.outcome_resolveAll, Placeholder.byPath_occurringIn, ← Settings.Document.resolveIn]
  rcases document.resolveIn body session.randomness with ⟨failure | resolved, randomness⟩
  · rfl
  · refine (Action.outcome_bind_of_ok (hendQuiet resolved)
      (outcome_replaceEach_in_memory mode resolved body _)).trans ?_
    rw [hend]
    rfl

end Substitution

namespace Settings

/-- A text of settings that is expanded in memory. -/
theorem outcome_expand_in_memory (mode : WriteMode) (raw : Text) (session : Session) :
    (expand (m := Action) mode (fun _ => pure ()) raw).outcome session =
      ((expandFrom raw session.randomness).1,
        { session.silent with randomness := (expandFrom raw session.randomness).2 }) := by
  have hrun : ∀ document : Document, (Substitution.run (m := Action) mode document.resolve
    (fun _ => pure ()) (Placeholder.occurringIn raw) raw).Quiet := fun document =>
    Substitution.quiet_run mode (quiet_resolve document) (fun _ => .pure _) _ _
  have hparse := Action.outcome_ofExcept (parse raw) session
  rw [expand, expandFrom]
  cases hdocument : parse raw with
  | error failure =>
      rw [hdocument] at hparse
      exact Action.outcome_bind_of_error hparse
  | ok document =>
      have hparsed : (Action.ofExcept (.ok document)).perform session = (.ok document, session) := rfl
      refine (Action.outcome_bind_of_perform hparsed).trans ?_
      refine (Action.outcome_bind_of_perform rfl).trans ?_
      refine (Action.outcome_bind_of_perform rfl).trans ?_
      refine ((hrun document).outcome_eq session ?_).trans ?_
      · rfl
      · rw [Substitution.outcome_run_in_memory]
        dsimp only
        rcases document.resolveIn raw session.randomness with ⟨failure | resolved, randomness⟩ <;> rfl

theorem outcome_parseExpanded (raw : Text) (session : Session) :
    (parseExpanded raw).outcome session =
      ((worked raw session.randomness).1,
        { session.silent with randomness := (worked raw session.randomness).2.2 }) := by
  rw [parseExpanded, outcome_bind fun _ => .ofExcept _, outcome_expand_in_memory, worked]
  rcases expandFrom raw session.randomness with ⟨failure | text, left⟩
  · rfl
  · exact Action.outcome_ofExcept _ _

end Settings

/-! From the file. -/

namespace FileSystem

variable {files : FileSystem} {base path : Path} {top : Location} {name : Name}

/-- At the end of a path there is a file, or nothing where one could be. -/
def FileOrNothing (files : FileSystem) (path : Path) : Prop :=
  files.lookup .target path = .error .notFound ∨ ∃ location content, files.HoldsFile path location content

theorem HoldsFile.readContent {path : Path} {location : Location} {content : Content}
    (h : files.HoldsFile path location content) : files.readContent path = .ok content := by
  rw [FileSystem.readContent, show files.lookup .target path = _ from h]
  rfl

/-- The directory in which a path finds a file is there. -/
theorem HoldsFile.exists_leadsTo {location : Location} {content : Content} (hname : Path.Plain name)
    (h : files.HoldsFile (base.child name) location content) : ∃ top, files.LeadsTo base top := by
  have hsteps := h.steps_eq
  obtain ⟨-, used, hused, hway⟩ := lookup_eq_ok_iff.1 h
  rw [hsteps, Path.names_child hname, start_of_within (Path.within_child base hname)] at hway
  obtain ⟨used₁, used₂, top, rfl, hbase, -⟩ := hway.split (by simp)
  exact ⟨top, leadsTo_iff.2 ⟨used₁, by omega, hbase⟩⟩

/-- Where a file or nothing is at the end of the path of an entry, the path can be followed and one
of them is there. -/
theorem FileOrNothing.entry (h : files.FileOrNothing (base.child name)) (hroot : files.Rooted base top)
    (hfree : files.tree.LinkFree) (hname : Path.Plain name) (hshort : name.length ≤ Path.maxNameLength) :
    (base.child name).Usable ∧ (files.tree.node? (top ++ [name]) = none ∨
      ∃ content, files.tree.node? (top ++ [name]) = some (.file content)) := by
  have hwithin := Path.within_child base hname
  rcases h with hmissing | ⟨location, content, hholds⟩
  · have husable : (base.child name).Usable := by
      refine Classical.byContradiction fun hnot => ?_
      obtain ⟨fault, hfault, hrefused⟩ := resolveNames_of_not_usable hnot
      rw [lookup, resolve, hrefused] at hmissing
      exact hfault (Path.child_bytes_ne_nil hname) (Except.error.inj hmissing)
    refine ⟨husable, .inl ?_⟩
    rw [lookup, hroot.leads.resolve_child hfree hname hshort husable, FileTree.targetAt] at hmissing
    cases hnode : files.tree.node? (top ++ [name]) with
    | none => rfl
    | some node =>
        rw [hnode] at hmissing
        cases hmissing
  · exact ⟨(lookup_eq_ok_iff.1 hholds).1, .inr ⟨content, (lookup_within hroot hwithin (by simp) hholds).2⟩⟩

end FileSystem

/-- In a directory a text can be written wherever a file or nothing is. -/
theorem Files.perform_writeText_child {session : Session} {base : Path} {top : Location} {name : Name}
    (hroot : session.files.Rooted base top) (hfree : session.files.tree.LinkFree) (hname : Path.Plain name)
    (hshort : name.length ≤ Path.maxNameLength)
    (hentry : session.files.FileOrNothing (base.child name)) (text : Text) :
    (writeText (base.child name) text).perform session =
      (.ok (), { session with
        files := session.files.put (top ++ [name]) (.file (.plain (Utf8.encode text))) }) := by
  have hwithin : Path.Within base ([] ++ [name]) (base.child name) := Path.within_child base hname
  obtain ⟨husable, hnode⟩ := hentry.entry hroot hfree hname hshort
  obtain ⟨parent, hparent, hparentWithin, hparentUsable⟩ := hwithin.parent
  have hleads : session.files.LeadsTo parent (top ++ []) :=
    FileSystem.leadsTo_of_within hroot hparentWithin
      (by rw [List.append_nil]; exact hroot.linkless.directory)
  have hensure : (ensureParent (base.child name)).perform session = (.ok (), session) := by
    rw [ensureParent, hparent]
    exact hleads.perform_ensureWithin (hparentUsable husable) _
  rw [writeText, Action.perform_bind_of_ok hensure, Action.perform_change,
    hroot.leads.writeContent_child hfree hname hshort husable hnode]

namespace Build

variable {session : Session} {base : Path}

/-- The settings that are loaded from their file are those that their text expands to in memory, and
they fail where it does. The settings file is left as it is, and of everything else only the working
copy is written. In the end it holds the text as it was if that could not be expanded, and otherwise
the expanded text, whether that can be read or not. -/
theorem outcome_workingSettings_eq_parseExpanded (hwf : session.files.WellFormed)
    (hfree : session.files.tree.LinkFree) {raw : Text}
    (hraw : session.files.textAt (Layout.of base).settings = .ok raw)
    (hcopy : session.files.FileOrNothing (Layout.of base).resolvedSettings) (mode : WriteMode) :
    let loaded := (workingSettings (.of base) mode).outcome session
    let expanded := (Settings.parseExpanded raw).outcome session
    let text := ((Settings.expand (m := Action) .perPlaceholder (fun _ => pure ()) raw).outcome session).1
    loaded.1 = expanded.1 ∧ loaded.2.randomness = expanded.2.randomness ∧
      loaded.2.files.readContent (Layout.of base).settings = session.files.readContent
        (Layout.of base).settings ∧
      ∃ location, loaded.2.files.HoldsFile (Layout.of base).resolvedSettings location
          (.plain (Utf8.encode (text.toOption.getD raw))) ∧
        ∀ other, other ≠ location → loaded.2.files.tree.node? other = session.files.tree.node? other := by
  have hplain : Path.Plain (Utf8.encode settingsName) := ⟨by decide, by decide, by decide, by decide⟩
  have hwithin : Path.Within base [Utf8.encode settingsName] (Layout.of base).settings :=
    Path.within_child base hplain
  obtain ⟨settingsAt, content, hholds, -⟩ := FileSystem.exists_holdsFile_of_textAt hraw
  obtain ⟨top, hleads⟩ := FileSystem.HoldsFile.exists_leadsTo hplain hholds
  have hroot : session.files.Rooted base top := hwf.rooted hleads fun _ => hfree _
  obtain ⟨rfl, hsettings⟩ := FileSystem.lookup_within hroot hwithin (by simp) hholds
  obtain ⟨husable, hentry⟩ := hcopy.entry hroot hfree plain_workingCopyName (by decide)
  have hwrite : ((Files.writeText (Layout.of base).resolvedSettings raw).outcome session).1 = .ok () := by
    rw [Action.outcome, show (Files.writeText (Layout.of base).resolvedSettings raw).perform
      session = _ from
      Files.perform_writeText_child hroot hfree plain_workingCopyName (by decide) hcopy raw]
  have htext : ((Settings.expand (m := Action) .perPlaceholder (fun _ => pure ()) raw).outcome
    session).1.toOption.getD raw = (Settings.worked raw session.randomness).2.1 := by
    rw [Settings.outcome_expand_in_memory, Settings.worked]
    rcases Settings.expandFrom raw session.randomness with ⟨failure | text, left⟩ <;> rfl
  dsimp only
  rw [htext, outcome_workingSettings hroot mode, hraw, Settings.outcome_parseExpanded]
  dsimp only
  rw [hwrite]
  generalize Settings.worked raw session.randomness = worked
  obtain ⟨settings, text, randomness⟩ := worked
  have hgrows : FileSystem.Grows (fun _ => True) session.files
      (session.files.put (top ++ [Utf8.encode workingCopyName]) (.file (.plain (Utf8.encode text)))) :=
    FileSystem.grows_put (place_workingCopy hroot) hentry trivial
  have hroot' := hgrows.rooted hroot
  have hne : top ++ [Utf8.encode settingsName] ≠ top ++ [Utf8.encode workingCopyName] :=
    ne_of_head_ne (by decide) [] []
  have hother : ∀ other, other ≠ top ++ [Utf8.encode workingCopyName] →
      (session.files.put (top ++ [Utf8.encode workingCopyName])
        (.file (.plain (Utf8.encode text)))).tree.node? other =
        session.files.tree.node? other := fun other hne => by
    rw [FileSystem.node?_put (by simp), if_neg hne]
  refine ⟨rfl, rfl, ?_, _, ?_, hother⟩
  · rw [hholds.readContent]
    exact FileSystem.HoldsFile.readContent <| hroot'.leads.lookup_child hroot'.tree
      ((hother _ hne).trans hsettings) (by simp) (FileSystem.lookup_eq_ok_iff.1 hholds).1
  · exact hroot'.leads.lookup_child hroot'.tree (FileSystem.node?_put_self (by simp) _) (by simp) husable

/-- A data directory with settings that refer to themselves, and no working copy. -/
def selfReferringSession : Session :=
  { sampleSession "" with files := {
    tree :=
      (FileTree.empty.insert [Utf8.encode ['d']] .directory).insert
        [Utf8.encode ['d'], Utf8.encode settingsName] (.file (.plain (Utf8.encode
          "\x7b\"placeholder\":\x7b\"data\":\x7b\"k\":\"v\",\"l\":\"$(mcp.k)\"\x7d\x7d\x7d".toList)))
    current := [] } }

theorem outcome_workingSettings_eq_parseExpanded_self_referring : ∃ raw text,
    ((Settings.expand (m := Action) .perPlaceholder (fun _ => pure ()) raw).outcome
      selfReferringSession).1 = .ok text ∧
      raw ≠ text ∧
      ((workingSettings (.of sampleBase) .once).outcome selfReferringSession).1 =
        ((Settings.parseExpanded raw).outcome selfReferringSession).1 ∧
      ∃ location, ((workingSettings (.of sampleBase) .once).outcome selfReferringSession).2.files.HoldsFile
        (Layout.of sampleBase).resolvedSettings location (.plain (Utf8.encode text)) := by
  have hwf : selfReferringSession.files.WellFormed := by decide +kernel
  have hlinks : ∀ location aim, selfReferringSession.files.tree.node? location ≠ some (.link aim) :=
    FileTree.node?_ne_link (by decide +kernel)
  let raw := "\x7b\"placeholder\":\x7b\"data\":\x7b\"k\":\"v\",\"l\":\"$(mcp.k)\"\x7d\x7d\x7d".toList
  let text := "\x7b\"placeholder\":\x7b\"data\":\x7b\"k\":\"v\",\"l\":\"v\"\x7d\x7d\x7d".toList
  have hraw : selfReferringSession.files.textAt (Layout.of sampleBase).settings = .ok raw := by
    decide +kernel
  have hcopy : selfReferringSession.files.FileOrNothing (Layout.of sampleBase).resolvedSettings :=
    .inl (by decide +kernel)
  have htext : ((Settings.expand (m := Action) .perPlaceholder (fun _ => pure ()) raw).outcome
    selfReferringSession).1 = .ok text := by decide +kernel
  obtain ⟨hsettings, -, -, location, hholds, -⟩ :=
    outcome_workingSettings_eq_parseExpanded hwf hlinks hraw hcopy .once
  rw [htext] at hholds
  exact ⟨raw, text, htext, by decide +kernel, hsettings, location, hholds⟩

end Build

end ServerPack
