import ServerPack.Proofs.Build.Stages

/-!
What most steps of a build leave alone besides the log. Making directories, archiving, renewing the
output tree and selecting files keep every view of the session in which files do not show, the
source of randomness and the clock among them. So nothing is drawn between the settings and the
first file (`frugal_renew`), and archives are named for the time at which a build has started.
-/

namespace ServerPack

open ServerPack.Action

section

variable {σ : Type} {view : Session → σ}
  (hview : ∀ session files, view { session with files } = view session)
include hview

theorem Action.Keeps.change (update : FileSystem → Except IoFault FileSystem) :
    (Action.change update).Keeps view := by
  intro session
  rw [perform_change]
  cases update session.files with
  | ok files => exact hview session.silent files
  | error fault => rfl

namespace Files

theorem keeps_settle (path : Path) (made : Except IoFault FileSystem) : (settle path made).Keeps view := by
  cases made with
  | ok files => exact .modify fun session => hview session.silent files
  | error fault =>
      refine .bind (.ask _) fun found => ?_
      split
      · exact .pure _
      · exact .throw _

theorem keeps_ensureWithin (parents : Nat) (path : Path) : (ensureWithin parents path).Keeps view := by
  induction parents generalizing path with
  | zero => exact .pure _
  | succ parents ih =>
      rw [ensureWithin]
      split
      · exact .pure _
      refine .bind (.ask _) fun made => ?_
      split
      · refine .bind ?_ fun _ => .bind (.ask _) fun _ => keeps_settle hview _ _
        cases path.parent? with
        | none => exact .pure _
        | some parent => exact ih parent
      · exact keeps_settle hview _ _

theorem keeps_ensureParent (path : Path) : (ensureParent path).Keeps view := by
  rw [ensureParent]
  split
  · exact keeps_ensureWithin hview _ _
  · exact .pure _

theorem keeps_createDirectory (path : Path) : (createDirectory path).Keeps view := by
  refine .bind (.ask _) fun found => ?_
  split
  · exact .pure _
  · exact .bind (keeps_ensureWithin hview _ _) fun _ => .log _ _

theorem keeps_writeText (path : Path) (text : Text) : (writeText path text).Keeps view :=
  .bind (keeps_ensureParent hview path) fun _ => .change hview _

theorem keeps_copy (source target : Path) : (copy source target).Keeps view :=
  .bind (keeps_ensureParent hview target) fun _ => .change hview _

theorem keeps_copyBelow (depth : Nat) (location : Location) (source target : Path) :
    (copyBelow depth location source target).Keeps view := by
  induction depth generalizing location source target with
  | zero => exact .throw _
  | succ depth ih =>
      refine .bind (.ask _) fun entries => .bind (keeps_ensureWithin hview _ _) fun _ =>
        .bind (.ofExcept _) fun _ => ?_
      refine .forM fun ⟨name, node⟩ _ => ?_
      dsimp only
      split
      · exact ih _ _ _
      · exact keeps_copy hview _ _

theorem keeps_copyTree (source target : Path) : (copyTree source target).Keeps view := by
  refine .bind ((reads_walkRoot source).keeps) fun found => ?_
  split
  · exact keeps_copyBelow hview _ _ _ _
  · exact keeps_copy hview _ _

theorem keeps_removeAll (path : Path) : (removeAll path).Keeps view := by
  refine .bind (.ask _) fun found => ?_
  split
  · exact .bind (.change hview _) fun _ => .change hview _
  · exact .change hview _
  · exact .throw _
  · exact .throw _

theorem keeps_deleteTree (path : Path) : (deleteTree path).Keeps view := by
  refine .bind (.ask _) fun found => ?_
  split
  · exact .bind (.tryCatch (keeps_removeAll hview path) fun _ => .bind (.log _ _) fun _ => .throw _)
      fun _ => .log _ _
  · exact .log _ _

end Files

theorem Archive.keeps_pack (folder archive : Path) : (pack folder archive).Keeps view := by
  have hfill : ∀ (location : Location) (entries : List (Text × Bytes)),
      (modify fun session => { session with
        files := session.files.put location (.file (.archive entries)) } : Action Unit).Keeps view :=
    fun _ _ => .modify fun session => hview session.silent _
  refine .bind (.ofExcept _) fun _ => .bind (Files.keeps_ensureParent hview archive) fun _ =>
    .bind (.ask _) fun opened => ?_
  cases opened with
  | error fault => exact fun _ => rfl
  | ok opened =>
      refine .bind (.pure opened) fun ⟨location, files⟩ =>
          .bind (.modify fun session => hview session.silent _) fun _ =>
        .bind (.tryCatch (Files.reads_walk folder).keeps fun _ => .bind (hfill _ _) fun _ =>
            .throw _) fun walked =>
        .bind (reads_gather _ _ _ walked).keeps fun ⟨entries, failure⟩ => .bind (hfill _ _) fun _ => ?_
      cases failure with
      | some failure => exact .throw _
      | none => exact .bind (.log _ _) fun _ => .pure _

namespace Build

theorem keeps_provideBundled (name : Text) (directory : Path) :
    (provideBundled name directory).Keeps view := by
  refine .bind (.ask _) fun found => ?_
  split
  · exact .log _ _
  · split
    · exact .log _ _
    · exact .bind (Files.keeps_writeText hview _ _) fun _ => .log _ _

theorem keeps_furnish (layout : Layout) : (furnish layout).Keeps view :=
  .bind (.forM fun _ _ => Files.keeps_createDirectory hview _) fun _ => keeps_provideBundled hview _ _

theorem keeps_archiveTrees (layout : Layout) : (archiveTrees layout).Keeps view :=
  .get_bind fun _ => .mapM fun _ _ => .bind (Archive.keeps_pack hview _ _) fun _ => .pure _

theorem keeps_renewOutput (layout : Layout) : (renewOutput layout).Keeps view :=
  .bind (Files.keeps_deleteTree hview _) fun _ => .bind (Files.keeps_copyTree hview _ _) fun _ => .log _ _

theorem keeps_renew (layout : Layout) (options : Options) (settings : Settings.Document) :
    (renew layout options settings).Keeps view := by
  have hrest : ∀ backups : List Path, (do
      renewOutput layout
      let files ← select layout.output options.recursive settings.suffixes
      return { settings, backups, files } : Action Staged).Keeps view := fun _ =>
    .bind (keeps_renewOutput hview layout) fun _ => .bind (reads_select _ _ _).keeps fun _ => .pure _
  rw [renew]
  cases options.backup with
  | false => exact .bind (.pure _) hrest
  | true => exact .bind (keeps_archiveTrees hview layout) hrest

end Build

end

theorem Files.frugal_createDirectory (path : Path) : (createDirectory path).Frugal :=
  keeps_createDirectory (fun _ _ => rfl) path

namespace Build

/-- Nothing is drawn before the settings are resolved. -/
theorem frugal_furnish (layout : Layout) : (furnish layout).Frugal := keeps_furnish (fun _ _ => rfl) layout

/-- Nothing is drawn between the settings and the first file. -/
theorem frugal_renew (layout : Layout) (options : Options) (settings : Settings.Document) :
    (renew layout options settings).Frugal := keeps_renew (fun _ _ => rfl) layout options settings

end Build

end ServerPack
