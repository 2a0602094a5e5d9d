import ServerPack.Build.Run
import ServerPack.Proofs.Action

/-!
No step of a build looks at the log: each action is quiet, from the primitives of the file system up
to the parts of a build, so that what a build does apart from the log follows from what its parts
do. Walks and whatever only looks at their findings change no files.
-/

namespace ServerPack

open ServerPack.Action

namespace Files

theorem quiet_settle (path : Path) (made : Except IoFault FileSystem) : (settle path made).Quiet := by
  cases made with
  | ok files => exact .modify fun _ => rfl
  | error fault =>
      refine .bind (.ask _) fun found => ?_
      split
      · exact .pure _
      · exact .throw _

theorem quiet_ensureWithin (parents : Nat) (path : Path) : (ensureWithin parents path).Quiet := by
  induction parents generalizing path with
  | zero => exact .pure _
  | succ parents ih =>
      rw [ensureWithin]
      split
      · exact .pure _
      refine .bind (.ask _) fun made => ?_
      split
      · refine .bind ?_ fun _ => .bind (.ask _) fun _ => quiet_settle _ _
        cases path.parent? with
        | none => exact .pure _
        | some parent => exact ih parent
      · exact quiet_settle _ _

theorem quiet_ensureParent (path : Path) : (ensureParent path).Quiet := by
  rw [ensureParent]
  split
  · exact quiet_ensureWithin _ _
  · exact .pure _

theorem quiet_createDirectory (path : Path) : (createDirectory path).Quiet := by
  refine .bind (.ask _) fun found => ?_
  split
  · exact .pure _
  · exact .bind (quiet_ensureWithin _ _) fun _ => .log _ _

theorem quiet_writeText (path : Path) (text : Text) : (writeText path text).Quiet :=
  .bind (quiet_ensureParent path) fun _ => .change _

theorem quiet_readText (path : Path) : (readText path).Quiet := by
  refine .bind (.ask _) fun content => ?_
  dsimp only
  split
  · exact .pure _
  · exact .bind (.log _ _) fun _ => .throw _

theorem quiet_copy (source target : Path) : (copy source target).Quiet :=
  .bind (quiet_ensureParent target) fun _ => .change _

theorem quiet_walkRoot (root : Path) : (walkRoot root).Quiet := by
  refine .bind (.ask _) fun found => ?_
  split
  · exact .throw _
  · refine .bind (.ask _) fun aim => ?_
    split
    · exact .throw _
    · exact .pure _
  · exact .pure _

theorem quiet_walk (root : Path) : (walk root).Quiet := by
  refine .bind (quiet_walkRoot root) fun _ => .bind (.ask _) fun found => ?_
  split
  · exact .ask _
  · exact .pure _

theorem reads_walkRoot (root : Path) : (walkRoot root).Reads := by
  refine .bind (.ask _) fun found => ?_
  split
  · exact .throw _
  · refine .bind (.ask _) fun aim => ?_
    split
    · exact .throw _
    · exact .pure _
  · exact .pure _

theorem reads_walk (root : Path) : (walk root).Reads := by
  refine .bind (reads_walkRoot root) fun _ => .bind (.ask _) fun found => ?_
  split
  · exact .ask _
  · exact .pure _

theorem quiet_copyBelow (depth : Nat) (location : Location) (source target : Path) :
    (copyBelow depth location source target).Quiet := by
  induction depth generalizing location source target with
  | zero => exact .throw _
  | succ depth ih =>
      refine .bind (.ask _) fun entries => .bind (quiet_ensureWithin _ _) fun _ =>
        .bind (.ofExcept _) fun _ => ?_
      refine .forM fun ⟨name, node⟩ _ => ?_
      dsimp only
      split
      · exact ih _ _ _
      · exact quiet_copy _ _

theorem quiet_copyTree (source target : Path) : (copyTree source target).Quiet := by
  refine .bind (quiet_walkRoot source) fun found => ?_
  split
  · exact quiet_copyBelow _ _ _ _
  · exact quiet_copy _ _

theorem quiet_removeAll (path : Path) : (removeAll path).Quiet := by
  refine .bind (.ask _) fun found => ?_
  split
  · exact .bind (.change _) fun _ => .change _
  · exact .change _
  · exact .throw _
  · exact .throw _

theorem quiet_deleteTree (path : Path) : (deleteTree path).Quiet := by
  refine .bind (.ask _) fun found => ?_
  split
  · exact .bind (.tryCatch (quiet_removeAll path) fun _ => .bind (.log _ _) fun _ => .throw _)
      fun _ => .log _ _
  · exact .log _ _

end Files

namespace Archive

theorem quiet_gather (folder : Name) (root archive : Path) (walked : List (Location × Node)) :
    (gather folder root archive walked).Quiet := by
  induction walked with
  | nil => exact .pure _
  | cons found rest ih =>
      rw [gather]
      split
      · split
        · exact .pure _
        · exact ih
      · split
        · exact .pure _
        · refine .bind (.log _ _) fun _ => .bind (.ask _) fun content => ?_
          split
          · exact .pure _
          · exact .bind ih fun _ => .pure _

theorem reads_gather (folder : Name) (root archive : Path) (walked : List (Location × Node)) :
    (gather folder root archive walked).Reads := by
  induction walked with
  | nil => exact .pure _
  | cons found rest ih =>
      rw [gather]
      split
      · split
        · exact .pure _
        · exact ih
      · split
        · exact .pure _
        · refine .bind (.log _ _) fun _ => .bind (.ask _) fun content => ?_
          split
          · exact .pure _
          · exact .bind ih fun _ => .pure _

theorem quiet_pack (folder archive : Path) : (pack folder archive).Quiet := by
  have hfill : ∀ (location : Location) (entries : List (Text × Bytes)),
      (modify fun session => { session with
        files := session.files.put location (.file (.archive entries)) } : Action Unit).Quiet :=
    fun _ _ => .modify fun _ => rfl
  refine .bind (.ofExcept _) fun _ => .bind (Files.quiet_ensureParent archive) fun _ =>
    .bind (.ask _) fun opened => ?_
  cases opened with
  | error fault =>
      exact fun _ => rfl
  | ok opened =>
      refine .bind (.pure opened) fun ⟨location, files⟩ => .bind (.modify fun _ => rfl) fun _ =>
        .bind (.tryCatch (Files.quiet_walk folder) fun _ => .bind (hfill _ _) fun _ => .throw _)
            fun walked =>
        .bind (quiet_gather _ _ _ walked) fun ⟨entries, failure⟩ => .bind (hfill _ _) fun _ => ?_
      cases failure with
      | some failure => exact .throw _
      | none => exact .bind (.log _ _) fun _ => .pure _

end Archive

namespace Settings

theorem quiet_resolve (document : Document) (path : Text) : (document.resolve path).Quiet := by
  refine .bind (.ofExcept _) fun value => ?_
  cases value with
  | text text => exact .pure _
  | secret => exact .bind (.log _ _) fun _ => .get_bind (fun _ =>
      .bind (.modify fun _ => rfl) fun _ => .pure _) fun _ => rfl

end Settings

namespace Substitution

theorem quiet_find (body : Text) : (find body).Quiet := .bind (.log _ _) fun _ => .pure _

theorem quiet_resolveAll {resolve : Text → Action Text} (hresolve : ∀ path, (resolve path).Quiet)
    (placeholders : List Placeholder) : (resolveAll resolve placeholders).Quiet :=
  .mapM fun _ _ => .bind (hresolve _) fun _ => .pure _

theorem quiet_replaceEach (mode : WriteMode) {persist : Text → Action Unit}
    (hpersist : ∀ body, (persist body).Quiet) (resolved : List Resolved) (body : Text) :
    (replaceEach mode persist resolved body).Quiet := by
  induction resolved generalizing body with
  | nil => exact .pure _
  | cons first rest ih =>
      rw [replaceEach]
      refine .bind (.log _ _) fun _ => ?_
      split
      · exact .bind (hpersist _) fun _ => ih _
      · exact ih _

theorem quiet_run (mode : WriteMode) {resolve : Text → Action Text}
    (hresolve : ∀ path, (resolve path).Quiet) {persist : Text → Action Unit}
    (hpersist : ∀ body, (persist body).Quiet) (placeholders : List Placeholder) (body : Text) :
    (run mode resolve persist placeholders body).Quiet := by
  refine .bind (quiet_resolveAll hresolve placeholders) fun resolved =>
    .bind (quiet_replaceEach mode hpersist resolved body) fun _ => ?_
  split
  · exact .bind (hpersist _) fun _ => .pure _
  · exact .pure _

end Substitution

theorem Settings.quiet_expand (mode : WriteMode) {persist : Text → Action Unit}
    (hpersist : ∀ body, (persist body).Quiet) (raw : Text) : (Settings.expand mode persist raw).Quiet :=
  .bind (.ofExcept _) fun document => .bind (Substitution.quiet_find raw) fun _ => .bind (.log _ _) fun _ =>
    Substitution.quiet_run mode (Settings.quiet_resolve document) hpersist _ raw

namespace Build

theorem quiet_provideBundled (name : Text) (directory : Path) : (provideBundled name directory).Quiet := by
  refine .bind (.ask _) fun found => ?_
  split
  · exact .log _ _
  · split
    · exact .log _ _
    · exact .bind (Files.quiet_writeText _ _) fun _ => .log _ _

theorem quiet_furnish (layout : Layout) : (furnish layout).Quiet :=
  .bind (.forM fun _ _ => Files.quiet_createDirectory _) fun _ => quiet_provideBundled _ _

theorem quiet_persistTo (path : Path) (body : Text) : (persistTo path body).Quiet :=
  .bind (.log _ _) fun _ => Files.quiet_writeText path body

theorem quiet_workingSettings (layout : Layout) (mode : WriteMode) : (workingSettings layout mode).Quiet :=
  .bind (Files.quiet_readText _) fun raw => .bind (quiet_persistTo _ raw) fun _ =>
    .bind (Settings.quiet_expand mode (quiet_persistTo _) raw) fun _ =>
        .bind (Files.quiet_readText _) fun _ =>
      .bind (.ofExcept _) fun _ => .bind (.forM fun _ _ => .log _ _) fun _ => .pure _

theorem quiet_archiveTrees (layout : Layout) : (archiveTrees layout).Quiet :=
  .get_bind (fun _ => .mapM fun _ _ => .bind (Archive.quiet_pack _ _) fun _ => .pure _) fun _ => rfl

theorem quiet_renewOutput (layout : Layout) : (renewOutput layout).Quiet :=
  .bind (Files.quiet_deleteTree _) fun _ => .bind (Files.quiet_copyTree _ _) fun _ => .log _ _

theorem quiet_select (root : Path) (recursive : Bool) (suffixes : List Text) :
    (select root recursive suffixes).Quiet := by
  refine .bind (.ask _) fun found => ?_
  dsimp only
  by_cases hfound : found = true
  · rw [if_pos hfound]
    exact .bind (Files.quiet_walk root) fun _ => .bind (.ofExcept _) fun _ =>
      .bind (.log _ _) fun _ => .pure _
  · rw [if_neg hfound]
    exact .bind (.throw _) fun _ => .bind (Files.quiet_walk root) fun _ => .bind (.ofExcept _) fun _ =>
      .bind (.log _ _) fun _ => .pure _

theorem reads_select (root : Path) (recursive : Bool) (suffixes : List Text) :
    (select root recursive suffixes).Reads := by
  refine .bind (.ask _) fun found => ?_
  dsimp only
  by_cases hfound : found = true
  · rw [if_pos hfound]
    exact .bind (Files.reads_walk root) fun _ => .bind (.ofExcept _) fun _ =>
      .bind (.log _ _) fun _ => .pure _
  · rw [if_neg hfound]
    exact .bind (.throw _) fun _ => .bind (Files.reads_walk root) fun _ => .bind (.ofExcept _) fun _ =>
      .bind (.log _ _) fun _ => .pure _

theorem quiet_substituteFile (mode : WriteMode) {resolve : Text → Action Text}
    (hresolve : ∀ path, (resolve path).Quiet) (path : Path) : (substituteFile mode resolve path).Quiet := by
  refine .bind (Files.quiet_readText path) fun body =>
    .bind (Substitution.quiet_find body) fun placeholders => ?_
  split
  · exact .pure _
  · exact .bind (.log _ _) fun _ =>
      .bind (Substitution.quiet_run mode hresolve (quiet_persistTo path) _ body) fun _ => .pure _

end Build

end ServerPack
