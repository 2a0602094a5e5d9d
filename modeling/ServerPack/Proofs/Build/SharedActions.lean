import ServerPack.Proofs.Build.Stages
import ServerPack.Proofs.FileSystem.Agreement
import ServerPack.Proofs.Selection.Walk

/-!
Actions that go by what is shared. Such an action does the same in two sessions with the same
randomness whose files agree on the shared locations, and leaves two such sessions (`GoesBy`). Every
step of a build is one if what is on the ways of its paths is shared, and below the trees that it
walks.
-/

namespace ServerPack

open FileSystem (Covers AgreeAfter)

/-- Two sessions with the same randomness whose files agree on the shared locations. -/
structure Session.Agree (origin : FileSystem) (shared : Location → Prop)
    (session session' : Session) : Prop where
  files : FileSystem.Agree origin shared session.files session'.files
  randomness : session.randomness = session'.randomness

namespace Action

variable {α β : Type} {origin : FileSystem} {shared : Location → Prop}

/-- The action does the same in sessions that agree on the shared locations, and leaves such
sessions. -/
def GoesBy (origin : FileSystem) (shared : Location → Prop) (action : Action α) : Prop :=
  ∀ session session', Session.Agree origin shared session session' →
    (action.perform session).1 = (action.perform session').1 ∧
      Session.Agree origin shared (action.perform session).2 (action.perform session').2

namespace GoesBy

theorem exists_perform {action : Action α} (h : action.GoesBy origin shared)
    {session session' after : Session} {result : Except Failure α}
    (hagree : Session.Agree origin shared session session')
    (hperform : action.perform session = (result, after)) :
    ∃ after', action.perform session' = (result, after') ∧ Session.Agree origin shared after after' := by
  obtain ⟨hresult, hafter⟩ := h session session' hagree
  rw [hperform] at hresult hafter
  exact ⟨(action.perform session').2, Prod.ext hresult.symm rfl, hafter⟩

theorem pure (a : α) : (pure a : Action α).GoesBy origin shared := fun _ _ h => ⟨rfl, h⟩

theorem throw (failure : Failure) : (throw failure : Action α).GoesBy origin shared := fun _ _ h => ⟨rfl, h⟩

theorem log (level : Level) (message : String) : (log level message).GoesBy origin shared := fun _ _ h =>
  ⟨rfl, h.files, h.randomness⟩

theorem ask {question : FileSystem → α}
    (h : ∀ files files', FileSystem.Agree origin shared files files' → question files = question files') :
    (ask question).GoesBy origin shared := fun _ _ hagree =>
  ⟨congrArg Except.ok (h _ _ hagree.files), hagree⟩

theorem modify {f : Session → Session}
    (h : ∀ session session', Session.Agree origin shared session session' →
      Session.Agree origin shared (f session) (f session')) :
        (modify f : Action Unit).GoesBy origin shared :=
  fun _ _ hagree => ⟨rfl, h _ _ hagree⟩

theorem change {update : FileSystem → Except IoFault FileSystem}
    (h : ∀ files files', FileSystem.Agree origin shared files files' →
      AgreeAfter origin shared (update files) (update files')) : (change update).GoesBy origin shared := by
  intro session session' hagree
  have hupdated := h _ _ hagree.files
  rw [perform_change, perform_change]
  generalize update session.files = updated, update session'.files = updated' at hupdated
  cases hupdated with
  | refused fault => exact ⟨rfl, hagree⟩
  | done hfiles => exact ⟨rfl, hfiles, hagree.randomness⟩

/-- Sessions that an action has left alike are left alike by what comes next. -/
theorem agree_bind {action : Action α} {next : α → Action β} {session session' : Session}
    (h : (action.perform session).1 = (action.perform session').1 ∧
      Session.Agree origin shared (action.perform session).2 (action.perform session').2)
    (hnext : ∀ a after, action.perform session = (.ok a, after) → (next a).GoesBy origin shared) :
    ((action >>= next).perform session).1 = ((action >>= next).perform session').1 ∧
      Session.Agree origin shared ((action >>= next).perform session).2
        ((action >>= next).perform session').2 := by
  rcases hperform : action.perform session with ⟨failure | a, after⟩ <;>
    rcases hperform' : action.perform session' with ⟨result', after'⟩ <;> rw [hperform, hperform'] at h <;>
    obtain ⟨rfl, hafter⟩ := h
  · rw [perform_bind_of_error hperform, perform_bind_of_error hperform']
    exact ⟨rfl, hafter⟩
  · rw [perform_bind_of_ok hperform, perform_bind_of_ok hperform']
    exact hnext a after hperform after after' hafter

/-- What comes next need only go by what is shared for what may have come before. -/
theorem bind_of {action : Action α} {next : α → Action β} (h : action.GoesBy origin shared)
    (hnext : ∀ a session session' after, Session.Agree origin shared session session' →
      action.perform session = (.ok a, after) → (next a).GoesBy origin shared) :
    (action >>= next).GoesBy origin shared := fun session session' hagree =>
  agree_bind (h session session' hagree) fun a after => hnext a session session' after hagree

theorem bind {action : Action α} {next : α → Action β} (h : action.GoesBy origin shared)
    (hnext : ∀ a, (next a).GoesBy origin shared) : (action >>= next).GoesBy origin shared :=
  h.bind_of fun a _ _ _ _ _ => hnext a

theorem get_bind {next : Session → Action α} (hnext : ∀ session, (next session).GoesBy origin shared)
    (hsame : ∀ session session', Session.Agree origin shared session session' →
      next session = next session') :
    ((get : Action Session) >>= next).GoesBy origin shared := by
  intro session session' hagree
  rw [perform_bind_of_ok (perform_get session), perform_bind_of_ok (perform_get session'), hsame _ _ hagree]
  exact hnext session' session session' hagree

theorem tryCatch {action : Action α} {handler : Failure → Action α} (h : action.GoesBy origin shared)
    (hhandler : ∀ failure, (handler failure).GoesBy origin shared) :
    (tryCatch action handler).GoesBy origin shared := by
  intro session session' hagree
  rw [perform_tryCatch, perform_tryCatch]
  rcases hperform : action.perform session with ⟨failure | a, after⟩ <;>
    obtain ⟨after', hperform', hafter⟩ := h.exists_perform hagree hperform <;> rw [hperform']
  · exact hhandler failure after after' hafter
  · exact ⟨rfl, hafter⟩

theorem ofExcept (result : Except Failure α) : (ofExcept result).GoesBy origin shared := by
  cases result with
  | ok a => exact pure a
  | error failure =>
      rw [Action.ofExcept]
      cases failure.diagnosis with
      | none => exact throw failure
      | some line => exact bind (log _ _) fun _ => throw failure

theorem mapM {f : α → Action β} {l : List α} (h : ∀ a ∈ l, (f a).GoesBy origin shared) :
    (l.mapM f).GoesBy origin shared := by
  induction l with
  | nil => exact pure []
  | cons a l ih =>
      rw [List.mapM_cons]
      exact bind (h a List.mem_cons_self) fun _ =>
        bind (ih fun b hb => h b (List.mem_cons_of_mem _ hb)) fun _ => pure _

theorem forM {f : α → Action Unit} {l : List α} (h : ∀ a ∈ l, (f a).GoesBy origin shared) :
    (l.forM f).GoesBy origin shared := by
  induction l with
  | nil => exact pure ()
  | cons a l ih =>
      exact bind (h a List.mem_cons_self) fun _ => ih fun b hb => h b (List.mem_cons_of_mem _ hb)

end GoesBy

end Action

open ServerPack.Action (GoesBy)

variable {origin : FileSystem} {shared : Location → Prop}

namespace Files

variable {path : Path}

theorem goesBy_settle_error (hpath : origin.Covers shared path) (fault : IoFault) :
    (settle path (.error fault)).GoesBy origin shared := by
  refine .bind (.ask fun _ _ hfiles => hfiles.isDirectory_eq hpath) fun found => ?_
  split
  · exact .pure _
  · exact .throw _

/-- Going on from a directory that has just been made, if it could be made. -/
theorem goesBy_makeDirectory_settle (hpath : origin.Covers shared path) :
    (Action.ask (·.makeDirectory path) >>= settle path).GoesBy origin shared := by
  intro session session' hagree
  have hmade := hagree.files.makeDirectory hpath
  rw [Action.perform_bind_of_ok (Action.perform_ask _ session),
    Action.perform_bind_of_ok (Action.perform_ask _ session')]
  generalize session.files.makeDirectory path = made, session'.files.makeDirectory path = made' at hmade
  cases hmade with
  | done hfiles => exact ⟨rfl, hfiles, hagree.randomness⟩
  | refused fault => exact goesBy_settle_error hpath fault session session' hagree

theorem goesBy_ensureWithin (parents : Nat) (hpath : origin.Covers shared path) :
    (ensureWithin parents path).GoesBy origin shared := by
  induction parents generalizing path with
  | zero => exact .pure _
  | succ parents ih =>
      have hagain : (do
          path.parent?.forM (ensureWithin parents)
          settle path (← Action.ask (·.makeDirectory path)) : Action Unit).GoesBy origin shared := by
        refine .bind ?_ fun _ => goesBy_makeDirectory_settle hpath
        cases hparent : path.parent? with
        | none => exact .pure _
        | some parent => exact ih (hpath.parent hparent)
      rw [ensureWithin]
      split
      · exact .pure _
      intro session session' hagree
      have hmade := hagree.files.makeDirectory hpath
      rw [Action.perform_bind_of_ok (Action.perform_ask _ session),
        Action.perform_bind_of_ok (Action.perform_ask _ session')]
      generalize session.files.makeDirectory path = made, session'.files.makeDirectory path = made' at hmade
      cases hmade with
      | done hfiles => exact ⟨rfl, hfiles, hagree.randomness⟩
      | refused fault =>
          split
          · exact hagain session session' hagree
          · exact goesBy_settle_error hpath fault session session' hagree

theorem goesBy_ensureParent (hpath : origin.Covers shared path) :
    (ensureParent path).GoesBy origin shared := by
  rw [ensureParent]
  split
  · next parent hparent => exact goesBy_ensureWithin _ (hpath.parent hparent)
  · exact .pure _

theorem goesBy_createDirectory (hpath : origin.Covers shared path) :
    (createDirectory path).GoesBy origin shared := by
  refine .bind (.ask fun _ _ hfiles => hfiles.isDirectory_eq hpath) fun found => ?_
  split
  · exact .pure _
  · exact .bind (goesBy_ensureWithin _ hpath) fun _ => .log _ _

theorem goesBy_writeText (hpath : origin.Covers shared path) (text : Text) :
    (writeText path text).GoesBy origin shared :=
  .bind (goesBy_ensureParent hpath) fun _ => .change fun _ _ hfiles => hfiles.writeContent hpath _

theorem goesBy_readText (hpath : origin.Covers shared path) : (readText path).GoesBy origin shared := by
  refine .bind (.ask fun _ _ hfiles => hfiles.readContent_eq hpath) fun content => ?_
  dsimp only
  split
  · exact .pure _
  · exact .bind (.log _ _) fun _ => .throw _

theorem goesBy_copy {source target : Path} (hsource : origin.Covers shared source)
    (htarget : origin.Covers shared target) :
    (copy source target).GoesBy origin shared :=
  .bind (goesBy_ensureParent htarget) fun _ => .change fun _ _ hfiles => hfiles.copyContent hsource htarget

theorem goesBy_walkRoot (hpath : origin.Covers shared path) : (walkRoot path).GoesBy origin shared := by
  refine .bind (.ask fun _ _ hfiles => hfiles.lookup_eq hpath _) fun found => ?_
  split
  · exact .throw _
  · refine .bind (.ask fun _ _ hfiles => hfiles.lookup_eq hpath _) fun aim => ?_
    split
    · exact .throw _
    · exact .pure _
  · exact .pure _

/-- A directory that a path leads to is at its home. -/
theorem location_eq_of_lookup {files files' : FileSystem}
    (hfiles : FileSystem.Agree origin shared files files') {purpose : Purpose} {location : Location}
    {node : Node} (hlookup : files.lookup purpose path = .ok (location, node)) :
    location = origin.home path := by
  obtain ⟨-, _, -, hway⟩ := FileSystem.lookup_eq_ok_iff.1 hlookup
  have hlocation : location = _ := hway.location_eq hfiles.linkFree
  rw [hlocation, hfiles.start_eq, FileSystem.home, ← FileTree.destination_trimmed, Path.trimmed_steps,
    FileTree.destination_trimmed]

theorem goesBy_walk (hpath : origin.Covers shared path)
    (hbelow : ∀ names, shared (origin.home path ++ names)) :
    (walk path).GoesBy origin shared := by
  refine .bind (goesBy_walkRoot hpath) fun _ => .bind_of (.ask fun _ _ hfiles => hfiles.lookup_eq hpath _)
    fun found session session' after hagree hfound => ?_
  split
  · next location =>
    have hlookup : session.files.lookup .target path = .ok (location, .directory) :=
      Except.ok.inj (congrArg Prod.fst hfound)
    obtain rfl := location_eq_of_lookup hagree.files hlookup
    exact .ask fun _ _ hfiles => FileTree.below_congr fun names => hfiles.node?_eq (hbelow names)
  · exact .pure _

/-- Copying goes by the tree that is copied and the tree into which it is copied. -/
theorem goesBy_copyBelow {base : Path} {above above' : List Name} {source target : Path}
    (hbase : origin.Covers shared base) (hsource : Path.Within base above source)
    (htarget : Path.Within base above' target) (hfrom : ∀ front, front ≠ [] → front <+: above →
      shared (origin.home base ++ front))
    (hto : ∀ front, front ≠ [] → front <+: above' → shared (origin.home base ++ front))
    (hbelow : ∀ names, shared (origin.home base ++ above ++ names))
    (hbelow' : ∀ names, shared (origin.home base ++ above' ++ names)) (depth : Nat) :
    (copyBelow depth (origin.home base ++ above) source target).GoesBy origin shared := by
  induction depth generalizing above above' source target with
  | zero => exact .throw _
  | succ depth ih =>
      have hnext : ∀ {above : List Name}, (∀ front, front ≠ [] → front <+: above →
        shared (origin.home base ++ front)) →
          (∀ names, shared (origin.home base ++ above ++ names)) → ∀ name front, front ≠ [] →
            front <+: above ++ [name] →
          shared (origin.home base ++ front) := by
        intro above habove hbelow name front hne hfront
        rcases List.prefix_concat_iff.1 hfront with rfl | hfront
        · rw [← List.append_assoc]
          exact hbelow [name]
        · exact habove front hne hfront
      have hcovers := hbase.within htarget hto
      refine .bind_of (.ask fun _ _ hfiles => FileTree.children_congr fun names =>
        hfiles.node?_eq (hbelow names))
        fun entries session _ _ hagree hentries => .bind (goesBy_ensureWithin _ hcovers) fun _ =>
          .bind (.ofExcept _) fun _ => .forM fun ⟨name, node⟩ hentry => ?_
      have hchildren : session.files.tree.children (origin.home base ++ above) = entries :=
        Except.ok.inj (congrArg Prod.fst hentries)
      have hname : Path.Plain name := by
        rw [← hchildren, FileTree.mem_children] at hentry
        exact hagree.files.plain hentry name (List.mem_append_right _ List.mem_cons_self)
      dsimp only
      split
      · rw [List.append_assoc]
        refine ih (hsource.child hname) (htarget.child hname) (hnext hfrom hbelow name)
          (hnext hto hbelow' name) (fun names => ?_) fun names => ?_
        · rw [← List.append_assoc, List.append_assoc _ [name]]
          exact hbelow _
        · rw [← List.append_assoc, List.append_assoc _ [name]]
          exact hbelow' _
      · exact goesBy_copy (hbase.within (hsource.child hname) (hnext hfrom hbelow name))
          (hbase.within (htarget.child hname) (hnext hto hbelow' name))

theorem goesBy_copyTree {base : Path} {name name' : Name} (hbase : origin.Covers shared base)
    (hname : Path.Plain name) (hname' : Path.Plain name')
    (hbelow : ∀ names, shared (origin.home base ++ name :: names))
    (hbelow' : ∀ names, shared (origin.home base ++ name' :: names)) :
    (copyTree (base.child name) (base.child name')).GoesBy origin shared := by
  have hsource := Path.within_child base hname
  have htarget := (Path.within_child base hname').join_nil
  have hfront : ∀ {name : Name}, (∀ names, shared (origin.home base ++ name :: names)) →
      ∀ front, front ≠ [] → front <+: [name] → shared (origin.home base ++ front) := by
    intro name hbelow front hne hfront
    rcases List.prefix_cons_iff.1 hfront with rfl | ⟨more, rfl, hmore⟩
    · exact absurd rfl hne
    · exact hbelow more
  have happend : ∀ {name : Name}, (∀ names, shared (origin.home base ++ name :: names)) →
      ∀ names, shared (origin.home base ++ [name] ++ names) := by
    intro name hbelow names
    rw [List.append_assoc]
    exact hbelow names
  have hcovers := hbase.within hsource (hfront hbelow)
  refine .bind_of (goesBy_walkRoot hcovers) fun found session _ after hagree hfound => ?_
  obtain ⟨location, node⟩ := found
  obtain ⟨hlookup, -⟩ := lookup_of_walkRoot hfound
  obtain rfl := location_eq_of_lookup hagree.files hlookup
  split
  · next heq =>
    obtain ⟨rfl, -⟩ := Prod.mk.inj heq
    rw [FileSystem.home_of_within hsource]
    exact goesBy_copyBelow hbase hsource htarget (hfront hbelow) (hfront hbelow') (happend hbelow)
      (happend hbelow') _
  · exact goesBy_copy hcovers (hbase.within htarget (hfront hbelow'))

end Files

namespace Settings

theorem goesBy_resolve (document : Document) (path : Text) :
    (document.resolve path).GoesBy origin shared := by
  refine .bind (.ofExcept _) fun value => ?_
  cases value with
  | text text => exact .pure _
  | secret =>
      refine .bind (.log _ _) fun _ => .get_bind
        (fun session => .bind (.modify fun _ _ h => ⟨h.files, rfl⟩) fun _ => .pure _)
        fun session session' h => ?_
      rw [h.randomness]

end Settings

namespace Substitution

theorem goesBy_find (body : Text) : (find body).GoesBy origin shared := .bind (.log _ _) fun _ => .pure _

theorem goesBy_replaceEach (mode : WriteMode) {persist : Text → Action Unit}
    (hpersist : ∀ body, (persist body).GoesBy origin shared) (resolved : List Resolved) (body : Text) :
    (replaceEach mode persist resolved body).GoesBy origin shared := by
  induction resolved generalizing body with
  | nil => exact .pure _
  | cons first rest ih =>
      rw [replaceEach]
      refine .bind (.log _ _) fun _ => ?_
      split
      · exact .bind (hpersist _) fun _ => ih _
      · exact ih _

theorem goesBy_run (mode : WriteMode) {resolve : Text → Action Text}
    (hresolve : ∀ path, (resolve path).GoesBy origin shared) {persist : Text → Action Unit}
    (hpersist : ∀ body, (persist body).GoesBy origin shared) (placeholders : List Placeholder)
    (body : Text) :
    (run mode resolve persist placeholders body).GoesBy origin shared := by
  refine .bind (.mapM fun _ _ => .bind (hresolve _) fun _ => .pure _) fun resolved =>
    .bind (goesBy_replaceEach mode hpersist resolved body) fun _ => ?_
  split
  · exact .bind (hpersist _) fun _ => .pure _
  · exact .pure _

end Substitution

namespace Build

variable {path : Path}

theorem goesBy_provideBundled {name : Text} {directory : Path}
    (htarget : origin.Covers shared (Layout.place directory name)) :
    (provideBundled name directory).GoesBy origin shared := by
  refine .bind (.ask fun _ _ hfiles => hfiles.pathExists_eq htarget) fun found => ?_
  split
  · exact .log _ _
  · split
    · exact .log _ _
    · exact .bind (Files.goesBy_writeText htarget _) fun _ => .log _ _

theorem goesBy_persistTo (hpath : origin.Covers shared path) (body : Text) :
    (persistTo path body).GoesBy origin shared :=
  .bind (.log _ _) fun _ => Files.goesBy_writeText hpath body

theorem goesBy_select (hpath : origin.Covers shared path)
    (hbelow : ∀ names, shared (origin.home path ++ names)) (recursive : Bool)
    (suffixes : List Text) : (select path recursive suffixes).GoesBy origin shared := by
  refine .bind (.ask fun _ _ hfiles => hfiles.isDirectory_eq hpath) fun found => ?_
  dsimp only
  by_cases hfound : found = true
  · rw [if_pos hfound]
    exact .bind (Files.goesBy_walk hpath hbelow) fun _ => .bind (.ofExcept _) fun _ =>
      .bind (.log _ _) fun _ => .pure _
  · rw [if_neg hfound]
    exact .bind (.throw _) fun _ => .bind (Files.goesBy_walk hpath hbelow) fun _ =>
        .bind (.ofExcept _) fun _ =>
      .bind (.log _ _) fun _ => .pure _

theorem goesBy_substituteFile (mode : WriteMode) {resolve : Text → Action Text}
    (hresolve : ∀ path, (resolve path).GoesBy origin shared) (hpath : origin.Covers shared path) :
    (substituteFile mode resolve path).GoesBy origin shared := by
  refine .bind (Files.goesBy_readText hpath) fun body =>
    .bind (Substitution.goesBy_find body) fun placeholders => ?_
  split
  · exact .pure _
  · exact .bind (.log _ _) fun _ =>
      .bind (Substitution.goesBy_run mode hresolve (goesBy_persistTo hpath) _ body) fun _ => .pure _

theorem goesBy_finish (mode : WriteMode) {staged : Staged}
    (hfiles : ∀ path ∈ staged.files, origin.Covers shared path) :
    (finish mode staged).GoesBy origin shared :=
  .bind (.mapM fun path hpath => goesBy_substituteFile mode
    (Settings.goesBy_resolve staged.settings) (hfiles path hpath))
    fun _ => .bind (.log _ _) fun _ => .pure _

/-- From the copy of the source tree on, a build goes by both trees and the way to them. -/
theorem goesBy_copy_select_finish {base : Path} (hbase : origin.Covers shared base)
    (hsource : ∀ names, shared (origin.home base ++ Utf8.encode sourceName :: names))
    (houtput : ∀ names, shared (origin.home base ++ Utf8.encode outputName :: names)) (options : Options)
    (settings : Settings.Document) (backups : List Path) :
    (do
      Files.copyTree (Layout.of base).source (Layout.of base).output
      Action.log .info ("Copied " ++ (Layout.of base).source.display ++ " to " ++
        (Layout.of base).output.display)
      let files ← select (Layout.of base).output options.recursive settings.suffixes
      finish options.writeMode { settings, backups, files }).GoesBy origin shared := by
  have hwithin : Path.Within base [Utf8.encode outputName] (Layout.of base).output :=
    Path.within_child base plain_outputName
  have hcovers : ∀ {names : List Name} {path : Path},
    Path.Within base (Utf8.encode outputName :: names) path →
      origin.Covers shared path := by
    intro names path hpath
    refine hbase.within hpath fun front hne hfront => ?_
    rcases List.prefix_cons_iff.1 hfront with rfl | ⟨more, rfl, -⟩
    · exact absurd rfl hne
    · exact houtput more
  refine .bind (Files.goesBy_copyTree hbase plain_sourceName plain_outputName hsource houtput) fun _ =>
    .bind (.log _ _) fun _ => .bind_of (goesBy_select (hcovers hwithin) (fun names => ?_) _ _)
    fun paths session _ _ hagree hselect => goesBy_finish _ fun path hpath => ?_
  · rw [FileSystem.home_of_within hwithin, List.append_assoc]
    exact houtput names
  · obtain ⟨location, -, selected, rfl, -, hselected⟩ := exists_of_select hselect
    obtain ⟨names, hnames, rfl⟩ := List.mem_map.1 hpath
    obtain ⟨node, hbelow, -⟩ := hselected names hnames
    have hplain := hagree.files.plain (FileTree.mem_below_iff.1 hbelow).2
    exact hcovers (hwithin.foldl_child fun name hname => hplain name (List.mem_append_right _ hname))

end Build

end ServerPack
