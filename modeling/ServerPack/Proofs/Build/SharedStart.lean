import ServerPack.Proofs.Build.Confinement
import ServerPack.Proofs.Build.Result
import ServerPack.Proofs.Build.SharedActions
import ServerPack.Proofs.FileSystem.Creation

/-!
The start of a build in two sessions that give it the same: the way of the data directory, the
source tree and the settings file. Whatever else is there, the build prepares the data directory and
resolves the settings alike in both, as long as nothing but directories is in the way of the output
tree and nothing but a file in the way of the working copy (`alike_furnish`,
`alike_workingSettings`). Where the two disagree at first they agree once the build has been there:
on the directories of the output tree, and on the working copy of the settings.
-/

namespace ServerPack

open FileSystem (Covers Gains Grows LeadsTo Rooted)

namespace FileSystem

variable {origin files files' : FileSystem} {shared : Location → Prop} {base : Path} {name : Name}

/-- Two well-formed file systems without links agree where their nodes do. -/
theorem agree_of_wellFormed (hwf : files.WellFormed) (hfree : files.tree.LinkFree)
    (hcurrent : files.current = origin.current) (hcurrent' : files'.current = origin.current)
    (hnode : ∀ location, shared location → files.tree.node? location = files'.tree.node? location) :
    Agree origin shared files files' where
  current := hcurrent
  current' := hcurrent'
  linkFree := hfree
  plain {location node} hfound := hwf.tree.plain_of_mem
    (by rwa [List.nil_append] : files.tree.node? ([] ++ location) = some node)
  plainCurrent := hcurrent ▸ hwf.tree.plain_of_mem
    (by rw [List.nil_append]; exact hwf.current : files.tree.node? ([] ++ files.current) = some .directory)
  node?_eq := hnode _

theorem Covers.child (h : origin.Covers shared base) (hname : Path.Plain name)
    (hshared : shared (origin.home base ++ [name])) : origin.Covers shared (base.child name) :=
  h.within (Path.within_child base hname) fun front hne hfront => by
    obtain ⟨more, rfl, hmore⟩ := (List.prefix_cons_iff.1 hfront).resolve_left hne
    rwa [List.prefix_nil.1 hmore]

theorem Agree.textAt_eq {path : Path} (h : Agree origin shared files files')
    (hpath : origin.Covers shared path) :
    files.textAt path = files'.textAt path := by
  rw [FileSystem.textAt, FileSystem.textAt, h.readContent_eq hpath]

end FileSystem

namespace Action

variable {α β : Type} {origin : FileSystem} {shared shared' : Location → Prop} {session session' : Session}

/-- An action fails in two sessions for the same reason, or gives the same and leaves two sessions
that agree. -/
inductive Alike (origin : FileSystem) (shared : Location → Prop) (action : Action α)
    (session session' : Session) : Prop
  | failed {failure after after'} : action.perform session = (.error failure, after) →
      action.perform session' = (.error failure, after') → Alike origin shared action session session'
  | done {a after after'} : action.perform session = (.ok a, after) →
    action.perform session' = (.ok a, after') →
      Session.Agree origin shared after after' → Alike origin shared action session session'

theorem GoesBy.alike {action : Action α} (h : action.GoesBy origin shared)
    (hagree : Session.Agree origin shared session session') :
    action.Alike origin shared session session' := by
  rcases hperform : action.perform session with ⟨failure | a, after⟩ <;>
    obtain ⟨after', hperform', hafter⟩ := h.exists_perform hagree hperform
  · exact .failed hperform hperform'
  · exact .done hperform hperform' hafter

theorem Alike.mono {action : Action α} (h : action.Alike origin shared session session')
    (hshared : ∀ location, shared' location → shared location) :
    action.Alike origin shared' session session' := by
  cases h with
  | failed h h' => exact .failed h h'
  | done h h' hagree => exact .done h h' ⟨hagree.files.mono hshared, hagree.randomness⟩

theorem Alike.bind {action : Action α} {next : α → Action β}
    (h : action.Alike origin shared session session')
    (hnext : ∀ a after after', action.perform session = (.ok a, after) →
      action.perform session' = (.ok a, after') →
      Session.Agree origin shared after after' → (next a).Alike origin shared' after after') :
    (action >>= next).Alike origin shared' session session' := by
  cases h with
  | failed h h' => exact .failed (perform_bind_of_error h) (perform_bind_of_error h')
  | done h h' hagree =>
      cases hnext _ _ _ h h' hagree with
      | failed hnext hnext' =>
          exact .failed ((perform_bind_of_ok h).trans hnext) ((perform_bind_of_ok h').trans hnext')
      | done hnext hnext' hafter =>
          exact .done ((perform_bind_of_ok h).trans hnext) ((perform_bind_of_ok h').trans hnext') hafter

/-- What goes on in the same way goes on alike. -/
theorem Alike.of_perform_eq {action action' : Action α} {between between' : Session}
    (h : action.Alike origin shared between between')
    (heq : action'.perform session = action.perform between)
    (heq' : action'.perform session' = action.perform between') :
    action'.Alike origin shared session session' := by
  cases h with
  | failed h h' => exact .failed (heq.trans h) (heq'.trans h')
  | done h h' hagree => exact .done (heq.trans h) (heq'.trans h') hagree

/-- The log does not matter. -/
theorem alike_of_outcome {action : Action α} {result : Except Failure α} {silent silent' : Session}
    (h : action.outcome session = (result, silent)) (h' : action.outcome session' = (result, silent'))
    (hagree : ∀ a, result = .ok a → Session.Agree origin shared silent silent') :
    action.Alike origin shared session session' := by
  rcases hperform : action.perform session with ⟨found, after⟩
  rcases hperform' : action.perform session' with ⟨found', after'⟩
  rw [outcome, hperform] at h
  rw [outcome, hperform'] at h'
  cases result with
  | error failure =>
      obtain rfl : found = .error failure := (Prod.mk.inj h).1
      obtain rfl : found' = .error failure := (Prod.mk.inj h').1
      exact .failed hperform hperform'
  | ok a =>
      obtain ⟨rfl, rfl⟩ := Prod.mk.inj h
      obtain ⟨rfl, rfl⟩ := Prod.mk.inj h'
      have hsilent := hagree a rfl
      exact .done hperform hperform' ⟨hsilent.files, hsilent.randomness⟩

end Action

namespace Build

open Files (Open)

variable {origin : FileSystem} {shared : Location → Prop} {session session' after after' : Session}
  {base : Path} {top : Location}

/-! What is given and what may be left. -/

/-- A place that a build goes by: one on the way of the data directory, one of the source tree or
that of the settings. -/
def Given (base : Path) (files : FileSystem) (location : Location) : Prop :=
  files.OnWay base location ∨ (∃ names, location = sourceOf (files.home base) names) ∨
    location = files.home base ++ [Utf8.encode settingsName]

/-- Nothing but a file is in the way of the working copy, unless it is on the way of the data
directory. -/
def Receptive (base : Path) (files : FileSystem) : Prop :=
  files.OnWay base (files.home base ++ [Utf8.encode workingCopyName]) ∨
    files.tree.node? (files.home base ++ [Utf8.encode workingCopyName]) = none ∨
    ∃ content, files.tree.node? (files.home base ++ [Utf8.encode workingCopyName]) = some (.file content)

/-- A well-formed file system without links where nothing but directories is in the way of the
output tree and nothing but a file in the way of the working copy. -/
structure Unobstructed (base : Path) (files : FileSystem) : Prop where
  wellFormed : files.WellFormed
  linkFree : files.tree.LinkFree
  output {names : Location} : names ∈ skeletonNames → Open files (outputOf (files.home base) names)
  workingCopy : Receptive base files

/-- A well-formed file system without links in which a path leads to a directory. -/
structure Settled (base : Path) (top : Location) (files : FileSystem) : Prop where
  wellFormed : files.WellFormed
  linkFree : files.tree.LinkFree
  leads : files.LeadsTo base top

theorem Settled.rooted {files : FileSystem} (h : Settled base top files) : files.Rooted base top :=
  h.wellFormed.rooted h.leads fun _ _ => h.linkFree _ _

theorem Settled.grows {files files' : FileSystem} {scope : Location → Prop} (h : Settled base top files)
    (hgrows : Grows scope files files') : Settled base top files' :=
  ⟨hgrows.wellFormed h.wellFormed, hgrows.linkFree h.linkFree, hgrows.leadsTo h.leads⟩

/-! Directories. -/

/-- Nothing is in the way of directories in a tree of the data directory. -/
structure Accepts (base : Path) (top : Location) (root : Name) (leaves : List Name)
    (files : FileSystem) : Prop extends Settled base top files where
  atRoot : Open files (top ++ [root])
  atLeaf {leaf : Name} : leaf ∈ leaves → Open files (top ++ [root, leaf])

theorem Accepts.gains {files files' : FileSystem} {scope : Location → Prop} {root : Name}
    {leaves leaves' : List Name} (h : Accepts base top root leaves files)
    (hgains : Gains scope files files') (hleaves : leaves' ⊆ leaves) :
    Accepts base top root leaves' files' :=
  ⟨h.toSettled.grows hgains.toGrows, h.atRoot.gains hgains, fun hleaf =>
    (h.atLeaf (hleaves hleaf)).gains hgains⟩

/-- Two sessions agree on directories in a tree, and on its root, once they have been made in
both. -/
theorem alike_createDirectories {root : Name} {leaves : List Name}
    (hagree : Session.Agree origin shared session session')
    (h : Accepts base top root leaves session.files)
    (h' : Accepts base top root leaves session'.files) (hroot : Path.Plain root)
    (hshort : root.length ≤ Path.maxNameLength)
    (hleaves : ∀ leaf ∈ leaves, Path.Plain leaf ∧ leaf.length ≤ Path.maxNameLength ∧
      ((base.child root).child leaf).Usable) :
    ((leaves.map (base.child root).child).forM Files.createDirectory).Alike origin
      (fun location => shared location ∨ ∃ leaf ∈ leaves, location = top ++ [root] ∨
        location = top ++ [root, leaf])
      session session' := by
  induction leaves generalizing session session' shared with
  | nil => exact .done rfl rfl ⟨hagree.files.mono fun location hlocation =>
      hlocation.resolve_right nofun, hagree.randomness⟩
  | cons leaf leaves ih =>
      obtain ⟨hleaf, hshortLeaf, husable⟩ := hleaves leaf List.mem_cons_self
      obtain ⟨after, hmade⟩ := Files.exists_perform_createDirectory h.wellFormed h.rooted h.linkFree
        hroot hleaf hshort hshortLeaf husable h.atRoot (h.atLeaf List.mem_cons_self)
      obtain ⟨after', hmade'⟩ := Files.exists_perform_createDirectory h'.wellFormed h'.rooted
        h'.linkFree hroot hleaf hshort hshortLeaf husable h'.atRoot (h'.atLeaf List.mem_cons_self)
      have hgains := Files.gains_createDirectory h.wellFormed hmade
      have hgains' := Files.gains_createDirectory h'.wellFormed hmade'
      have hrandomness : ∀ {session after : Session},
          (Files.createDirectory ((base.child root).child leaf)).perform session = (.ok (), after) →
          after.randomness = session.randomness := fun hperform =>
        (Files.frugal_createDirectory _).randomness_eq hperform
      have hafter : Session.Agree origin
          (fun location => shared location ∨ location = top ++ [root] ∨
              location = top ++ [root, leaf]) after after' := by
        refine ⟨FileSystem.agree_of_wellFormed (hgains.wellFormed h.wellFormed) (hgains.linkFree h.linkFree)
          (hgains.current.trans hagree.files.current) (hgains'.current.trans hagree.files.current')
          fun location hlocation => ?_, ?_⟩
        · rw [Files.node?_of_createDirectory h.wellFormed h.rooted h.linkFree hroot hleaf hmade,
            Files.node?_of_createDirectory h'.wellFormed h'.rooted h'.linkFree hroot hleaf hmade']
          split
          · rfl
          · next hother => exact hagree.files.node?_eq (hlocation.resolve_right hother)
        · rw [hrandomness hmade, hrandomness hmade', hagree.randomness]
      have hrest := ih hafter (h.gains hgains (List.subset_cons_self _ _))
        (h'.gains hgains' (List.subset_cons_self _ _))
        fun other hother => hleaves other (List.mem_cons_of_mem _ hother)
      refine (Action.Alike.done hmade hmade' hafter).bind fun _ _ _ hmade₂ hmade₂' _ => ?_
      cases hmade.symm.trans hmade₂
      cases hmade'.symm.trans hmade₂'
      refine hrest.mono fun location hlocation => ?_
      rcases hlocation with hlocation | ⟨other, hother, hplace⟩
      · exact .inl (.inl hlocation)
      · rcases List.mem_cons.1 hother with rfl | hother
        · exact .inl (.inr hplace)
        · exact .inr ⟨other, hother, hplace⟩

/-- The names of the directories that each tree has. -/
def leaves : List Name := ["files".toList, "servers".toList].map Utf8.encode

theorem plain_of_mem_leaves {leaf : Name} (h : leaf ∈ leaves) : Path.Plain leaf ∧
    leaf.length ≤ Path.maxNameLength := by
  have hall : ∀ leaf ∈ leaves, Path.Plain leaf ∧ leaf.length ≤ Path.maxNameLength := by decide
  exact hall leaf h

/-- The directories of a tree. -/
def directories (base : Path) (root : Text) : List Path := leaves.map (Layout.place base root).child

theorem furnish_eq (base : Path) : furnish (.of base) = (do
    (directories base sourceName).forM Files.createDirectory
    (directories base outputName).forM Files.createDirectory
    provideBundled settingsName base) := by
  have hdirectories : (Layout.of base).skeleton.forM Files.createDirectory = (do
      (directories base sourceName).forM Files.createDirectory
      (directories base outputName).forM Files.createDirectory) := List.forM_append
  rw [furnish, hdirectories, bind_assoc]
  rfl

/-- What two sessions agree on once the directories are there: what was given, and the directories
of the output tree. -/
def Prelude (base : Path) (files : FileSystem) (location : Location) : Prop :=
  Given base files location ∨ ∃ names ∈ skeletonNames, location = outputOf (files.home base) names

theorem covers_given (base : Path) (files : FileSystem) : files.Covers (Given base files) base :=
    fun _ => .inl

/-- When the directories of the source tree have been made, the data directory can be found and
other paths in it can be followed. -/
theorem accepts_of_directories (h : Unobstructed base session.files)
    (hmade : ((directories base sourceName).forM Files.createDirectory).perform session = (.ok (), after)) :
    Accepts base (session.files.home base) (Utf8.encode outputName) leaves after.files ∧
      ∀ leaf ∈ leaves, ((base.child (Utf8.encode outputName)).child leaf).Usable := by
  have hserversLeaf : Utf8.encode "servers".toList ∈ leaves := by decide
  have hservers : Layout.place (Layout.place base sourceName) "servers".toList ∈
      directories base sourceName :=
    List.mem_map_of_mem hserversLeaf
  have hne : ∀ path ∈ directories base sourceName, path.bytes ≠ [] := by
    intro path hpath
    obtain ⟨leaf, hleaf, rfl⟩ := List.mem_map.1 hpath
    exact Path.child_bytes_ne_nil (plain_of_mem_leaves hleaf).1
  have hgains := gains_createDirectories h.wellFormed hmade
  have hfree := hgains.linkFree h.linkFree
  obtain ⟨husable, location, hleads⟩ := exists_leadsTo_of_createDirectories h.wellFormed hne hmade hservers
  have hsourceRoot : sourceName ∈ [sourceName, outputName] := List.mem_cons_self
  have hserversName : "servers".toList ∈ ["files".toList, "servers".toList] := by decide
  have hwithin := within_skeleton base hsourceRoot hserversName
  obtain ⟨top, hbase⟩ := FileSystem.exists_leadsTo_of_within hwithin (by simp) hleads
  have htop := hbase.eq_home hfree
  rw [FileSystem.home_of_current hgains.current] at htop
  have hskeleton : ∀ leaf ∈ leaves, [leaf] ∈ skeletonNames := by decide
  have hfits : ∀ leaf ∈ leaves, 0 ∉ leaf ∧ (Utf8.encode outputName).length + leaf.length ≤
      (Utf8.encode sourceName).length + (Utf8.encode "servers".toList).length := by decide
  have hrootName : [] ∈ skeletonNames := by decide
  refine ⟨⟨⟨hgains.wellFormed h.wellFormed, hfree, htop ▸ hbase⟩, (h.output hrootName).gains hgains,
    fun hleaf => (h.output (hskeleton _ hleaf)).gains hgains⟩, fun leaf hleaf => ?_⟩
  exact husable.child_child plain_sourceName (plain_of_mem_leaves hserversLeaf).1.no_slash plain_outputName
    (plain_of_mem_leaves hleaf).1.no_slash (by decide) (hfits leaf hleaf).1 (hfits leaf hleaf).2

/-- The data directory is prepared alike. -/
theorem alike_furnish (h : Unobstructed base session.files) (h' : Unobstructed base session'.files)
    (hagree : Session.Agree session.files (Given base session.files) session session') :
    (furnish (.of base)).Alike session.files (Prelude base session.files) session session' := by
  have hhome : session'.files.home base = session.files.home base :=
    FileSystem.home_of_current hagree.files.current' base
  have hsources : ((directories base sourceName).forM Files.createDirectory).GoesBy session.files
      (Given base session.files) := by
    refine .forM fun path hpath => ?_
    obtain ⟨leaf, hleaf, rfl⟩ := List.mem_map.1 hpath
    have hwithin := (Path.within_child base plain_sourceName).child (plain_of_mem_leaves hleaf).1
    refine Files.goesBy_createDirectory ((covers_given base session.files).within hwithin
      fun front hne hfront => ?_)
    obtain ⟨more, rfl, -⟩ := (List.prefix_cons_iff.1 hfront).resolve_left hne
    exact .inr (.inl ⟨more, rfl⟩)
  rw [furnish_eq]
  refine (hsources.alike hagree).bind fun _ made made' hmade hmade' hagreeMade => ?_
  obtain ⟨haccepts, husable⟩ := accepts_of_directories h hmade
  obtain ⟨haccepts', -⟩ := accepts_of_directories h' hmade'
  rw [hhome] at haccepts'
  have houtputs := alike_createDirectories hagreeMade haccepts haccepts' plain_outputName
      (by decide) fun leaf hleaf =>
    ⟨(plain_of_mem_leaves hleaf).1, (plain_of_mem_leaves hleaf).2, husable leaf hleaf⟩
  have hprelude : ∀ location, Prelude base session.files location → Given base session.files location ∨
      ∃ leaf ∈ leaves, location = session.files.home base ++ [Utf8.encode outputName] ∨
        location = session.files.home base ++ [Utf8.encode outputName, leaf] := by
    rintro location (hgiven | ⟨names, hnames, rfl⟩)
    · exact .inl hgiven
    · refine .inr ?_
      rcases List.mem_cons.1 hnames with rfl | hnames
      · exact ⟨_, List.mem_cons_self, .inl rfl⟩
      · obtain ⟨leaf, hleaf, rfl⟩ := List.mem_map.1 (show names ∈ leaves.map fun leaf => [leaf] from hnames)
        exact ⟨leaf, hleaf, .inr rfl⟩
  refine (houtputs.mono hprelude).bind fun _ _ _ _ _ hagree => ?_
  have hsettings : session.files.Covers (Prelude base session.files) (Layout.place base settingsName) :=
    Covers.child (fun _ hway => .inl (.inl hway)) ⟨by decide, by decide, by decide, by decide⟩
      (.inl (.inr (.inr rfl)))
  exact (goesBy_provideBundled hsettings).alike hagree

/-! Settings. -/

/-- Whether the working copy can be written does not depend on what is shared. -/
theorem result_of_writeText_eq (hagree : Session.Agree origin shared session session')
    (hcovers : origin.Covers shared base) (h : Settled base (origin.home base) session.files)
    (h' : Settled base (origin.home base) session'.files) (hreceptive : Receptive base session.files)
    (hreceptive' : Receptive base session'.files) (text : Text) :
    ((Files.writeText (Layout.of base).resolvedSettings text).perform session).1 =
      ((Files.writeText (Layout.of base).resolvedSettings text).perform session').1 := by
  have hhome : session.files.home base = origin.home base :=
    FileSystem.home_of_current hagree.files.current base
  have hhome' : session'.files.home base = origin.home base :=
    FileSystem.home_of_current hagree.files.current' base
  have hwithin : Path.Within base ([] ++ [Utf8.encode workingCopyName]) (Layout.of base).resolvedSettings :=
    Path.within_child base plain_workingCopyName
  rw [Receptive, hhome, FileSystem.onWay_of_current hagree.files.current] at hreceptive
  rw [Receptive, hhome', FileSystem.onWay_of_current hagree.files.current'] at hreceptive'
  by_cases hway : origin.OnWay base (origin.home base ++ [Utf8.encode workingCopyName])
  · exact (Files.goesBy_writeText (hcovers.child plain_workingCopyName (hcovers _ hway)) text
      session session' hagree).1
  obtain ⟨parent, hparent, hwithinParent, -⟩ := hwithin.parent
  have hparents : (Files.ensureParent (Layout.of base).resolvedSettings).GoesBy origin shared := by
    rw [Files.ensureParent, hparent]
    exact Files.goesBy_ensureWithin _ (hcovers.within hwithinParent fun front hne hfront =>
      absurd (List.prefix_nil.1 hfront) hne)
  have hunchanged : ∀ {session after : Session} {result : Except Failure Unit},
      Settled base (origin.home base) session.files →
      (Files.ensureParent (Layout.of base).resolvedSettings).perform session = (result, after) →
          after = session := by
    intro session after result hsettled hensure
    have hdirectory : session.files.tree.node? (origin.home base ++ []) = some .directory := by
      rw [List.append_nil]
      exact hsettled.rooted.linkless.directory
    exact Files.ensureParent_within hsettled.rooted hwithin hdirectory hensure
  rcases hensure : (Files.ensureParent (Layout.of base).resolvedSettings).perform
    session with ⟨failure | _, between⟩ <;>
    obtain ⟨between', hensure', -⟩ := hparents.exists_perform hagree hensure <;> rw [Files.writeText]
  · rw [Action.perform_bind_of_error hensure, Action.perform_bind_of_error hensure']
  obtain rfl := hunchanged h hensure
  obtain rfl := hunchanged h' hensure'
  rw [Action.perform_bind_of_ok hensure, Action.perform_bind_of_ok hensure', Action.perform_change,
    Action.perform_change]
  by_cases husable : (base.child (Utf8.encode workingCopyName)).Usable
  · have hwritten := h.leads.writeContent_child h.linkFree plain_workingCopyName (by decide) husable
      (hreceptive.resolve_left hway) (.plain (Utf8.encode text))
    have hwritten' := h'.leads.writeContent_child h'.linkFree plain_workingCopyName (by decide) husable
      (hreceptive'.resolve_left hway) (.plain (Utf8.encode text))
    rw [show (Layout.of base).resolvedSettings = base.child
      (Utf8.encode workingCopyName) from rfl, hwritten, hwritten']
  · obtain ⟨fault, hrefused⟩ := FileSystem.writeContent_of_not_usable husable
    rw [show (Layout.of base).resolvedSettings = base.child
      (Utf8.encode workingCopyName) from rfl, hrefused, hrefused]

/-- What two sessions agree on once there are settings: the working copy besides. -/
def Foundation (base : Path) (files : FileSystem) (location : Location) : Prop :=
  Prelude base files location ∨ location = files.home base ++ [Utf8.encode workingCopyName]

/-- The settings are resolved alike. -/
theorem alike_workingSettings (hagree : Session.Agree origin (Prelude base origin) session session')
    (h : Settled base (origin.home base) session.files)
    (h' : Settled base (origin.home base) session'.files)
    (hreceptive : Receptive base session.files) (hreceptive' : Receptive base session'.files)
    (mode : WriteMode) :
    (workingSettings (.of base) mode).Alike origin (Foundation base origin) session session' := by
  have hcovers : origin.Covers (Prelude base origin) base := fun _ hway => .inl (.inl hway)
  have hsettings : origin.Covers (Prelude base origin) (Layout.of base).settings :=
    hcovers.child ⟨by decide, by decide, by decide, by decide⟩ (.inl (.inr (.inr rfl)))
  have houtcome := outcome_workingSettings h.rooted mode
  have houtcome' := outcome_workingSettings h'.rooted mode
  rw [← hagree.files.textAt_eq hsettings, ← hagree.randomness] at houtcome'
  cases htext : session.files.textAt (Layout.of base).settings with
  | error fault =>
      rw [htext] at houtcome houtcome'
      exact Action.alike_of_outcome houtcome houtcome' nofun
  | ok raw =>
      have hwritten : ((Files.writeText (Layout.of base).resolvedSettings raw).outcome session).1 =
          ((Files.writeText (Layout.of base).resolvedSettings raw).outcome session').1 :=
        result_of_writeText_eq hagree hcovers h h' hreceptive hreceptive' raw
      rw [htext] at houtcome houtcome'
      dsimp only at houtcome houtcome'
      rw [← hwritten] at houtcome'
      cases hwrite : ((Files.writeText (Layout.of base).resolvedSettings raw).outcome session).1 with
      | error failure =>
          rw [hwrite] at houtcome houtcome'
          exact Action.alike_of_outcome houtcome houtcome' nofun
      | ok _ =>
          rw [hwrite] at houtcome houtcome'
          have hplain : ∀ name ∈ origin.home base ++ [Utf8.encode workingCopyName],
              Path.Plain name := fun name hname =>
            (List.mem_append.1 hname).elim (fun hname =>
              hagree.files.plain h.rooted.linkless.directory name hname)
              fun hname => List.mem_singleton.1 hname ▸ plain_workingCopyName
          exact Action.alike_of_outcome houtcome houtcome' fun _ _ => ⟨hagree.files.put hplain _ nofun, rfl⟩

end Build

end ServerPack
