import ServerPack.Proofs.FileSystem.LinkFree

/-!
The directories and the settings file that a build begins with. Whatever comes of making them,
nothing that was there is changed, and what is new is a directory on the way of the data directory,
a directory of the skeleton or the bundled settings document (`furnished_of_furnish`). If they could
be made, the path of the data directory leads to it (`exists_rooted_of_furnish`).
-/

namespace ServerPack.Build

open FileSystem (Gains Grows Rooted)

variable {session after : Session} {base : Path} {top : Location} {result : Except Failure Unit}

/-! Directories that have been made. -/

theorem plain_root {root : Text} (hroot : root ∈ [sourceName, outputName]) :
    Path.Plain (Utf8.encode root) := by
  rcases List.mem_cons.1 hroot with rfl | hroot
  · exact plain_sourceName
  · exact List.mem_singleton.1 hroot ▸ plain_outputName

/-- The directories of the skeleton are two in each tree. -/
theorem mem_skeleton_iff {path : Path} : path ∈ (Layout.of base).skeleton ↔
    ∃ root ∈ [sourceName, outputName], ∃ leaf ∈ ["files".toList, "servers".toList],
    path = Layout.place (Layout.place base root) leaf := by
  simp [Layout.skeleton, Layout.of, or_assoc]

theorem within_skeleton (base : Path) {root leaf : Text} (hroot : root ∈ [sourceName, outputName])
    (hleaf : leaf ∈ ["files".toList, "servers".toList]) :
    Path.Within base [Utf8.encode root, Utf8.encode leaf] (Layout.place (Layout.place base root) leaf) := by
  have hplain : ∀ leaf ∈ ["files".toList, "servers".toList], Path.Plain (Utf8.encode leaf) := by decide
  exact (Path.within_child base (plain_root hroot)).child (hplain leaf hleaf)

/-- Once directories have been made, each of them can be found. -/
theorem exists_leadsTo_of_createDirectories {paths : List Path} (hwf : session.files.WellFormed)
    (hne : ∀ path ∈ paths, path.bytes ≠ [])
    (h : (paths.forM Files.createDirectory).perform session = (.ok (), after)) {path : Path}
    (hpath : path ∈ paths) : path.Usable ∧ ∃ location, after.files.LeadsTo path location := by
  induction paths generalizing session with
  | nil => nomatch hpath
  | cons first paths ih =>
      obtain ⟨_, between, hfirst, hrest⟩ := Action.bind_eq_ok_iff.1 h
      have hbetween := (Files.gains_createDirectory hwf hfirst).wellFormed hwf
      rcases List.mem_cons.1 hpath with rfl | hpath
      · obtain ⟨husable, location, hleads⟩ :=
          Files.exists_leadsTo_of_createDirectory hfirst (hne path List.mem_cons_self)
        exact ⟨husable, location, (gains_createDirectories hbetween hrest).leadsTo hleads⟩
      · exact ih hbetween (fun other hother => hne other (List.mem_cons_of_mem _ hother)) hrest hpath

/-- Once the skeleton is there, its directories can be found. -/
theorem exists_leadsTo_of_skeleton (hwf : session.files.WellFormed)
    (h : ((Layout.of base).skeleton.forM Files.createDirectory).perform session = (.ok (), after))
    {path : Path} (hpath : path ∈ (Layout.of base).skeleton) : path.Usable ∧
    ∃ location, after.files.LeadsTo path location := by
  have hplain : ∀ leaf ∈ ["files".toList, "servers".toList], Path.Plain (Utf8.encode leaf) := by decide
  refine exists_leadsTo_of_createDirectories hwf (fun path hpath => ?_) h hpath
  obtain ⟨root, -, leaf, hleaf, rfl⟩ := mem_skeleton_iff.1 hpath
  exact Path.child_bytes_ne_nil (hplain leaf hleaf)

theorem exists_leadsTo_of_furnish (hwf : session.files.WellFormed)
    (h : (furnish (.of base)).perform session = (.ok (), after)) {path : Path}
    (hpath : path ∈ (Layout.of base).skeleton) : ∃ location, after.files.LeadsTo path location := by
  obtain ⟨_, made, hdirectories, hbundled⟩ := Action.bind_eq_ok_iff.1 h
  obtain ⟨-, location, hleads⟩ := exists_leadsTo_of_skeleton hwf hdirectories hpath
  have hmade := gains_createDirectories hwf hdirectories
  exact ⟨location, (grows_provideBundled (hmade.wellFormed hwf) hbundled).leadsTo hleads⟩

/-- Both trees have a root once the directories are there. -/
theorem directory_of_furnish (hwf : session.files.WellFormed)
    (h : (furnish (.of base)).perform session = (.ok (), after))
    (hroot : after.files.Rooted base top) {root : Text} (htree : root ∈ [sourceName, outputName]) :
    after.files.tree.node? (top ++ [Utf8.encode root]) = some .directory := by
  have hleaf : "files".toList ∈ ["files".toList, "servers".toList] := List.mem_cons_self
  obtain ⟨location, hleads⟩ := exists_leadsTo_of_furnish hwf h
    (mem_skeleton_iff.2 ⟨root, htree, _, hleaf, rfl⟩)
  have hnode := FileSystem.directory_of_leadsTo hroot (within_skeleton base htree hleaf) (by simp) hleads
  rw [List.append_cons] at hnode
  exact hroot.tree.above (by simp) hnode

theorem exists_leadsTo_of_leadsTo_skeleton {files : FileSystem}
    (h : ∀ path ∈ (Layout.of base).skeleton, ∃ location, files.LeadsTo path location) :
    ∃ top, files.LeadsTo base top := by
  have hroot : sourceName ∈ [sourceName, outputName] := List.mem_cons_self
  have hleaf : "files".toList ∈ ["files".toList, "servers".toList] := List.mem_cons_self
  obtain ⟨location, hleads⟩ := h _ (mem_skeleton_iff.2 ⟨_, hroot, _, hleaf, rfl⟩)
  exact FileSystem.exists_leadsTo_of_within (within_skeleton base hroot hleaf) (by simp) hleads

/-- Where there are no links the data directory is there after the directories in it have been
made. -/
theorem exists_rooted_of_furnish (hwf : session.files.WellFormed) (hfree : session.files.tree.LinkFree)
    (h : (furnish (.of base)).perform session = (.ok (), after)) : ∃ top, after.files.Rooted base top := by
  have hgrows := grows_furnish hwf h
  obtain ⟨top, hbase⟩ := exists_leadsTo_of_leadsTo_skeleton fun _ => exists_leadsTo_of_furnish hwf h
  exact ⟨top, (hgrows.wellFormed hwf).rooted hbase fun _ _ => hgrows.linkFree hfree _ _⟩

theorem rooted_of_furnish (hwf : session.files.WellFormed) (hfree : session.files.tree.LinkFree)
    (h : (furnish (.of base)).perform session = (.ok (), after)) :
    after.files.Rooted base (session.files.home base) := by
  have hgrows := grows_furnish hwf h
  obtain ⟨top, hroot⟩ := exists_rooted_of_furnish hwf hfree h
  have htop := hroot.leads.eq_home (hgrows.linkFree hfree)
  rw [FileSystem.home_of_current hgrows.current] at htop
  exact htop ▸ hroot

/-! What has been added. -/

/-- The names of the directories in a tree that are there before a build starts. -/
def skeletonNames : List Location := [[], [Utf8.encode "files".toList], [Utf8.encode "servers".toList]]

/-- What a build may add before it starts. -/
inductive Addition (files : FileSystem) (base : Path) : Location → Node → Prop
  | way {location} : files.OnWay base location → Addition files base location .directory
  | skeleton {root names} : root ∈ [sourceName, outputName] → names ∈ skeletonNames →
      Addition files base (files.home base ++ Utf8.encode root :: names) .directory
  | settings : Addition files base (files.home base ++ [Utf8.encode settingsName])
      (.file (.plain (Utf8.encode bundledSettings)))

/-- Everything that was there is as it was, and what is new may be added. -/
structure Furnished (base : Path) (files files' : FileSystem) : Prop where
  grows : Grows (fun _ => True) files files'
  added (location : Location) : files'.tree.node? location = files.tree.node? location ∨
    files.tree.node? location = none ∧ ∃ node, files'.tree.node? location = some node ∧
      Addition files base location node

theorem Furnished.node?_eq {files files' : FileSystem} (h : Furnished base files files')
    {location : Location} {node : Node} (hnode : files.tree.node? location = some node) :
    files'.tree.node? location = some node := by
  rcases h.added location with hsame | ⟨hnone, -⟩
  · rw [hsame, hnode]
  · cases hnode.symm.trans hnone

theorem gains_createDirectories_onWay {paths : List Path} {scope : Location → Prop}
    (hwf : session.files.WellFormed) (hfree : session.files.tree.LinkFree)
    (hscope : ∀ path ∈ paths, ∀ location, session.files.OnWay path location → scope location)
    (h : (paths.forM Files.createDirectory).perform session = (result, after)) :
    Gains scope session.files after.files := by
  induction paths generalizing session with
  | nil =>
      cases h
      exact .refl _ _
  | cons path paths ih =>
      have hfirstScope := hscope path List.mem_cons_self
      rcases Action.bind_cases h with ⟨failure, hfirst, -⟩ | ⟨_, between, hfirst, hrest⟩
      · exact (Files.gains_createDirectory_onWay hwf hfree hfirst).mono hfirstScope
      · have hbetween := Files.gains_createDirectory_onWay hwf hfree hfirst
        refine (hbetween.mono hfirstScope).trans
          (ih (hbetween.wellFormed hwf) (hbetween.linkFree hfree) ?_ hrest)
        intro other hother location hway
        rw [FileSystem.onWay_of_current hbetween.current] at hway
        exact hscope other (List.mem_cons_of_mem _ hother) location hway

/-- The ways of the directories of the skeleton. -/
theorem addition_of_onWay {files : FileSystem} {path : Path} (hpath : path ∈ (Layout.of base).skeleton)
    {location : Location} (hway : files.OnWay path location) : Addition files base location .directory := by
  obtain ⟨root, hroot, leaf, hleaf, rfl⟩ := mem_skeleton_iff.1 hpath
  rcases FileSystem.onWay_of_within (within_skeleton base hroot hleaf) hway with hbase | ⟨front,
    hne, hfront, rfl⟩
  · exact .way hbase
  · rcases List.prefix_cons_iff.1 hfront with rfl | ⟨more, rfl, hmore⟩
    · exact absurd rfl hne
    refine .skeleton hroot ?_
    rcases List.prefix_cons_iff.1 hmore with rfl | ⟨end', rfl, hend⟩
    · exact List.mem_cons_self
    · rw [List.prefix_nil.1 hend]
      exact List.mem_cons_of_mem _ (List.mem_map_of_mem (f := fun leaf : Text => [Utf8.encode leaf]) hleaf)

/-- The bundled settings are written, if at all, where there is nothing. -/
theorem node?_of_provideBundled (hroot : session.files.Rooted base top)
    (h : (provideBundled settingsName base).perform session = (result, after)) :
    after.files = session.files ∨ session.files.tree.node? (top ++ [Utf8.encode settingsName]) = none ∧
      after.files = session.files.put (top ++ [Utf8.encode settingsName])
        (.file (.plain (Utf8.encode bundledSettings))) := by
  have hplain : Path.Plain (Utf8.encode settingsName) := ⟨by decide, by decide, by decide, by decide⟩
  have hwithin : Path.Within base ([] ++ [Utf8.encode settingsName]) (Layout.place base settingsName) :=
    Path.within_child base hplain
  rcases files_of_provideBundled h with hsame | ⟨text, result', written, hmissing, hbundled, hwrite, hfiles⟩
  · exact .inl hsame
  have hdirectory : session.files.tree.node? (top ++ []) = some .directory := by
    rw [List.append_nil]
    exact hroot.linkless.directory
  rcases Files.writeText_within hroot hwithin hdirectory hwrite with ⟨-, rfl⟩ | ⟨-, rfl, -, hholds⟩
  · exact .inl hfiles
  obtain rfl : bundledSettings = text := Option.some.inj hbundled
  refine .inr ⟨?_, hfiles⟩
  cases hnode : session.files.tree.node? (top ++ [Utf8.encode settingsName]) with
  | none => rfl
  | some node =>
      have husable := (FileSystem.lookup_eq_ok_iff.1 hholds).1
      have hlink : ∀ aim, node ≠ .link aim := fun aim heq => hroot.linkless.no_link (heq ▸ hnode)
      have hfound := hroot.leads.lookup_child hroot.tree hnode hlink husable
      have hexists : session.files.pathExists (Layout.place base settingsName) = true := by
        rw [FileSystem.pathExists]
        exact congrArg Except.isOk hfound
      rw [hexists] at hmissing
      cases hmissing

/-- Whatever comes of furnishing a data directory, it only adds to it. -/
theorem furnished_of_furnish (hwf : session.files.WellFormed) (hfree : session.files.tree.LinkFree)
    (h : (furnish (.of base)).perform session = (result, after)) :
    Furnished base session.files after.files := by
  have hmade : ∀ {result made}, ((Layout.of base).skeleton.forM Files.createDirectory).perform
    session = (result, made) →
      Gains (Addition session.files base · .directory) session.files made.files := fun hdirectories =>
    gains_createDirectories_onWay hwf hfree
      (fun _ hpath _ hway => addition_of_onWay hpath hway) hdirectories
  have hadded : ∀ {made : FileSystem}, Gains (Addition session.files base · .directory) session.files made →
      ∀ location, made.tree.node? location = session.files.tree.node? location ∨
        session.files.tree.node? location = none ∧ ∃ node, made.tree.node? location = some node ∧
          Addition session.files base location node := fun hgained location =>
    (hgained.eq_or_made location).imp_right fun ⟨haddition, hnone, hdirectory⟩ =>
      ⟨hnone, _, hdirectory, haddition⟩
  rcases Action.bind_cases h with ⟨failure, hdirectories, -⟩ | ⟨_, made, hdirectories, hbundled⟩
  · exact ⟨(hmade hdirectories).toGrows.mono fun _ _ => trivial, hadded (hmade hdirectories)⟩
  have hgained := hmade hdirectories
  have hgrows := hgained.toGrows.mono fun _ _ => trivial
  refine ⟨hgrows.trans (grows_provideBundled (hgained.wellFormed hwf) hbundled), fun location => ?_⟩
  obtain ⟨top, hbase⟩ := exists_leadsTo_of_leadsTo_skeleton fun _ hpath =>
    (exists_leadsTo_of_skeleton hwf hdirectories hpath).2
  have hroot := (hgained.wellFormed hwf).rooted hbase fun _ _ => hgained.linkFree hfree _ _
  have htop := hbase.eq_home (hgained.linkFree hfree)
  rw [FileSystem.home_of_current hgained.current] at htop
  rcases node?_of_provideBundled hroot hbundled with hsame | ⟨hnone, hput⟩
  · rw [hsame]
    exact hadded hgained location
  rw [hput, FileSystem.node?_put (by simp)]
  split
  · next heq =>
    subst heq
    refine .inr ⟨?_, _, rfl, htop ▸ .settings⟩
    rcases hgained.eq_or_made (top ++ [Utf8.encode settingsName]) with hsame | ⟨-, hbefore, -⟩
    · rw [← hsame, hnone]
    · exact hbefore
  · exact hadded hgained location

end ServerPack.Build
