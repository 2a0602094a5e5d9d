import ServerPack.Proofs.Archive.Outcomes
import ServerPack.Proofs.FileSystem.TreeCopy

/-!
Replacing the output tree. Deleting it leaves less than there was, and nothing below the output
directory (`cleared_deleteTree`). That its files can then be copied from the source shows that the
data directory can still be reached, since a way in a part of a tree is a way in the whole. So
afterwards the output tree is the source tree as it was, and the rest of the file system has not
changed (`renewed_renewOutput`).
-/

namespace ServerPack

/-! A path with a slash behind it. -/

namespace Path

variable {base : Path} {name : Name}

theorem eq_of_bytes {path path' : Path} (h : path.bytes = path'.bytes) : path = path' := by
  cases path
  cases path'
  cases h
  rfl

theorem join_nil_bytes (path : Path) :
    (path.join ⟨[]⟩).bytes = if path.bytes = [] ∨ path.endsWithSlash then path.bytes else
      path.bytes ++ [slash] := by
  rw [join, if_neg (by simp [isAbsolute])]
  split <;> simp

theorem join_nil_bytes_child (hname : Plain name) :
    ((base.child name).join ⟨[]⟩).bytes = (base.child name).bytes ++ [slash] := by
  rw [join_nil_bytes, if_neg (by simp [child_bytes_ne_nil hname, endsWithSlash_child hname])]

theorem Usable.of_join_nil {path : Path} (h : (path.join ⟨[]⟩).Usable) : path.Usable := by
  by_cases hsame : path.bytes = [] ∨ path.endsWithSlash
  · have hbytes : (path.join ⟨[]⟩).bytes = path.bytes := by rw [join_nil_bytes, if_pos hsame]
    exact ⟨hbytes ▸ h.ne_nil, hbytes ▸ h.no_nul, hbytes ▸ h.short⟩
  · have hbytes : (path.join ⟨[]⟩).bytes = path.bytes ++ [slash] := by rw [join_nil_bytes, if_neg hsame]
    have hshort := h.short
    rw [hbytes, List.length_append] at hshort
    exact ⟨(not_or.1 hsame).1, fun hnul => h.no_nul (by simp [hbytes, hnul]), Nat.le_of_add_right_le hshort⟩

theorem names_join_nil (path : Path) : (path.join ⟨[]⟩).names = path.names := by
  rw [names, join_nil_bytes, names]
  split
  · rfl
  · rw [Text.split_append]
    simp [Text.split]

theorem isAbsolute_join_nil (path : Path) : (path.join ⟨[]⟩).isAbsolute = path.isAbsolute := by
  rw [isAbsolute, join_nil_bytes, isAbsolute]
  split
  · rfl
  · next h =>
    obtain ⟨b, rest, hbytes⟩ := List.exists_cons_of_ne_nil (not_or.1 h).1
    rw [hbytes]
    rfl

theorem child_join_nil (path : Path) (hname : Plain name) :
    (path.join ⟨[]⟩).child name = path.child name := by
  apply eq_of_bytes
  rw [child_bytes hname.no_slash, child_bytes hname.no_slash, endsWithSlash, join_nil_bytes]
  by_cases h : path.bytes = [] ∨ path.endsWithSlash
  · rw [if_pos h]
    rfl
  · rw [if_neg h, if_pos (by simp), if_neg h]
    simp

theorem Within.join_nil {path : Path} {names : List Name} (h : Within base names path) :
    Within base names (path.join ⟨[]⟩) :=
  ⟨(isAbsolute_join_nil path).trans h.isAbsolute,
    (congrArg _ (names_join_nil path)).trans h.trimmed, h.plain⟩

end Path

/-! Deleting a directory. -/

namespace FileSystem

open FileTree (Follows)

variable {files files' : FileSystem} {gone top : Location} {base path : Path} {name : Name}

/-- Nothing is left below a location, nor at it, unless it is a directory; what lies elsewhere has
not changed. -/
structure Cleared (gone : Location) (files files' : FileSystem) : Prop where
  current : files'.current = files.current
  tree : files'.tree.WellFormed
  outside {location} : ¬gone <+: location → files'.tree.node? location = files.tree.node? location
  place : files'.tree.node? gone = none ∨ files'.tree.node? gone = some .directory
  below (names : List Name) : names ≠ [] → files'.tree.node? (gone ++ names) = none
  fewer {location node} : files'.tree.node? location = some node → files.tree.node? location = some node

theorem node?_dropBelow (files : FileSystem) (gone location : Location) :
    (files.dropBelow gone).tree.node? location =
      if gone <+: location ∧ location ≠ gone then none else files.tree.node? location := by
  by_cases hlocation : location = []
  · subst hlocation
    rw [if_neg fun h => h.2 (List.prefix_nil.1 h.1).symm]
    rfl
  · rw [dropBelow, FileTree.node?_erase _ _ _ hlocation]
    simp [List.isPrefixOf_iff_prefix]

theorem node?_drop (files : FileSystem) {gone : Location} (hgone : gone ≠ []) (location : Location) :
    (files.drop gone).tree.node? location =
      if location = gone then none else files.tree.node? location := by
  by_cases hlocation : location = []
  · subst hlocation
    rw [if_neg (Ne.symm hgone)]
    rfl
  · rw [drop, FileTree.node?_erase _ _ _ hlocation]
    simp

theorem cleared_dropBelow (hwf : files.tree.WellFormed)
    (hdirectory : files.tree.node? gone = some .directory) :
    Cleared gone files (files.dropBelow gone) where
  current := rfl
  tree := by
    have hkept : ∀ {location : Location} {node : Node}, (files.dropBelow gone).tree.node? location =
      some node →
        ¬(gone <+: location ∧ location ≠ gone) ∧ files.tree.node? location = some node := by
      intro location node hnode
      rw [node?_dropBelow] at hnode
      split at hnode
      · cases hnode
      · exact ⟨‹_›, hnode⟩
    refine ⟨fun {location name node} hnode => ?_, fun hnode => hwf.plain (hkept hnode).2,
      fun hnode => hwf.short (hkept hnode).2⟩
    obtain ⟨hnot, hold⟩ := hkept hnode
    rw [node?_dropBelow, if_neg ?_]
    · exact hwf.parent hold
    · rintro ⟨hbegins, -⟩
      refine hnot ⟨hbegins.trans (List.prefix_append _ _), ?_⟩
      rintro rfl
      exact absurd hbegins.length_le (by simp)
  outside hnot := by rw [node?_dropBelow, if_neg fun h => hnot h.1]
  place := by
    rw [node?_dropBelow, if_neg fun h => h.2 rfl]
    exact .inr hdirectory
  below names hnames := by
    rw [node?_dropBelow, if_pos ⟨List.prefix_append _ _, by simpa using hnames⟩]
  fewer hnode := by
    rw [node?_dropBelow] at hnode
    split at hnode
    · cases hnode
    · exact hnode

theorem Cleared.drop (h : Cleared gone files files') (hgone : gone ≠ []) :
    Cleared gone files (files'.drop gone) where
  current := h.current
  tree := by
    have hkept : ∀ {location : Location} {node : Node}, (files'.drop gone).tree.node? location = some node →
        files'.tree.node? location = some node := by
      intro location node hnode
      rw [node?_drop _ hgone] at hnode
      split at hnode
      · cases hnode
      · exact hnode
    refine ⟨fun {location name node} hnode => ?_, fun hnode => h.tree.plain (hkept hnode),
      fun hnode => h.tree.short (hkept hnode)⟩
    have hne : location ≠ gone := by
      rintro rfl
      cases (hkept hnode).symm.trans (h.below [name] (by simp))
    rw [node?_drop _ hgone, if_neg hne]
    exact h.tree.parent (hkept hnode)
  outside {location} hnot := by
    have hne : location ≠ gone := fun heq => hnot (heq ▸ List.prefix_refl _)
    rw [node?_drop _ hgone, if_neg hne, h.outside hnot]
  place := .inl (by rw [node?_drop _ hgone, if_pos rfl])
  below names hnames := by
    rw [node?_drop _ hgone, if_neg (by simpa using hnames), h.below names hnames]
  fewer hnode := by
    rw [node?_drop _ hgone] at hnode
    split at hnode
    · cases hnode
    · exact h.fewer hnode

/-- Where there was nothing nothing has to be deleted. -/
theorem cleared_of_none (hwf : files.tree.WellFormed) (hnone : files.tree.node? gone = none) :
    Cleared gone files files :=
  ⟨rfl, hwf, fun _ => rfl, .inl hnone, fun _ _ => hwf.none_below hnone, id⟩

theorem Cleared.start (h : Cleared gone files files') (path : Path) :
    files'.start path = files.start path := by
  rw [FileSystem.start, FileSystem.start, h.current]

/-- A data directory is still there if something in it is found after something in it has been
deleted. -/
theorem Cleared.rooted (h : Cleared (top ++ [name]) files files') (hroot : files.Rooted base top)
    {purpose : Purpose} {other : Name} (hother : Path.Plain other) {location : Location} {node : Node}
    (hlookup : files'.lookup purpose (base.child other) = .ok (location, node)) :
    files'.Rooted base top := by
  obtain ⟨-, used, hused, hway⟩ := lookup_eq_ok_iff.1 hlookup
  rw [Path.steps, Path.endsWithSlash_child hother, Path.names_child hother,
    start_of_within (Path.within_child base hother)] at hway
  simp only [Bool.false_eq_true, if_false, List.append_nil] at hway
  obtain ⟨used₁, used₂, reached, rfl, hbase, -⟩ := hway.split (by simp)
  obtain ⟨_, _, hbefore⟩ := leadsTo_iff.1 hroot.leads
  have hsame := (hbase.of_subtree fun _ _ => h.fewer).unique (h.start base ▸ hbefore)
  obtain ⟨rfl, -⟩ := Target.present.inj hsame
  refine ⟨h.tree, leadsTo_iff.2 ⟨used₁, by omega, hbase⟩, ?_, fun hlink =>
    hroot.linkless.no_link (h.fewer hlink)⟩
  rw [h.outside fun hbegins => absurd hbegins.length_le (by simp)]
  exact hroot.linkless.directory

/-- The directory that is removed is the one that was emptied before. -/
theorem Cleared.eq_drop_of_removeDirectory (h : Cleared (top ++ [name]) files files')
    (hroot : files.Rooted base top) (hname : Path.Plain name) {removed : FileSystem}
    (hremove : files'.removeDirectory (base.child name) = .ok removed) :
    removed = files'.drop (top ++ [name]) := by
  have hwithin := Path.within_child base hname
  rw [removeDirectory] at hremove
  rcases hdot : files'.resolveNames .target (base.child name)
    ((base.child name).names.dropLast ++ [Path.dot]) with
    fault | found
  · rw [hdot] at hremove
    cases hremove
  rw [hdot] at hremove
  have hlast : (base.child name).names.getLast? = some name := by
    rw [Path.names_child hname, List.getLast?_concat]
  rcases hresolve : files'.resolveNames .itself (base.child name)
    (base.child name).names with fault | target
  · simp [bind, Except.bind, hlast, hname.ne_dot, hname.ne_dotDot, hresolve] at hremove
  simp only [bind, Except.bind, hlast, Option.some.injEq, hname.ne_dot, hname.ne_dotDot, if_false,
    hresolve] at hremove
  split at hremove
  · next location =>
    cases hremove
    obtain ⟨husable, used, hused, hway⟩ := resolveNames_eq_ok_iff.1 hresolve
    have hbefore := hway.of_subtree fun _ _ => h.fewer
    rw [h.start] at hbefore
    have htarget := resolveNames_eq_of_within hroot hwithin (by simp) rfl
      (resolveNames_eq_ok_iff.2 ⟨husable, used, hused, hbefore⟩)
    have hlocation := congrArg Target.location htarget
    rw [FileTree.location_targetAt] at hlocation
    rw [← hlocation]
    rfl
  · cases hremove
  · cases hremove

end FileSystem

namespace Files

open FileSystem (Cleared Rooted)

variable {session after : Session} {base : Path} {name : Name} {top : Location}
  {result : Except Failure Unit}

/-- A directory is removed with all that is below it, or it is not there to be removed. -/
theorem cleared_removeAll (hroot : session.files.Rooted base top) (hname : Path.Plain name)
    (h : (removeAll (base.child name)).perform session = (result, after)) :
    (∃ failure, result = .error failure) ∧ after = session ∨
    Cleared (top ++ [name]) session.files after.files := by
  have hwithin := Path.within_child base hname
  rw [removeAll, Action.perform_bind_of_ok (Action.perform_ask _ session)] at h
  rcases hlookup : session.files.lookup .itself (base.child name) with fault | ⟨location, node⟩
  · rw [hlookup] at h
    cases h
    exact .inl ⟨⟨_, rfl⟩, rfl⟩
  obtain ⟨rfl, hnode⟩ := FileSystem.lookup_within hroot hwithin (by simp) hlookup
  rw [hlookup] at h
  cases node with
  | file content =>
      cases h
      exact .inl ⟨⟨_, rfl⟩, rfl⟩
  | link aim => exact absurd hnode hroot.linkless.no_link
  | directory =>
      have hcleared := FileSystem.cleared_dropBelow hroot.tree hnode
      have hdropped : (Action.change fun files => .ok (files.dropBelow (top ++ [name]))).perform session =
          (.ok (), { session with files := session.files.dropBelow (top ++ [name]) }) := rfl
      dsimp only at h
      rw [Action.perform_bind_of_ok hdropped, Action.perform_change] at h
      dsimp only at h
      generalize hremove : (session.files.dropBelow (top ++ [name])).removeDirectory
        (base.child name) = removed at h
      rcases removed with fault | files
      · cases fault <;> cases h <;> exact .inr hcleared
      · cases h
        obtain rfl := hcleared.eq_drop_of_removeDirectory hroot hname hremove
        exact .inr (hcleared.drop (by simp))

/-- Deleting a directory of a data directory clears it, or changes nothing at all. -/
theorem deleteTree_cases (hroot : session.files.Rooted base top) (hname : Path.Plain name)
    (h : (deleteTree (base.child name)).perform session = (result, after)) :
    after.files = session.files ∧ (result = .ok () → session.files.pathExists (base.child name) = false) ∨
      Cleared (top ++ [name]) session.files after.files := by
  rw [deleteTree, Action.perform_bind_of_ok (Action.perform_ask _ session)] at h
  cases hexists : session.files.pathExists (base.child name) with
  | false =>
      rw [hexists] at h
      cases h
      exact .inl ⟨rfl, fun _ => rfl⟩
  | true =>
      rw [hexists] at h
      have hremove : ∀ {result removed}, (tryCatch (removeAll (base.child name)) fun failure => do
            Action.log .error ("Failed to delete: " ++ (base.child name).display)
            throw failure : Action Unit).perform session = (result, removed) →
          (∃ failure, result = .error failure) ∧ removed.files = session.files ∨
            Cleared (top ++ [name]) session.files removed.files := by
        intro result removed hcatch
        rw [Action.perform_tryCatch] at hcatch
        split at hcatch
        · next hremoved =>
          cases hcatch
          exact (cleared_removeAll hroot hname hremoved).imp_left fun ⟨hfailed, hsame⟩ =>
            ⟨hfailed, hsame ▸ rfl⟩
        · next failure removed' hremoved =>
          cases hcatch
          exact (cleared_removeAll hroot hname hremoved).imp
            (fun ⟨_, hsame⟩ => ⟨⟨failure, rfl⟩, hsame ▸ rfl⟩) id
      rcases Action.bind_cases h with ⟨failure, hremoved, rfl⟩ | ⟨_, removed, hremoved, hlog⟩
      · refine (hremove hremoved).imp_left fun ⟨_, hsame⟩ => ⟨hsame, nofun⟩
      · cases hlog
        refine (hremove hremoved).imp_left fun ⟨⟨failure, hfailed⟩, _⟩ => nomatch hfailed

/-- Deleting a directory of a data directory. -/
theorem cleared_deleteTree (hroot : session.files.Rooted base top) (hname : Path.Plain name)
    (husable : (base.child name).Usable)
    (h : (deleteTree (base.child name)).perform session = (.ok (), after)) :
    Cleared (top ++ [name]) session.files after.files := by
  rcases deleteTree_cases hroot hname h with ⟨hsame, hmissing⟩ | hcleared
  · rw [hsame]
    refine FileSystem.cleared_of_none hroot.tree ?_
    cases hnode : session.files.tree.node? (top ++ [name]) with
    | none => rfl
    | some node =>
        have hlink : ∀ aim, node ≠ .link aim := fun aim heq => hroot.linkless.no_link (heq ▸ hnode)
        have hexists := hmissing rfl
        rw [FileSystem.pathExists, hroot.leads.lookup_child hroot.tree hnode hlink husable] at hexists
        cases hexists
  · exact hcleared

theorem usable_of_copy {source target : Path} (h : (copy source target).perform session = (.ok (), after)) :
    target.Usable := by
  obtain ⟨_, between, -, hchange⟩ := Action.bind_eq_ok_iff.1 h
  obtain ⟨files, hcopied, -⟩ := Action.change_eq_ok_iff.1 hchange
  obtain ⟨_, _, _, -, hresolve, -⟩ := FileSystem.put_of_copyContent hcopied
  exact (FileSystem.resolveNames_eq_ok_iff.1 hresolve).1

/-- A walk begins where the path leads. -/
theorem lookup_of_walkRoot {root : Path} {location : Location} {node : Node}
    (h : (walkRoot root).perform session = (.ok (location, node), after)) :
    session.files.lookup .itself root = .ok (location, node) ∧ after = session := by
  rw [walkRoot, Action.perform_bind_of_ok (Action.perform_ask _ session)] at h
  dsimp only at h
  split at h
  · cases h
  · next found aim hlookup =>
    rw [Action.perform_bind_of_ok (Action.perform_ask _ session)] at h
    split at h
    · cases h
    · cases h
      exact ⟨hlookup, rfl⟩
  · next hlookup =>
    cases h
    exact ⟨hlookup, rfl⟩

/-- A path to a directory is walked from there on, also if it ends at a link. -/
theorem walk_of_directory {root : Path} {location : Location}
    (hroot : session.files.lookup .target root = .ok (location, .directory)) :
    (walk root).perform session = (.ok (session.files.tree.below location), session) := by
  obtain ⟨husable, used, hused, hway⟩ := FileSystem.lookup_eq_ok_iff.1 hroot
  obtain ⟨used', first, node, hused', hfirst⟩ := hway.itself
  have hitself : session.files.lookup .itself root = .ok (first, node) :=
    FileSystem.lookup_eq_ok_iff.2 ⟨husable, used', Nat.le_trans hused' hused, hfirst⟩
  have hbegin : (walkRoot root).perform session = (.ok (first, node), session) := by
    rw [walkRoot, Action.perform_bind_of_ok (Action.perform_ask _ session), hitself]
    cases node with
    | directory => rfl
    | file content => rfl
    | link aim =>
        dsimp only
        rw [Action.perform_bind_of_ok (Action.perform_ask _ session), hroot]
        rfl
  rw [walk, Action.perform_bind_of_ok hbegin,
    Action.perform_bind_of_ok (Action.perform_ask _ session), hroot]
  rfl

/-- A walk of a directory in a base meets what is below it. -/
theorem walk_within {base : Path} {top : Location} {name : Name} {walked : List (Location × Node)}
    (hroot : session.files.Rooted base top)
    (hdirectory : session.files.tree.node? (top ++ [name]) = some .directory)
    (h : (walk (base.child name)).perform session = (.ok walked, after)) :
    walked = session.files.tree.below (top ++ [name]) := by
  obtain ⟨⟨location, node⟩, between, hbegin, -⟩ := Action.bind_eq_ok_iff.1 h
  obtain ⟨hlookup, -⟩ := lookup_of_walkRoot hbegin
  have hfound := hroot.leads.lookup_child hroot.tree hdirectory nofun
    (FileSystem.lookup_eq_ok_iff.1 hlookup).1
  rw [walk_of_directory hfound] at h
  cases h
  rfl

theorem usable_of_copyTree {source target : Path}
    (h : (copyTree source target).perform session = (.ok (), after))
    (hne : (target.join ⟨[]⟩).bytes ≠ []) : (target.join ⟨[]⟩).Usable := by
  obtain ⟨⟨location, node⟩, between, -, hcopy⟩ := Action.bind_eq_ok_iff.1 h
  cases node with
  | directory =>
      change (copyBelow Path.maxLength location source (target.join ⟨[]⟩)).perform between = _ at hcopy
      generalize Path.maxLength = depth at hcopy
      cases depth with
      | zero => cases hcopy
      | succ depth =>
          rw [copyBelow, Action.perform_bind_of_ok (Action.perform_ask _ between)] at hcopy
          obtain ⟨_, made, hensure, -⟩ := Action.bind_eq_ok_iff.1 hcopy
          exact (exists_leadsTo_of_ensureWithin hensure hne).1
  | file content => exact usable_of_copy hcopy
  | link aim => exact usable_of_copy hcopy

end Files

namespace Build

open FileSystem (Cleared Rooted)

variable {session after : Session} {base : Path} {top : Location} {result : Except Failure Unit}

/-- What may have become of the output tree. Nothing outside it has changed, and a place in it is as
it was, is empty, or holds a directory, or a file where the source tree has one. -/
structure Touched (top : Location) (files files' : FileSystem) : Prop where
  current : files'.current = files.current
  tree : files'.tree.WellFormed
  outside {location} : ¬top ++ [Utf8.encode outputName] <+: location →
    files'.tree.node? location = files.tree.node? location
  node (names : List Name) : files'.tree.node? (top ++ Utf8.encode outputName :: names) =
      files.tree.node? (top ++ Utf8.encode outputName :: names) ∨
    files'.tree.node? (top ++ Utf8.encode outputName :: names) = none ∨
    files'.tree.node? (top ++ Utf8.encode outputName :: names) = some .directory ∨
    ∃ content, files.tree.node? (top ++ Utf8.encode sourceName :: names) = some (.file content)
  link {location aim} : files'.tree.node? location = some (.link aim) →
    files.tree.node? location = some (.link aim)

section Touched

variable {files files' files'' : FileSystem}

theorem Touched.refl (hwf : files.tree.WellFormed) : Touched top files files :=
  ⟨rfl, hwf, fun _ => rfl, fun _ => .inl rfl, id⟩

theorem Touched.trans (h : Touched top files files') (h' : Touched top files' files'') :
    Touched top files files'' where
  current := h'.current.trans h.current
  tree := h'.tree
  outside houtside := (h'.outside houtside).trans (h.outside houtside)
  node names := by
    rcases h'.node names with hsame | hnone | hdirectory | hfile
    · rw [hsame]
      exact h.node names
    · exact .inr (.inl hnone)
    · exact .inr (.inr (.inl hdirectory))
    · rw [h.outside (FileTree.not_prefix_of_head_ne (by decide) top names)] at hfile
      exact .inr (.inr (.inr hfile))
  link hlink := h.link (h'.link hlink)

theorem touched_of_cleared (h : Cleared (top ++ [Utf8.encode outputName]) files files') :
    Touched top files files' where
  current := h.current
  tree := h.tree
  outside := h.outside
  node names := by
    by_cases hnames : names = []
    · exact .inr (h.place.imp (fun hnone => hnames ▸ hnone) fun hdirectory => .inl (hnames ▸ hdirectory))
    · refine .inr (.inl ?_)
      rw [List.append_cons]
      exact h.below names hnames
  link := h.fewer

theorem touched_of_mirrors (hwf : files.tree.WellFormed)
    (h : Files.Mirrors top (Utf8.encode sourceName) (Utf8.encode outputName) files files') :
    Touched top files files' where
  current := h.grows.current
  tree := h.grows.tree hwf
  outside houtside := h.grows.outside fun ⟨names, heq⟩ => houtside (heq ▸ ⟨names, by simp⟩)
  node names := (h.node names).imp_right .inr
  link := h.grows.sustains.link.2

end Touched

/-- Whatever comes of copying the source tree, the output tree mirrors it as far as it has been
copied. What could be found shows that the data directory can still be reached. -/
theorem mirrors_copyTree {files : FileSystem} (hroot : files.Rooted base top)
    (hcleared : session.files = files ∨ Cleared (top ++ [Utf8.encode outputName]) files session.files)
    (h : (Files.copyTree (Layout.of base).source (Layout.of base).output).perform session =
      (result, after)) :
    Files.Mirrors top (Utf8.encode sourceName) (Utf8.encode outputName) session.files after.files := by
  rcases Action.bind_cases h with ⟨failure, hwalk, -⟩ | ⟨⟨found, node⟩, walked, hwalk, hcopy⟩
  · rw [(Files.reads_walkRoot _).files_eq hwalk]
    exact .refl _ _ _ _
  obtain ⟨hlookup, rfl⟩ := Files.lookup_of_walkRoot hwalk
  have hroot' : walked.files.Rooted base top := by
    rcases hcleared with hsame | hcleared
    · exact hsame ▸ hroot
    · exact hcleared.rooted hroot plain_sourceName hlookup
  have hsource : Path.Within base [Utf8.encode sourceName] (Layout.of base).source :=
    Path.within_child base plain_sourceName
  have htarget : Path.Within base [Utf8.encode outputName] ((Layout.of base).output.join ⟨[]⟩) :=
    (Path.within_child base plain_outputName).join_nil
  obtain ⟨rfl, hnode⟩ := FileSystem.lookup_within hroot' hsource (by simp) hlookup
  cases node with
  | directory => exact Files.mirrors_copyBelow hroot' (by decide) htarget hcopy
  | file content => exact Files.mirrors_copy hroot' (by decide) htarget hnode hcopy
  | link aim => exact absurd hnode hroot'.linkless.no_link

/-- Whatever comes of replacing the output tree, nothing else is touched. -/
theorem touched_of_renewOutput (hroot : session.files.Rooted base top)
    (h : (renewOutput (.of base)).perform session = (result, after)) :
    Touched top session.files after.files := by
  have hdeleted : ∀ {result deleted}, (Files.deleteTree (Layout.of base).output).perform session =
    (result, deleted) →
      (deleted.files = session.files ∨ Cleared
        (top ++ [Utf8.encode outputName]) session.files deleted.files) ∧
        Touched top session.files deleted.files := by
    intro result deleted hdelete
    rcases Files.deleteTree_cases hroot plain_outputName hdelete with ⟨hsame, -⟩ | hcleared
    · rw [hsame]
      exact ⟨.inl rfl, .refl hroot.tree⟩
    · exact ⟨.inr hcleared, touched_of_cleared hcleared⟩
  rcases Action.bind_cases h with ⟨failure, hdelete, -⟩ | ⟨_, deleted, hdelete, hrest⟩
  · exact (hdeleted hdelete).2
  obtain ⟨hcleared, htouched⟩ := hdeleted hdelete
  have hcopied : ∀ {result copied}, (Files.copyTree (Layout.of base).source
    (Layout.of base).output).perform deleted =
      (result, copied) → Touched top session.files copied.files := fun hcopy =>
    htouched.trans (touched_of_mirrors htouched.tree (mirrors_copyTree hroot hcleared hcopy))
  rcases Action.bind_cases hrest with ⟨failure, hcopy, -⟩ | ⟨_, copied, hcopy, hlog⟩
  · exact hcopied hcopy
  · cases hlog
    have htouched := hcopied hcopy
    exact htouched

/-- The output tree is what the source tree was, its files can be found by their paths, and nothing
else in the data directory or beside it has changed. -/
structure Renewed (base : Path) (top : Location) (files files' : FileSystem) : Prop where
  rooted : files'.Rooted base top
  same (names : List Name) : files'.tree.node? (top ++ Utf8.encode outputName :: names) =
    files.tree.node? (top ++ Utf8.encode sourceName :: names)
  outside {location} : ¬top ++ [Utf8.encode outputName] <+: location →
    files'.tree.node? location = files.tree.node? location
  usable (names : List Name) (content : Content) :
    files.tree.node? (top ++ Utf8.encode sourceName :: names) = some (.file content) →
    (pathBelow (Layout.of base).output names).Usable

/-- The output tree is replaced by the source tree. -/
theorem renewed_renewOutput (hroot : session.files.Rooted base top)
    (hsource : session.files.tree.node? (top ++ [Utf8.encode sourceName]) = some .directory)
    (h : (renewOutput (.of base)).perform session = (.ok (), after)) :
    Renewed base top session.files after.files := by
  have houtput : (Layout.of base).output = base.child (Utf8.encode outputName) := rfl
  obtain ⟨_, deleted, hdelete, h⟩ := Action.bind_eq_ok_iff.1 h
  obtain ⟨_, copied, hcopy, hlog⟩ := Action.bind_eq_ok_iff.1 h
  cases hlog
  have husable : (Layout.of base).output.Usable :=
    .of_join_nil (Files.usable_of_copyTree hcopy
      (by simp [houtput, Path.join_nil_bytes_child plain_outputName]))
  have hcleared := Files.cleared_deleteTree hroot plain_outputName husable hdelete
  obtain ⟨⟨location, node⟩, between, hwalk, hcopy⟩ := Action.bind_eq_ok_iff.1 hcopy
  obtain ⟨hlookup, hbetween⟩ := Files.lookup_of_walkRoot hwalk
  have hroot' := hcleared.rooted hroot plain_sourceName hlookup
  obtain ⟨rfl, hnode⟩ := FileSystem.lookup_within hroot' (Path.within_child base plain_sourceName)
    (by simp) hlookup
  have hapart : Files.Apart [Utf8.encode sourceName] ([] ++ [Utf8.encode outputName]) :=
    ⟨by decide, by decide⟩
  have houtside : ∀ names, deleted.files.tree.node? (top ++ Utf8.encode sourceName :: names) =
      session.files.tree.node? (top ++ Utf8.encode sourceName :: names) := fun names =>
    hcleared.outside (hapart.not_prefix _ [] names)
  obtain rfl : node = .directory := by
    rw [houtside, hsource] at hnode
    exact (Option.some.inj hnode).symm
  rw [hbetween] at hcopy
  have hreceives : Files.Receives deleted.files base top [] (Utf8.encode outputName)
      ((Layout.of base).output.join ⟨[]⟩) :=
    ⟨(Path.within_child base plain_outputName).join_nil, by decide,
      by rw [List.append_nil]; exact hroot'.linkless.directory, hcleared.place, fun names hnames => by
        rw [← List.append_assoc]
        exact hcleared.below names hnames⟩
  have hcopied := Files.copyBelow_within hroot'
    (Path.within_child base plain_sourceName) hnode hreceives hapart hcopy
  refine ⟨hcopied.grows.rooted hroot', fun names => (hcopied.same names).trans (houtside names), ?_, ?_⟩
  · intro location hnot
    exact (hcopied.grows.outside hnot).trans (hcleared.outside hnot)
  · intro names content hfile
    cases names with
    | nil => cases hsource.symm.trans hfile
    | cons name names =>
        have hname := hroot.tree.plain_of_mem hfile name (by simp)
        have husable := hcopied.usable (name :: names) content ((houtside _).trans hfile)
        rw [pathBelow, List.foldl_cons] at husable ⊢
        rwa [houtput, Path.child_join_nil _ hname] at husable

end Build

end ServerPack
