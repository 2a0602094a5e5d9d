import ServerPack.Proofs.FileSystem.Ancestors
import ServerPack.Proofs.FileSystem.DirectoryMerge
import ServerPack.Proofs.Selection.Recursive

/-!
Copying a tree to wherever a path leads. First the directories on the way of the destination are
made, then what is below the source is laid over what is there (`succeeds_copyTree`). So copying
fails just where a directory comes upon a file or a file upon a directory, or where there is no room
for a path, and otherwise nothing changes besides (`copyTree_overlays`).
-/

namespace ServerPack.Files

open FileSystem (Gains)

/-! A whole tree. -/

section Tree

variable {session : Session} {files : FileSystem} {source destination : Path} {here : Location}

theorem onWay_join_nil (files : FileSystem) (path : Path) :
    files.OnWay (path.join ⟨[]⟩) = files.OnWay path := by
  funext location
  rw [FileSystem.OnWay, FileSystem.OnWay, FileSystem.start, FileSystem.start, Path.names_join_nil,
    Path.isAbsolute_join_nil]

theorem home_join_nil (files : FileSystem) (path : Path) :
    files.home (path.join ⟨[]⟩) = files.home path := by
  rw [FileSystem.home, FileSystem.home, FileSystem.start, FileSystem.start, Path.names_join_nil,
    Path.isAbsolute_join_nil]

theorem pathBelow_join_nil {name : Name} (hname : Path.Plain name) (path : Path) (names : Location) :
    Build.pathBelow (path.join ⟨[]⟩) (name :: names) = Build.pathBelow path (name :: names) := by
  rw [Build.pathBelow, List.foldl_cons, Path.child_join_nil path hname, Build.pathBelow, List.foldl_cons]

/-- What lies below a directory can be copied to a destination when the directories on the way there
have been made. -/
def FitsBelow (files : FileSystem) (here : Location) (source destination : Path) : Prop :=
  ∀ names, names ≠ [] → FitsAt (files.tree.node? (here ++ names))
    (files.paved destination (files.home destination ++ names))
    (Build.pathBelow source names) (Build.pathBelow destination names)

/-- What was below a directory lies at a destination over what was there, and the directories on the
way there have been made; nothing else has changed. -/
structure CopiedOver (here : Location) (destination : Path) (files files' : FileSystem) : Prop where
  current : files'.current = files.current
  inside (names : Location) : files'.tree.node? (files.home destination ++ names) =
    (files.tree.node? (here ++ names)).or (files.paved destination (files.home destination ++ names))
  outside {location : Location} : ¬files.home destination <+: location →
    files'.tree.node? location = files.paved destination location

/-- Where a source path leads. -/
theorem leadsTo_of_itself (h : files.lookup .itself source = .ok (here, .directory)) :
    source.Usable ∧ files.LeadsTo source here := by
  obtain ⟨husable, used, hused, hway⟩ := FileSystem.lookup_eq_ok_iff.1 h
  have hreading := hway.reading fun _ _ heq => by cases heq
  exact ⟨husable, FileSystem.leadsTo_of_lookup
    (FileSystem.lookup_eq_ok_iff.2 ⟨husable, used, hused, hreading⟩)⟩

theorem perform_copyTree (h : session.files.lookup .itself source = .ok (here, .directory)) :
    (copyTree source destination).perform session =
      (copyBelow Path.maxLength here source (destination.join ⟨[]⟩)).perform session := by
  have hwalk : (walkRoot source).perform session = (.ok (here, .directory), session) := by
    rw [walkRoot, Action.perform_bind_of_ok (Action.perform_ask _ session), h]
    rfl
  rw [copyTree, Action.perform_bind_of_ok hwalk]

theorem passable_join_nil (files : FileSystem) (path : Path) :
    files.Passable (path.join ⟨[]⟩) = files.Passable path := by
  rw [FileSystem.Passable, onWay_join_nil]
  rfl

theorem enterable_join_nil (files : FileSystem) (path : Path) :
    files.Enterable (path.join ⟨[]⟩) = files.Enterable path := by
  rw [FileSystem.Enterable, FileSystem.Enterable, Path.names_join_nil, home_join_nil,
    FileSystem.start, FileSystem.start, Path.isAbsolute_join_nil]

/-- The entries of the source are copied when the directories on the way of the destination have
been made. -/
theorem succeeds_entries_of_paved {made : Session} (hwf : session.files.WellFormed)
    (hfree : session.files.tree.LinkFree) (husable : source.Usable)
    (hleads : session.files.LeadsTo source here) (happart : Apart here (session.files.home destination))
    (hkept : ∀ location, session.files.OnWay destination location → here <+: location →
      session.files.tree.node? location ≠ none)
    (hgains : Gains (session.files.OnWay destination) session.files made.files)
    (htarget : made.files.LeadsTo (destination.join ⟨[]⟩) (session.files.home destination)) :
    (copyEntries 4094 here source (destination.join ⟨[]⟩) (session.files.tree.children here)).Succeeds made
      (FitsBelow session.files here source destination) fun after =>
        CopiedOver here destination session.files after.files := by
  have hwf' := hgains.wellFormed hwf
  have hfree' := hgains.linkFree hfree
  have hpaved : ∀ location, made.files.tree.node? location = session.files.paved destination location := by
    have hall := @FileSystem.node?_eq_paved session.files made.files (destination.join ⟨[]⟩) hwf hfree
    rw [onWay_join_nil, home_join_nil] at hall
    intro location
    rw [hall hgains htarget]
    simp only [FileSystem.paved, onWay_join_nil]
  have hsame : ∀ names, made.files.tree.node? (here ++ names) = session.files.tree.node?
      (here ++ names) := by
    intro names
    rcases hgains.eq_or_made (here ++ names) with hsame | ⟨hway, hnone, -⟩
    · exact hsame
    · exact absurd hnone (hkept _ hway (List.prefix_append _ _))
  have hfacing : Facing made.files source (destination.join ⟨[]⟩) here (session.files.home destination) :=
    ⟨hwf'.rooted (hgains.leadsTo hleads) fun _ _ => hfree' _ _, hwf'.rooted htarget fun _ _ =>
      hfree' _ _, hfree', happart, husable⟩
  have hlength : Path.maxLength ≤ 4094 + source.bytes.length :=
    Nat.add_le_add_left (List.length_pos_iff.2 husable.ne_nil) 4094
  have hcopied := hfacing.succeeds_entries (copies 4094) hlength
  rw [FileTree.children_congr hsame] at hcopied
  refine hcopied.mono ?_ fun after _ hoverlaid =>
    ⟨hoverlaid.grows.current.trans hgains.current, fun names => ?_,
    fun hnot => (hoverlaid.grows.outside hnot).trans (hpaved _)⟩
  · simp only [subtree_concat made.files.tree (session.files.home destination)]
    rw [← FileTree.children_congr hsame, forall_fits_iff hwf'.tree]
    refine forall₂_congr fun names hnames => ?_
    rw [hsame, FileTree.subtree, hpaved]
    cases hnode : session.files.tree.node? (here ++ names) with
    | none => exact iff_of_true (fitsAt_none _ _ _) (fitsAt_none _ _ _)
    | some node =>
        obtain ⟨name, rest, rfl⟩ := List.exists_cons_of_ne_nil hnames
        rw [pathBelow_join_nil (hwf.tree.plain_of_mem hnode name List.mem_cons_self)]
  · have hnode := hoverlaid.node names
    rwa [FileTree.subtree, FileTree.subtree, FileTree.subtree, hsame,
      hpaved (session.files.home destination ++ names)] at hnode

/-- When a directory can be copied over what is at a destination, and what copying it does. -/
theorem succeeds_copyTree (hwf : session.files.WellFormed) (hfree : session.files.tree.LinkFree)
    (hsource : session.files.lookup .itself source = .ok (here, .directory))
    (happart : Apart here (session.files.home destination))
    (hkept : ∀ location, session.files.OnWay destination location → here <+: location →
      session.files.tree.node? location ≠ none) :
    (copyTree source destination).Succeeds session
      ((((destination.join ⟨[]⟩).bytes ≠ [] → (destination.join ⟨[]⟩).Usable) ∧
        session.files.Passable destination ∧
        session.files.Enterable destination) ∧ FitsBelow session.files here source destination)
      fun after => CopiedOver here destination session.files after.files := by
  obtain ⟨husable, hleads⟩ := leadsTo_of_itself hsource
  have hensure := @Files.succeeds_ensure session (destination.join ⟨[]⟩) hwf hfree
  rw [passable_join_nil, enterable_join_nil, home_join_nil, onWay_join_nil] at hensure
  have hcopy : (ensure (destination.join ⟨[]⟩) >>= fun _ => Action.ofExcept (enter source) >>= fun _ =>
      copyEntries 4094 here source (destination.join ⟨[]⟩)
          (session.files.tree.children here)).Succeeds session _ _ :=
    hensure.bind fun made _ hmade => (Action.Succeeds.ofExcept (enter source) made).bind
        fun entered _ heq =>
      heq ▸ succeeds_entries_of_paved hwf hfree husable hleads happart hkept hmade.1 hmade.2
  refine (hcopy.congr ((perform_copyTree hsource).trans (perform_copyBelow ..))).mono ?_ fun _ _ => id
  rw [and_iff_right (enter_eq_ok_iff.2 husable.short)]

/-- A directory comes upon a file at the end of a path if that is there already. -/
theorem clash_home {files : FileSystem} {destination : Path} :
    Clash (some .directory) (files.paved destination (files.home destination)) ↔
      ∃ content, files.tree.node? (files.home destination) = some (.file content) := by
  rw [FileSystem.paved, if_pos (files.onWay_home destination)]
  constructor
  · intro hclash
    generalize files.tree.node? (files.home destination) = existing at hclash ⊢
    cases existing with
    | none => cases hclash
    | some node =>
        cases hclash with
        | directory content => exact ⟨content, rfl⟩
  · rintro ⟨content, hfile⟩
    rw [hfile]
    exact .directory content

/-- A path leads to a directory, which lies apart from the place of a destination, and no file is on
the way there. -/
structure Separate (files : FileSystem) (source : Path) (here : Location) (destination : Path) : Prop where
  leads : files.lookup .itself source = .ok (here, .directory)
  apart : Apart here (files.home destination)
  way {location : Location} (content : Content) : files.OnWay destination location →
    location ≠ files.home destination →
    files.tree.node? location ≠ some (.file content)

/-- The paths of what has to be copied and those of its places at the destination can be followed.
The directories that are missing on the way have names that a directory can give, and the path as it
is written makes all of them. -/
structure Room (files : FileSystem) (here : Location) (source destination : Path) : Prop where
  way {location : Location} : files.OnWay destination location → files.tree.node? location = none →
    ∀ name ∈ location.getLast?, name.length ≤ Path.maxNameLength
  ending : files.Enterable destination
  place : destination.bytes ≠ [] → (destination.join ⟨[]⟩).Usable
  entries {names : Location} : names ≠ [] → files.tree.node? (here ++ names) ≠ none →
    (Build.pathBelow source names).Usable ∧ (Build.pathBelow destination names).Usable

/-- Nothing is in the way of copying a directory if neither kind of node comes upon the other one
and there is room. -/
theorem unobstructed_iff (hfree : files.tree.LinkFree) (hhere : files.tree.node? here = some .directory)
    (h : Separate files source here destination) :
    (((destination.join ⟨[]⟩).bytes ≠ [] → (destination.join ⟨[]⟩).Usable) ∧ files.Passable destination ∧
        files.Enterable destination) ∧ FitsBelow files here source destination ↔
      (∀ names, ¬Clash (files.tree.node? (here ++ names))
        (files.paved destination (files.home destination ++ names))) ∧
        Room files here source destination := by
  have hempty : (destination.join ⟨[]⟩).bytes = [] ↔ destination.bytes = [] := by
    rw [Path.join_nil_bytes]
    split
    · exact Iff.rfl
    · next hne => exact iff_of_false (by simp) (not_or.1 hne).1
  have hfirst : Clash (files.tree.node? (here ++ []))
    (files.paved destination (files.home destination ++ [])) ↔
      ∃ content, files.tree.node? (files.home destination) = some (.file content) := by
    rw [List.append_nil, List.append_nil, hhere]
    exact clash_home
  constructor
  · rintro ⟨⟨hplace, hpassable, henter⟩, hfits⟩
    obtain ⟨hshort, hnot⟩ := (FileSystem.passable_iff hfree).1 hpassable
    refine ⟨fun names hclash => ?_, ⟨hshort, henter, fun hne => hplace (mt hempty.1 hne),
        fun hnames hnode =>
      (hfits _ hnames).usable hnode⟩⟩
    by_cases hnames : names = []
    · obtain ⟨content, hfile⟩ := hfirst.1 (hnames ▸ hclash)
      exact hnot (files.onWay_home destination) content hfile
    · exact (hfits names hnames).no_clash hclash
  · rintro ⟨hclash, hroom⟩
    have hpassable : files.Passable destination := by
      refine (FileSystem.passable_iff hfree).2 ⟨hroom.way, fun {location} hon content hfile => ?_⟩
      by_cases hhome : location = files.home destination
      · exact hclash [] (hfirst.2 ⟨content, hhome ▸ hfile⟩)
      · exact h.way content hon hhome hfile
    exact ⟨⟨fun hne => hroom.place (mt hempty.2 hne), hpassable, hroom.ending⟩, fun names hnames =>
      ⟨hclash names, hroom.entries hnames⟩⟩

/-- Copying a directory puts it over whatever is at the destination: it succeeds just if no
directory comes upon a file or a file upon a directory and there is room for all paths, and then
what was below the source lies at the destination over what was there when the directories on its
way had been made. Nothing else changes. -/
theorem copyTree_overlays (hwf : session.files.WellFormed) (hfree : session.files.tree.LinkFree)
    (h : Separate session.files source here destination)
    (hkept : ∀ location, session.files.OnWay destination location → here <+: location →
      session.files.tree.node? location ≠ none) :
    ∃ result after, (copyTree source destination).perform session = (result, after) ∧
      (result = .ok () ↔ (∀ names, ¬Clash (session.files.tree.node? (here ++ names))
        (session.files.paved destination (session.files.home destination ++ names))) ∧
        Room session.files here source destination) ∧
      (result = .ok () → CopiedOver here destination session.files after.files ∧
        (∀ names, after.files.tree.node? (here ++ names) = session.files.tree.node? (here ++ names)) ∧
        (session.files.tree.node? (session.files.home destination) = none →
          (∀ location, session.files.OnWay destination location →
            session.files.home destination <+: location →
            location = session.files.home destination) →
          ∀ names, after.files.tree.node? (session.files.home destination ++ names) =
            session.files.tree.node? (here ++ names))) := by
  rcases hperform : (copyTree source destination).perform session with ⟨result, after⟩
  refine ⟨result, after, rfl, ?_⟩
  have hcopy := succeeds_copyTree hwf hfree h.leads h.apart hkept
  obtain ⟨-, hleads⟩ := leadsTo_of_itself h.leads
  have hhere : session.files.tree.node? here = some .directory :=
    (hwf.rooted hleads fun _ _ => hfree _ _).linkless.directory
  have hiff := @unobstructed_iff session.files source destination here hfree hhere h
  refine ⟨⟨?_, fun hconditions => ?_⟩, ?_⟩
  · rintro rfl
    exact hiff.1 (hcopy.sound hperform).1
  · obtain ⟨after', hok⟩ := hcopy.complete (hiff.2 hconditions)
    exact congrArg Prod.fst (hperform.symm.trans hok)
  · rintro rfl
    have hcopied := (hcopy.sound hperform).2
    refine ⟨hcopied, fun names => ?_, fun hnone halone names => ?_⟩
    · rw [hcopied.outside (h.apart.outside names), FileSystem.paved]
      cases hnode : session.files.tree.node? (here ++ names) with
      | some node => rfl
      | none => exact if_neg fun hon => hkept _ hon (List.prefix_append _ _) hnode
    · rw [hcopied.inside]
      by_cases hnames : names = []
      · rw [hnames, List.append_nil, hhere]
        rfl
      · have hpaved : session.files.paved destination (session.files.home destination ++ names) = none := by
          rw [FileSystem.paved, hwf.tree.none_below hnone, if_neg fun hon => hnames ?_]
          · rfl
          · simpa using halone _ hon (List.prefix_append _ _)
        rw [hpaved, Option.or_none]

/-- Directories `s` and `d` that have a folder and a file in it in common. -/
def facingSession : Session :=
  let text (content : String) : Node := .file (.plain (Utf8.encode content.toList))
  let nodes : List (List String × Node) := [
    (["s"], .directory), (["s", "a"], .directory), (["s", "a", "f"], text "new"), (["s", "e"], .directory),
    (["d"], .directory), (["d", "a"], .directory), (["d", "a", "f"], text "old"),
    (["d", "a", "g"], text "kept")]
  let tree : FileTree :=
    nodes.foldl (fun tree (names, node) =>
      tree.insert (names.map fun name => Utf8.encode name.toList) node) .empty
  { Build.sampleSession "b" with files := ⟨tree, []⟩ }

theorem forall_onWay_iff {path : Path} {condition : Location → Prop} :
    (∀ location, files.OnWay path location → condition location) ↔
      ∀ front ∈ (FileTree.trimmed path.names).inits,
      condition (FileTree.destination (files.start path) front) := by
  simp only [FileSystem.OnWay, List.mem_inits]
  constructor
  · exact fun h front hfront => h _ ⟨front, hfront, rfl⟩
  · rintro h _ ⟨front, hfront, rfl⟩
    exact h front hfront

/-- A destination lies apart from a directory if each place on its way is a directory or free. -/
theorem separate_of_open (hleads : files.lookup .itself source = .ok (here, .directory))
    (happart : Apart here (files.home destination))
    (hopen : ∀ front ∈ (FileTree.trimmed destination.names).inits,
      Open files (FileTree.destination (files.start destination) front)) :
    Separate files source here destination := by
  refine ⟨hleads, happart, fun content hon _ hfile => ?_⟩
  rcases forall_onWay_iff.2 hopen _ hon with hnode | hnode <;> cases hnode.symm.trans hfile

theorem copyTree_overlays_facing : ∃ after,
    (copyTree (.ofText ['s']) (.ofText "t/../d".toList)).perform facingSession = (.ok (), after) ∧
      after.files.tree.node? [Utf8.encode ['t']] = some .directory ∧
      after.files.tree.node? [Utf8.encode ['d'], Utf8.encode ['e']] = some .directory ∧
      after.files.tree.node? [Utf8.encode ['d'], Utf8.encode ['a'], Utf8.encode ['f']] =
        some (.file (.plain (Utf8.encode "new".toList))) ∧
      after.files.tree.node? [Utf8.encode ['d'], Utf8.encode ['a'], Utf8.encode ['g']] =
        some (.file (.plain (Utf8.encode "kept".toList))) := by
  have hwf : facingSession.files.WellFormed := by decide +kernel
  have hfree : facingSession.files.tree.LinkFree := FileTree.node?_ne_link (by decide +kernel)
  have hseparate : Separate facingSession.files (.ofText ['s']) [Utf8.encode ['s']]
      (.ofText "t/../d".toList) :=
    separate_of_open (by decide +kernel) ⟨by decide +kernel, by decide +kernel⟩ (by decide +kernel)
  obtain ⟨result, after, hperform, -, hdone⟩ := copyTree_overlays hwf hfree hseparate
    (forall_onWay_iff.2 (by decide +kernel))
  have hresult : result.toOption = some () := by
    have hok : ((copyTree (.ofText ['s']) (.ofText "t/../d".toList)).perform
        facingSession).1.toOption = some () := by
      decide +kernel
    rwa [hperform] at hok
  obtain rfl : result = .ok () := by
    cases result with
    | error failure => cases hresult
    | ok done => rfl
  obtain ⟨hcopied, -, -⟩ := hdone rfl
  have hinside : ∀ names, after.files.tree.node? (Utf8.encode ['d'] :: names) =
      (facingSession.files.tree.node? (Utf8.encode ['s'] :: names)).or
        (facingSession.files.paved (.ofText "t/../d".toList) (Utf8.encode ['d'] :: names)) := by
    have hhome : facingSession.files.home (.ofText "t/../d".toList) = [Utf8.encode ['d']] := by
      decide +kernel
    have hall := hcopied.inside
    rwa [hhome] at hall
  refine ⟨after, hperform, (hcopied.outside (by decide +kernel)).trans (by decide +kernel), ?_, ?_, ?_⟩
  · exact (hinside [Utf8.encode ['e']]).trans (by decide +kernel)
  · exact (hinside [Utf8.encode ['a'], Utf8.encode ['f']]).trans (by decide +kernel)
  · exact (hinside [Utf8.encode ['a'], Utf8.encode ['g']]).trans (by decide +kernel)

/-- A directory is not copied to where nothing is, apart from it. -/
structure Refused (session : Session) (source : Path) (here : Location) (destination : Path) : Prop where
  separate : Separate session.files source here destination
  absent : session.files.tree.node? (session.files.home destination) = none
  fails (after : Session) : (copyTree source destination).perform session ≠ (.ok (), after)

/-- A directory is copied to where nothing is, apart from it, and another one is made where none
was. -/
structure Strays (session : Session) (source : Path) (here : Location) (destination : Path)
    (stray : Location) : Prop where
  separate : Separate session.files source here destination
  absent : session.files.tree.node? (session.files.home destination) = none
  missing : session.files.tree.node? stray = none
  made : ∃ after, (copyTree source destination).perform session = (.ok (), after) ∧
    after.files.tree.node? stray = some .directory

section Open

variable (hleads : session.files.lookup .itself source = .ok (here, .directory))
  (happart : Apart here (session.files.home destination))
  (hopen : ∀ front ∈ (FileTree.trimmed destination.names).inits,
    Open session.files (FileTree.destination (session.files.start destination) front))
  (habsent : session.files.tree.node? (session.files.home destination) = none)

include hleads happart hopen habsent

theorem refused_of_open (hresult : ((copyTree source destination).perform session).1.toOption = none) :
    Refused session source here destination := by
  refine ⟨separate_of_open hleads happart hopen, habsent, fun after hperform => ?_⟩
  rw [hperform] at hresult
  cases hresult

theorem strays_of_open {stray : Location} (hmissing : session.files.tree.node? stray = none)
    (hresult : ((copyTree source destination).perform session).1.toOption = some ())
    (hmade : ((copyTree source destination).perform session).2.files.tree.node? stray = some .directory) :
    Strays session source here destination stray := by
  refine ⟨separate_of_open hleads happart hopen, habsent, hmissing, ?_⟩
  rcases hperform : (copyTree source destination).perform session with ⟨result, after⟩
  rw [hperform] at hresult hmade
  cases result with
  | error failure => cases hresult
  | ok done => exact ⟨after, rfl, hmade⟩

end Open

/-- A directory is not copied if the destination is written with a `.` behind it, if its name is too
long or if a path becomes too long; and the way of a destination may lead through the directory that
is copied, or through one below the copy, that is missing and then made there. -/
theorem copyTree_not_exact : Build.longSession.files.WellFormed ∧ Build.longSession.files.tree.LinkFree ∧
    Refused Build.longSession Build.sampleBase [Utf8.encode ['d']] (.ofText "e/.".toList) ∧
    Refused Build.longSession Build.sampleBase [Utf8.encode ['d']] (.ofText (List.replicate 256 'x')) ∧
    Refused Build.longSession (Build.padded 3900) [Utf8.encode ['d']] (.ofText ['e']) ∧
    Strays Build.longSession Build.sampleBase [Utf8.encode ['d']] (.ofText "d/n/../../e".toList)
      [Utf8.encode ['d'], Utf8.encode ['n']] ∧
    Strays Build.longSession Build.sampleBase [Utf8.encode ['d']] (.ofText "e/n/..".toList)
      [Utf8.encode ['e'], Utf8.encode ['n']] := by
  have hwf : Build.longSession.files.WellFormed := by decide +kernel
  have hfree : Build.longSession.files.tree.LinkFree := FileTree.node?_ne_link (by decide +kernel)
  have hleads : Build.longSession.files.lookup .itself Build.sampleBase = .ok
      ([Utf8.encode ['d']], .directory) := by
    decide +kernel
  have hlong : Separate Build.longSession.files (Build.padded 3900) [Utf8.encode ['d']] (.ofText ['e']) :=
    separate_of_open (Build.lookup_padded (by decide) rfl (by decide +kernel) .itself)
      ⟨by decide +kernel, by decide +kernel⟩ (by decide +kernel)
  refine ⟨hwf, hfree, ?_, ?_, ⟨hlong, by decide +kernel, fun after hperform => ?_⟩, ?_, ?_⟩
  · exact refused_of_open hleads ⟨by decide +kernel, by decide +kernel⟩ (by decide +kernel)
      (by decide +kernel)
      (by decide +kernel)
  · exact refused_of_open hleads ⟨by decide +kernel, by decide +kernel⟩ (by decide +kernel)
      (by decide +kernel)
      (by decide +kernel)
  · have hcopy := succeeds_copyTree hwf hfree hlong.leads hlong.apart
      (forall_onWay_iff.2 (by decide +kernel))
    have hfits := (hcopy.sound hperform).1.2 [Build.longName] (List.cons_ne_nil _ _)
    have hshort := (hfits.usable (by decide +kernel)).1.short
    rw [Build.pathBelow, List.foldl_cons, List.foldl_nil] at hshort
    exact absurd (of_decide_eq_true Build.isTooLong_padded_child) (Nat.not_lt_of_le hshort)
  · exact strays_of_open hleads ⟨by decide +kernel, by decide +kernel⟩ (by decide +kernel)
      (by decide +kernel)
      (by decide +kernel) (by decide +kernel) (by decide +kernel)
  · exact strays_of_open hleads ⟨by decide +kernel, by decide +kernel⟩ (by decide +kernel)
      (by decide +kernel)
      (by decide +kernel) (by decide +kernel) (by decide +kernel)

end Tree

end ServerPack.Files
