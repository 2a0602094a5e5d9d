import ServerPack.Proofs.Selection.Walk

/-!
What the recursive search of a directory gives. It walks all that lies below the directory. The
folder of an entry is the one that its names lead to before the last of them, or the root if there
is only one (`containingFolder_pathBelow`), so for each entry the search skips a directory, takes a
file by the name of its folder or stops (`selectRecursive_cases`). Therefore it fails at a folder
whose name is not UTF-8 if there is a file in it, also when no suffix is asked for, and otherwise it
takes exactly the files whose folder has one of the suffixes, in the order of the parts of their
paths (`select_below`). Only a directory whose path is too long to be entered stops it as well.
-/

namespace ServerPack

/-- These names lead from a location of a tree to something that is below it. -/
structure FileTree.Lies (tree : FileTree) (location names : Location) (node : Node) : Prop where
  ne_nil : names ≠ []
  there : tree.node? (location ++ names) = some node

theorem FileTree.lies_iff {tree : FileTree} {location names : Location} {node : Node} :
    tree.Lies location names node ↔ (names, node) ∈ tree.below location :=
  ⟨fun h => mem_below_iff.2 ⟨h.ne_nil, h.there⟩, fun h => ⟨(mem_below_iff.1 h).1, (mem_below_iff.1 h).2⟩⟩

namespace Build

variable {root : Path} {top : Name} {suffixes : List Text} {names : Location}

/-- The name of the folder in which an entry lies to which names lead from a directory that is
called `top`. -/
def folderOf (top : Name) (names : Location) : Name := names.dropLast.getLast?.getD top

theorem pathBelow_concat (root : Path) (names : Location) (name : Name) :
    pathBelow root (names ++ [name]) = (pathBelow root names).child name := List.foldl_concat ..

theorem components_pathBelow (hplain : ∀ name ∈ names, Path.Plain name) :
    (pathBelow root names).components = root.components ++ names.map .entry := by
  induction names generalizing root with
  | nil => simp [pathBelow]
  | cons name names ih =>
      obtain ⟨hname, hrest⟩ := List.forall_mem_cons.1 hplain
      calc (pathBelow root (name :: names)).components
        _ = (root.child name).components ++ names.map .entry := ih hrest
        _ = root.components ++ (name :: names).map .entry := by
            rw [Path.components_child hname, List.append_assoc]
            rfl

/-- A directory below the root is called by the last name that leads to it. -/
theorem lastName?_pathBelow (htop : root.lastName? = some top) (hplain : ∀ name ∈ names, Path.Plain name) :
    (pathBelow root names).lastName? = some (names.getLast?.getD top) := by
  rcases List.eq_nil_or_concat names with rfl | ⟨init, last, rfl⟩
  · exact htop
  · rw [List.concat_eq_append] at hplain ⊢
    rw [pathBelow_concat, Path.lastName?_child (hplain last (by simp)), List.getLast?_concat,
      Option.getD_some]

theorem containingFolder_pathBelow (htop : root.lastName? = some top)
    (hplain : ∀ name ∈ names, Path.Plain name) (hne : names ≠ []) :
    (pathBelow root names).containingFolder = (Path.nameText (folderOf top names)).map some := by
  obtain ⟨init, last, rfl⟩ := (List.eq_nil_or_concat names).resolve_left hne
  rw [List.concat_eq_append] at hplain ⊢
  have hinit : ∀ name ∈ init, Path.Plain name :=
    fun name hname => hplain name (List.mem_append_left _ hname)
  rw [pathBelow_concat, Path.containingFolder_child (hplain last (by simp))
    (lastName?_pathBelow htop hinit), folderOf, List.dropLast_concat]

/-! One walk. -/

/-- A directory that a walk has met cannot be entered. -/
def Shut (root : Path) (entry : Location × Node) : Prop :=
  entry.2.isDirectory = true ∧ (pathBelow root entry.1).isTooLong = true

instance (root : Path) (entry : Location × Node) : Decidable (Shut root entry) :=
    inferInstanceAs (Decidable (_ ∧ _))

/-- A file that a walk has met is in a folder whose name is not UTF-8. -/
def Unnamed (top : Name) (entry : Location × Node) : Prop :=
  entry.2.isDirectory = false ∧ Utf8.decode? (folderOf top entry.1) = none

instance (top : Name) (entry : Location × Node) : Decidable (Unnamed top entry) :=
    inferInstanceAs (Decidable (_ ∧ _))

/-- A file that a walk has met is in a folder with one of the suffixes. -/
def taken (top : Name) (suffixes : List Text) (entry : Location × Node) : Bool :=
  !entry.2.isDirectory && (Utf8.decode? (folderOf top entry.1)).any (matchesFolder · suffixes)

/-- The recursive search goes through a walk and takes the files that it wants, or it stops: at a
file in a folder whose name is not UTF-8, or at a directory that cannot be entered. -/
theorem selectRecursive_cases (suffixes : List Text) {walked : List (Location × Node)}
    (hfolder : ∀ entry ∈ walked, (pathBelow root entry.1).containingFolder =
      (Path.nameText (folderOf top entry.1)).map some) :
    ((¬∃ entry ∈ walked, Shut root entry) ∧ (¬∃ entry ∈ walked, Unnamed top entry) ∧
      selectRecursive root suffixes walked =
        .ok ((walked.filter (taken top suffixes)).map fun entry => pathBelow root entry.1)) ∨
    ((∃ entry ∈ walked, Unnamed top entry) ∧
      ∃ shown, selectRecursive root suffixes walked = .error (.nameNotUtf8 shown)) ∨
    ((∃ entry ∈ walked, Shut root entry) ∧
      ∃ shown, selectRecursive root suffixes walked = .error (.walk shown .nameTooLong)) := by
  induction walked with
  | nil => exact .inl ⟨by simp, by simp, rfl⟩
  | cons entry rest ih =>
      obtain ⟨hentry, hrest⟩ := List.forall_mem_cons.1 hfolder
      obtain ⟨names, node⟩ := entry
      rw [List.exists_mem_cons_iff, List.exists_mem_cons_iff, selectRecursive]
      cases hnode : node.isDirectory with
      | true =>
          have hnot : ¬Unnamed top (names, node) := fun h => by simp [Unnamed, hnode] at h
          have hskip : taken top suffixes (names, node) = false := by simp [taken, hnode]
          rw [if_pos rfl, Files.enter]
          by_cases hlong : (pathBelow root names).isTooLong = true
          · rw [if_pos hlong]
            exact .inr (.inr ⟨.inl ⟨hnode, hlong⟩, _, rfl⟩)
          · have hopen : ¬Shut root (names, node) := fun h => hlong h.2
            rw [if_neg hlong, List.filter_cons_of_neg (by simp [hskip])]
            rcases ih hrest with ⟨hshut, hunnamed, hpaths⟩ | ⟨hunnamed, hfails⟩ | ⟨hshut, hfails⟩
            · exact .inl ⟨not_or.2 ⟨hopen, hshut⟩, not_or.2 ⟨hnot, hunnamed⟩, hpaths⟩
            · exact .inr (.inl ⟨.inr hunnamed, hfails⟩)
            · exact .inr (.inr ⟨.inr hshut, hfails⟩)
      | false =>
          have hopen : ¬Shut root (names, node) := fun h => by simp [Shut, hnode] at h
          rw [if_neg (by decide), hentry, Path.nameText]
          cases hname : Utf8.decode? (folderOf top names) with
          | none => exact .inr (.inl ⟨.inl ⟨hnode, hname⟩, _, rfl⟩)
          | some folder =>
              have hnot : ¬Unnamed top (names, node) := fun h => by simp [Unnamed, hname] at h
              have htaken : taken top suffixes (names, node) = matchesFolder folder suffixes := by
                simp [taken, hnode, hname]
              rcases ih hrest with ⟨hshut, hunnamed, hpaths⟩ | ⟨hunnamed, shown, hfails⟩ | ⟨hshut,
                shown, hfails⟩
              · refine .inl ⟨not_or.2 ⟨hopen, hshut⟩, not_or.2 ⟨hnot, hunnamed⟩, ?_⟩
                rw [List.filter_cons, htaken, hpaths]
                by_cases hmatches : matchesFolder folder suffixes = true <;>
                  simp [hmatches, Except.map, bind, Except.bind]
              · exact .inr (.inl ⟨.inr hunnamed, shown, by rw [hfails]; rfl⟩)
              · exact .inr (.inr ⟨.inr hshut, shown, by rw [hfails]; rfl⟩)

/-- A search of a directory goes by what lies below it. -/
theorem result_of_select_eq {session : Session} {location : Location}
    (hroot : session.files.lookup .target root = .ok (location, .directory)) (recursive : Bool)
    (suffixes : List Text) :
    ((select root recursive suffixes).perform session).1 =
      if recursive then selectRecursive root suffixes (session.files.tree.below location)
      else selectFlat root suffixes (session.files.tree.below location) := by
  have hdirectory : session.files.isDirectory root = true := FileSystem.isDirectory_iff.2 ⟨location, hroot⟩
  rw [select, Action.perform_bind_of_ok (Action.perform_ask _ session)]
  dsimp only
  rw [if_pos hdirectory, Action.perform_bind_of_ok (Files.walk_of_directory hroot)]
  generalize (if recursive then selectRecursive root suffixes (session.files.tree.below location)
    else selectFlat root suffixes (session.files.tree.below location)) = selected
  cases selected with
  | ok paths => rfl
  | error failure => rcases hdiagnosis : failure.diagnosis <;> simp [Action.ofExcept,
    Action.perform_bind, hdiagnosis]

/-- The recursive search of a directory goes by what lies below it. -/
theorem result_of_select {session : Session} {location : Location}
    (hroot : session.files.lookup .target root = .ok (location, .directory)) (suffixes : List Text) :
    ((select root true suffixes).perform session).1 = selectRecursive root suffixes
      (session.files.tree.below location) :=
  result_of_select_eq hroot true suffixes

/-! What lies below a directory. -/

variable {tree : FileTree} {location : Location}

/-- There is a directory whose path, written behind that of the root, is too long to be entered. -/
def Overlong (root : Path) (tree : FileTree) (location : Location) : Prop :=
  ∃ names, tree.Lies location names .directory ∧ (pathBelow root names).isTooLong = true

/-- There is something other than a directory in a folder whose name is not UTF-8. -/
def Unreadable (top : Name) (tree : FileTree) (location : Location) : Prop :=
  ∃ names node, tree.Lies location names node ∧ node.isDirectory = false ∧
    Utf8.decode? (folderOf top names) = none

/-- Names lead to something other than a directory in a folder whose name ends with one of the
suffixes, if there are any. -/
def Matched (top : Name) (suffixes : List Text) (tree : FileTree) (location names : Location) : Prop :=
  ∃ node folder, tree.Lies location names node ∧ node.isDirectory = false ∧
    Utf8.decode? (folderOf top names) = some folder ∧
      (suffixes = [] ∨ ∃ suffix ∈ suffixes, suffix <:+ folder)

theorem exists_shut_iff : (∃ entry ∈ tree.below location, Shut root entry) ↔
    Overlong root tree location := by
  constructor
  · rintro ⟨⟨names, node⟩, hmem, hdirectory, hlong⟩
    cases node with
    | directory => exact ⟨names, FileTree.lies_iff.2 hmem, hlong⟩
    | file content => cases hdirectory
    | link aim => cases hdirectory
  · rintro ⟨names, hlies, hlong⟩
    exact ⟨_, FileTree.lies_iff.1 hlies, rfl, hlong⟩

theorem exists_unnamed_iff : (∃ entry ∈ tree.below location, Unnamed top entry) ↔
    Unreadable top tree location := by
  constructor
  · rintro ⟨⟨names, node⟩, hmem, hunnamed⟩
    exact ⟨names, node, FileTree.lies_iff.2 hmem, hunnamed⟩
  · rintro ⟨names, node, hlies, hunnamed⟩
    exact ⟨_, FileTree.lies_iff.1 hlies, hunnamed⟩

theorem matchesFolder_iff {folder : Text} :
    matchesFolder folder suffixes = true ↔ suffixes = [] ∨ ∃ suffix ∈ suffixes, suffix <:+ folder := by
  simp [matchesFolder]

theorem mem_filter_taken_iff :
    names ∈ ((tree.below location).filter (taken top suffixes)).map Prod.fst ↔
    Matched top suffixes tree location names := by
  rw [List.mem_map]
  constructor
  · rintro ⟨⟨_, node⟩, hmem, rfl⟩
    obtain ⟨hbelow, htaken⟩ := List.mem_filter.1 hmem
    rw [taken, Bool.and_eq_true, Bool.not_eq_true', Option.any_eq_true] at htaken
    obtain ⟨hfile, folder, hfolder, hmatches⟩ := htaken
    exact ⟨node, folder, FileTree.lies_iff.2 hbelow, hfile, hfolder, matchesFolder_iff.1 hmatches⟩
  · rintro ⟨node, folder, hlies, hfile, hfolder, hmatches⟩
    refine ⟨(names, node), List.mem_filter.2 ⟨FileTree.lies_iff.1 hlies, ?_⟩, rfl⟩
    rw [taken, Bool.and_eq_true, Bool.not_eq_true', Option.any_eq_true]
    exact ⟨hfile, folder, hfolder, matchesFolder_iff.2 hmatches⟩

instance (root : Path) (tree : FileTree) (location : Location) : Decidable (Overlong root tree location) :=
  decidable_of_iff _ exists_shut_iff

instance (top : Name) (tree : FileTree) (location : Location) : Decidable (Unreadable top tree location) :=
  decidable_of_iff _ exists_unnamed_iff

instance (top : Name) (suffixes : List Text) (tree : FileTree) (location names : Location) :
    Decidable (Matched top suffixes tree location names) := decidable_of_iff _ mem_filter_taken_iff

theorem plain_of_mem_below (hwf : tree.WellFormed) {entry : Location × Node}
    (h : entry ∈ tree.below location) :
    ∀ name ∈ entry.1, Path.Plain name := hwf.plain_of_mem (FileTree.lies_iff.2 h).there

/-- A walk meets what is below the root in the order of the parts of the paths. -/
theorem increasing_paths_below (hwf : tree.WellFormed) (root : Path) :
    (tree.below location).Pairwise fun entry entry' =>
      (pathBelow root entry.1).components.map Path.Component.bytes <
        (pathBelow root entry'.1).components.map Path.Component.bytes := by
  refine FileTree.sorted_below.imp_of_mem fun {entry entry'} hmem hmem' hlt => ?_
  have hbytes : ∀ names : Location, (names.map Path.Component.entry).map Path.Component.bytes =
      names := fun names => by
    rw [List.map_map]
    exact List.map_id names
  rw [components_pathBelow (plain_of_mem_below hwf hmem),
    components_pathBelow (plain_of_mem_below hwf hmem'),
    List.map_append, List.map_append, hbytes, hbytes]
  exact List.append_left_lt hlt

/-- What the recursive search of a directory gives. If no directory below it has a path that is too
long, the search fails at the name of a folder just if something other than a directory lies in a
folder whose name is not UTF-8; otherwise it gives exactly those entries other than directories
whose folder has one of the suffixes, or all of them if there are no suffixes, in the strictly
increasing order of their paths part by part. If there is a directory with such a path, the search
fails. -/
theorem select_below {session : Session} (hwf : session.files.tree.WellFormed)
    (hroot : session.files.lookup .target root = .ok (location, .directory))
    (htop : root.lastName? = some top) (suffixes : List Text) :
    ∃ result after, (select root true suffixes).perform session = (result, after) ∧
      (Overlong root session.files.tree location →
        (∃ shown, result = .error (.nameNotUtf8 shown)) ∨
        ∃ shown, result = .error (.walk shown .nameTooLong)) ∧
      (¬Overlong root session.files.tree location →
        ((∃ shown, result = .error (.nameNotUtf8 shown)) ↔ Unreadable top session.files.tree location) ∧
        (¬Unreadable top session.files.tree location → ∃ selected : List Location,
          result = .ok (selected.map (pathBelow root)) ∧
          (∀ names, names ∈ selected ↔ Matched top suffixes session.files.tree location names) ∧
          (selected.map (pathBelow root)).Pairwise fun path path' =>
            path.components.map Path.Component.bytes < path'.components.map Path.Component.bytes)) := by
  rcases hperform : (select root true suffixes).perform session with ⟨result, after⟩
  have hresult : result = selectRecursive root suffixes (session.files.tree.below location) :=
    (congrArg Prod.fst hperform).symm.trans (result_of_select hroot suffixes)
  refine ⟨result, after, rfl, ?_⟩
  have hfolder : ∀ entry ∈ session.files.tree.below location, (pathBelow root entry.1).containingFolder =
      (Path.nameText (folderOf top entry.1)).map some := fun entry hentry =>
    containingFolder_pathBelow htop (plain_of_mem_below hwf hentry) (FileTree.lies_iff.2 hentry).ne_nil
  have hcases := selectRecursive_cases suffixes hfolder
  rw [exists_shut_iff, exists_unnamed_iff, ← hresult] at hcases
  rcases hcases with ⟨hopen, hnamed, hpaths⟩ | ⟨hunnamed, hfails⟩ | ⟨hshut, shown, hfails⟩
  · refine ⟨fun hlong => absurd hlong hopen, fun _ => ⟨iff_of_false ?_ hnamed, fun _ => ?_⟩⟩
    · rintro ⟨shown, hfails⟩
      cases hpaths.symm.trans hfails
    · refine ⟨_, hpaths.trans (congrArg Except.ok List.map_map.symm), fun names => mem_filter_taken_iff, ?_⟩
      rw [List.map_map, List.pairwise_map]
      exact (increasing_paths_below hwf root).filter _
  · exact ⟨fun _ => .inl hfails, fun _ =>
      ⟨iff_of_true hfails hunnamed, fun hnamed => absurd hunnamed hnamed⟩⟩
  · exact ⟨fun _ => .inr ⟨shown, hfails⟩, fun hopen => absurd hshut hopen⟩

/-- A data directory with settings and two files in the source tree, the first of which has a
placeholder. -/
def sampleSession (second : String) : Session where
  files := {
    tree :=
      let text (content : String) : Node := .file (.plain (Utf8.encode content.toList))
      let nodes : List (List String × Node) := [
        (["d"], .directory), (["d", "default"], .directory),
        (["d", "default", "a"], text "$(mcp.k)"), (["d", "default", "b"], text second),
        (["d", "build.setting.json"], text "\x7b\"placeholder\":\x7b\"data\":\x7b\"k\":\"v\"\x7d\x7d\x7d")]
      nodes.foldl (fun tree (names, node) =>
        tree.insert (names.map fun name => Utf8.encode name.toList) node) .empty
    current := [] }
  randomness := ⟨fun _ => ⟨0, by decide⟩, 0⟩
  now := ⟨0, 0, 0⟩

/-- The data directory of the sample. -/
def sampleBase : Path := .ofText ['d']

theorem select_below_sample : ∃ (selected : List Location) (after : Session),
    (select sampleBase true ["lt".toList]).perform (sampleSession "b") =
      (.ok (selected.map (pathBelow sampleBase)), after) ∧
      ["default", "a"].map (fun name => Utf8.encode name.toList) ∈ selected ∧
      [Utf8.encode "build.setting.json".toList] ∉ selected := by
  have hwf : (sampleSession "b").files.tree.WellFormed := by decide +kernel
  have hroot : (sampleSession "b").files.lookup .target sampleBase = .ok
      ([Utf8.encode ['d']], .directory) := by
    decide +kernel
  have htop : sampleBase.lastName? = some (Utf8.encode ['d']) := by decide +kernel
  obtain ⟨result, after, hperform, -, hshort⟩ := select_below hwf hroot htop ["lt".toList]
  obtain ⟨-, hnamed⟩ := hshort (by decide +kernel)
  obtain ⟨selected, rfl, hmem, -⟩ := hnamed (by decide +kernel)
  exact ⟨selected, after, hperform, (hmem _).2 (by decide +kernel), fun h =>
    absurd ((hmem _).1 h) (by decide +kernel)⟩

/-! A search that fails at a path. -/

/-- A path to `d` with so many slashes more than it needs. -/
def padded (count : Nat) : Path :=
  ⟨Path.dot ++ Path.slash :: (List.replicate count Path.slash ++ Utf8.encode ['d'])⟩

theorem names_padded (count : Nat) : (padded count).names = [Path.dot, Utf8.encode ['d']] := by
  have hslashes : Text.split Path.slash (List.replicate count Path.slash ++ Utf8.encode ['d']) =
      List.replicate count [] ++ [Utf8.encode ['d']] := by
    induction count with
    | zero => decide
    | succ count ih =>
        rw [List.replicate_succ, List.cons_append, Text.split, if_pos rfl, ih, List.replicate_succ,
          List.cons_append]
  have hdot : (Text.split Path.slash Path.dot).filter (· ≠ []) = [Path.dot] := by decide
  have hname : [Utf8.encode ['d']].filter (· ≠ []) = [Utf8.encode ['d']] := by decide
  rw [Path.names, padded, Text.split_append, hslashes, List.filter_append, List.filter_append,
    List.filter_replicate, hdot, hname, if_neg (by decide)]
  rfl

theorem length_padded (count : Nat) : (padded count).bytes.length = count + 3 := by
  simp [padded, Path.dot, Utf8.encode, String.utf8EncodeChar]

theorem usable_padded {count : Nat} (h : count + 3 ≤ Path.maxLength) : (padded count).Usable := by
  refine ⟨by simp [padded], ?_, by rwa [length_padded]⟩
  have hzero : (0 : UInt8) ∉ Path.dot ∧ (0 : UInt8) ≠ Path.slash ∧
    (0 : UInt8) ∉ Utf8.encode ['d'] := by decide
  simp only [padded, List.mem_append, List.mem_cons, List.mem_replicate, not_or, not_and]
  exact ⟨hzero.1, hzero.2.1, fun _ => hzero.2.1, hzero.2.2⟩

theorem steps_padded (count : Nat) : (padded count).steps = [Path.dot, Utf8.encode ['d']] := by
  have hlast : (padded count).endsWithSlash = false := by
    have hname : (Utf8.encode ['d']).getLast? = some 0x64 := by decide
    rw [Path.endsWithSlash, padded, List.getLast?_append, List.getLast?_cons, List.getLast?_append, hname]
    rfl
  rw [Path.steps, names_padded, hlast]
  rfl

theorem lookup_padded {files : FileSystem} {count : Nat} (h : count + 3 ≤ Path.maxLength)
    (hcurrent : files.current = []) (hnode : files.tree.node? [Utf8.encode ['d']] = some .directory)
    (purpose : Purpose) :
    files.lookup purpose (padded count) = .ok ([Utf8.encode ['d']], .directory) := by
  refine FileSystem.lookup_eq_ok_iff.2 ⟨usable_padded h, 0, Nat.zero_le _, ?_⟩
  have hsought : FileTree.Sought purpose (Utf8.encode ['d']) [] :=
    ⟨by decide, by decide, by decide, by simp, by decide⟩
  have hstart : files.start (padded count) = [] := by rw [FileSystem.start, hcurrent, ite_self]
  rw [steps_padded, hstart]
  exact .stay (.inr rfl) (.enter hsought hnode .here)

/-- A name of many bytes. -/
def longName : Name := List.replicate 250 0x78

theorem isTooLong_padded_child : ((padded 3900).child longName).isTooLong = true := by
  have hlength : (padded 3900).bytes.length + longName.length ≤
      ((padded 3900).child longName).bytes.length :=
    Path.length_le_child (by decide +kernel)
  have hname : longName.length = 250 := List.length_replicate
  rw [length_padded, hname] at hlength
  rw [Path.isTooLong, decide_eq_true_eq, Path.maxLength]
  omega

/-- A folder with a long name in `d` and a file in it. -/
def longSession : Session :=
  let nodes : List (Location × Node) := [([Utf8.encode ['d']], .directory),
    ([Utf8.encode ['d'], longName], .directory),
    ([Utf8.encode ['d'], longName, Utf8.encode ['f']], .file (.plain []))]
  { sampleSession "b" with files := ⟨nodes.foldl
    (fun tree (location, node) => tree.insert location node) .empty, []⟩ }

/-- A search fails although no folder has a name that is not UTF-8, because a path becomes too
long. -/
theorem select_fails_of_overlong : longSession.files.tree.WellFormed ∧
    longSession.files.lookup .target (padded 3900) = .ok ([Utf8.encode ['d']], .directory) ∧
    (padded 3900).lastName? = some (Utf8.encode ['d']) ∧
    ¬Unreadable (Utf8.encode ['d']) longSession.files.tree [Utf8.encode ['d']] ∧
    ∃ shown after, (select (padded 3900) true []).perform longSession =
      (.error (.walk shown .nameTooLong), after) := by
  have hroot : longSession.files.lookup .target (padded 3900) = .ok ([Utf8.encode ['d']], .directory) :=
    lookup_padded (by decide) rfl (by decide +kernel) .target
  have hlast : (padded 3900).lastName? = some (Utf8.encode ['d']) := by
    rw [Path.lastName?_eq_some_iff, names_padded]
    decide
  refine ⟨by decide +kernel, hroot, hlast, by decide +kernel, ?_⟩
  have hlong : (pathBelow (padded 3900) [longName]).isTooLong = true := by
    rw [pathBelow, List.foldl_cons, List.foldl_nil]
    exact isTooLong_padded_child
  have hbelow : longSession.files.tree.below [Utf8.encode ['d']] =
      [([longName], .directory), ([longName, Utf8.encode ['f']], .file (.plain []))] := by decide +kernel
  have hresult := result_of_select hroot []
  rw [hbelow, selectRecursive, if_pos (by rfl), Files.enter, if_pos hlong] at hresult
  rcases hperform : (select (padded 3900) true []).perform longSession with ⟨result, after⟩
  rw [hperform] at hresult
  exact ⟨_, after, congrArg (·, after) hresult⟩

end Build

end ServerPack
