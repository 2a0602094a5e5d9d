import Mathlib.Data.List.Nodup
import ServerPack.Proofs.Build.OutputRenewal

/-!
What a selection gives: files that the walk met, each of them once, by the paths that the walk has
for them.
-/

namespace ServerPack.Build

variable {root : Path} {suffixes : List Text} {walked : List (Location × Node)}

theorem exists_of_selectRecursive {paths : List Path}
    (h : selectRecursive root suffixes walked = .ok paths) :
    ∃ selected : List Location, paths = selected.map (pathBelow root) ∧
    selected.Sublist (walked.map Prod.fst) ∧
      ∀ names ∈ selected, ∃ node, (names, node) ∈ walked ∧ node.isDirectory = false := by
  induction walked generalizing paths with
  | nil =>
      cases h
      exact ⟨[], rfl, .slnil, nofun⟩
  | cons found rest ih =>
      obtain ⟨names, node⟩ := found
      have hlater : ∀ {selected : List Location},
          (∀ names ∈ selected, ∃ node, (names, node) ∈ rest ∧ node.isDirectory = false) →
          ∀ names' ∈ selected, ∃ node', (names', node') ∈ (names, node) :: rest ∧
              node'.isDirectory = false :=
        fun h names' hmem =>
          have ⟨node', hwalked, hfile⟩ := h names' hmem
          ⟨node', List.mem_cons_of_mem _ hwalked, hfile⟩
      rw [selectRecursive] at h
      cases hdirectory : node.isDirectory with
      | true =>
          rw [hdirectory, if_pos rfl] at h
          rcases henter : Files.enter (pathBelow root names) with failure | _
          · rw [henter] at h
            cases h
          rw [henter] at h
          obtain ⟨selected, hpaths, hsublist, hfiles⟩ := ih h
          exact ⟨selected, hpaths, hsublist.cons _, hlater hfiles⟩
      | false =>
          rw [hdirectory, if_neg (by decide)] at h
          rcases hfolder : (pathBelow root names).containingFolder with failure | folder
          · rw [hfolder] at h
            cases h
          rcases hrest : selectRecursive root suffixes rest with failure | more
          · rw [hfolder, hrest] at h
            cases h
          rw [hfolder, hrest] at h
          cases h
          obtain ⟨selected, rfl, hsublist, hfiles⟩ := ih hrest
          split
          · refine ⟨names :: selected, rfl, hsublist.cons_cons _, fun names' hmem => ?_⟩
            rcases List.mem_cons.1 hmem with rfl | hmem
            · exact ⟨node, List.mem_cons_self, hdirectory⟩
            · exact hlater hfiles names' hmem
          · exact ⟨selected, rfl, hsublist.cons _, hlater hfiles⟩

/-- Something that a walk met is a file directly in a subdirectory. -/
def liesDirectlyIn (folder : Name) : Location × Node → Bool
  | ([first, _], node) => first = folder ∧ !node.isDirectory
  | _ => false

/-- The locations of the files of a walk that lie directly in a subdirectory. -/
def directlyIn (walked : List (Location × Node)) (folder : Name) : List Location :=
  (walked.filter (liesDirectlyIn folder)).map Prod.fst

theorem filesDirectlyIn_eq (root : Path) (walked : List (Location × Node)) (folder : Name) :
    filesDirectlyIn root walked folder = (directlyIn walked folder).map (pathBelow root) := by
  rw [filesDirectlyIn, directlyIn, List.map_map, ← List.filterMap_eq_map, List.filterMap_filter]
  congr 1
  funext ⟨names, node⟩
  rcases names with _ | ⟨first, _ | ⟨second, _ | ⟨third, more⟩⟩⟩ <;> simp [liesDirectlyIn]

theorem mem_directlyIn {folder : Name} {names : Location} :
    names ∈ directlyIn walked folder ↔
      ∃ name node, names = [folder, name] ∧ (names, node) ∈ walked ∧ node.isDirectory = false := by
  simp only [directlyIn, List.mem_map, List.mem_filter]
  constructor
  · rintro ⟨⟨names, node⟩, ⟨hmem, hlies⟩, rfl⟩
    rw [liesDirectlyIn.eq_def] at hlies
    split at hlies
    · next first name node' heq =>
      cases heq
      obtain ⟨rfl, hfile⟩ := of_decide_eq_true hlies
      exact ⟨name, node, rfl, hmem, by simpa using hfile⟩
    · cases hlies
  · rintro ⟨name, node, rfl, hmem, hfile⟩
    exact ⟨_, ⟨hmem, by simp [liesDirectlyIn, hfile]⟩, rfl⟩

theorem eq_of_subdirectory? {entry : Location × Node} {name : Name} (h : subdirectory? entry = some name) :
    entry = ([name], .directory) := by
  rw [subdirectory?.eq_def] at h
  split at h
  · cases h
    rfl
  · cases h

theorem nodup_subdirectories (h : (walked.map Prod.fst).Nodup) : (subdirectories walked).Nodup := by
  rw [List.Nodup, List.pairwise_map] at h
  rw [List.Nodup, subdirectories, List.pairwise_filterMap]
  refine h.imp fun {entry entry'} hne found hfound found' hfound' heq => hne ?_
  rw [eq_of_subdirectory? hfound, eq_of_subdirectory? hfound', heq]

/-- The files that the flat search takes from a subdirectory. -/
def takenFrom (root : Path) (suffixes : List Text) (walked : List (Location × Node)) (name : Name) :
    Except Failure (List Path) := do
  let folder ← Path.nameText name
  if matchesFolder folder suffixes then
    Files.enter (root.child name)
    .ok (filesDirectlyIn root walked name)
  else .ok []

theorem eq_of_takenFrom {name : Name} {group : List Path}
    (h : takenFrom root suffixes walked name = .ok group) :
    group = [] ∨ group = filesDirectlyIn root walked name := by
  rw [takenFrom] at h
  rcases hfolder : Path.nameText name with failure | folder
  · rw [hfolder] at h
    cases h
  rw [hfolder] at h
  change (if matchesFolder folder suffixes then _ else _) = _ at h
  split at h
  · rcases henter : Files.enter (root.child name) with failure | _ <;> rw [henter] at h <;> cases h
    exact .inr rfl
  · cases h
    exact .inl rfl

theorem exists_of_mapM_takenFrom {names : List Name} {groups : List (List Path)}
    (h : names.mapM (takenFrom root suffixes walked) = .ok groups) :
    ∃ folders : List Name, folders.Sublist names ∧
      groups.flatten = (folders.flatMap (directlyIn walked)).map (pathBelow root) := by
  induction names generalizing groups with
  | nil =>
      cases h
      exact ⟨[], .slnil, rfl⟩
  | cons name names ih =>
      rw [List.mapM_cons] at h
      rcases hgroup : takenFrom root suffixes walked name with failure | group
      · rw [hgroup] at h
        cases h
      rcases hrest : names.mapM (takenFrom root suffixes walked) with failure | more
      · rw [hgroup, hrest] at h
        cases h
      rw [hgroup, hrest] at h
      cases h
      obtain ⟨folders, hfolders, hflatten⟩ := ih hrest
      rcases eq_of_takenFrom hgroup with rfl | rfl
      · exact ⟨folders, hfolders.cons _, hflatten⟩
      · refine ⟨name :: folders, hfolders.cons_cons _, ?_⟩
        rw [List.flatten_cons, hflatten, List.flatMap_cons, List.map_append, filesDirectlyIn_eq]

theorem exists_of_selectFlat {paths : List Path} (hwalked : (walked.map Prod.fst).Nodup)
    (h : selectFlat root suffixes walked = .ok paths) :
    ∃ selected : List Location, paths = selected.map (pathBelow root) ∧ selected.Nodup ∧
      ∀ names ∈ selected, ∃ node, (names, node) ∈ walked ∧ node.isDirectory = false := by
  change ((subdirectories walked).mapM (takenFrom root suffixes walked) >>= fun groups =>
    .ok groups.flatten) = _ at h
  rcases hgroups : (subdirectories walked).mapM (takenFrom root suffixes walked) with failure | groups
  · rw [hgroups] at h
    cases h
  rw [hgroups] at h
  cases h
  obtain ⟨folders, hfolders, hflatten⟩ := exists_of_mapM_takenFrom hgroups
  refine ⟨folders.flatMap (directlyIn walked), hflatten, List.nodup_flatMap.2 ⟨fun folder _ => ?_, ?_⟩, ?_⟩
  · exact hwalked.sublist (List.filter_sublist.map _)
  · refine (hfolders.nodup (nodup_subdirectories hwalked)).imp
      fun {folder folder'} hne names hnames hnames' => ?_
    obtain ⟨_, _, rfl, -⟩ := mem_directlyIn.1 hnames
    obtain ⟨_, _, heq, -⟩ := mem_directlyIn.1 hnames'
    exact hne (List.cons.inj heq).1
  · intro names hnames
    obtain ⟨folder, -, hmem⟩ := List.mem_flatMap.1 hnames
    obtain ⟨_, node, -, hwalkedNode, hfile⟩ := mem_directlyIn.1 hmem
    exact ⟨node, hwalkedNode, hfile⟩

/-- A selection in a directory gives different files that are below it by their paths. -/
theorem exists_of_select {session after : Session} {recursive : Bool} {paths : List Path}
    (h : (select root recursive suffixes).perform session = (.ok paths, after)) :
    ∃ location, session.files.lookup .target root = .ok (location, .directory) ∧
      ∃ selected : List Location, paths = selected.map (pathBelow root) ∧ selected.Nodup ∧
        ∀ names ∈ selected, ∃ node, (names, node) ∈ session.files.tree.below location ∧
        node.isDirectory = false := by
  rw [select, Action.perform_bind_of_ok (Action.perform_ask _ session)] at h
  dsimp only at h
  by_cases hdirectory : session.files.isDirectory root = true
  swap
  · rw [if_neg hdirectory] at h
    cases h
  rw [if_pos hdirectory] at h
  obtain ⟨walked, walking, hwalk, h⟩ := Action.bind_eq_ok_iff.1 h
  obtain ⟨selected, listed, hlisting, h⟩ := Action.bind_eq_ok_iff.1 h
  obtain ⟨_, logged, -, hend⟩ := Action.bind_eq_ok_iff.1 h
  cases hend
  obtain ⟨location, hlookup⟩ := FileSystem.isDirectory_iff.1 hdirectory
  refine ⟨location, hlookup, ?_⟩
  rw [Files.walk_of_directory hlookup] at hwalk
  cases hwalk
  obtain ⟨hselected, -⟩ := Action.ofExcept_eq_ok_iff.1 hlisting
  split at hselected
  · obtain ⟨names, hpaths, hsublist, hfiles⟩ := exists_of_selectRecursive hselected
    exact ⟨names, hpaths, FileTree.nodup_below.sublist hsublist, hfiles⟩
  · exact exists_of_selectFlat FileTree.nodup_below hselected

end ServerPack.Build
