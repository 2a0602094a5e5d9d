import ServerPack.Proofs.Selection.Flat

/-!
What a search selects, whether it is the recursive or the flat one. Which files below a directory it
selects and in which order is said by `Selected`, without a walk, so there is one such list at most
(`Selected.unique`). A search that succeeds has given the paths of this list (`selected_of_select`).
-/

namespace ServerPack.Build

variable {root : Path} {recursive : Bool} {suffixes : List Text} {top : Name} {tree tree' : FileTree}
  {location location' : Location} {selected selected' : List Location}

/-- The entries that a search selects below a directory which is called `top`: those that match, or
of these only the ones that lie directly inside a subdirectory. They stand in the order of the parts
of their paths. -/
structure Selected (recursive : Bool) (suffixes : List Text) (top : Name) (tree : FileTree)
    (location : Location) (selected : List Location) : Prop where
  mem_iff {names : Location} : names ∈ selected ↔
    Matched top suffixes tree location names ∧ (recursive = false → inSubdirectory names = true)
  increasing : selected.Pairwise (· < ·)

theorem Selected.unique (h : Selected recursive suffixes top tree location selected)
    (h' : Selected recursive suffixes top tree location selected') : selected = selected' :=
  eq_of_increasing h.increasing h'.increasing fun _ => h.mem_iff.trans h'.mem_iff.symm

/-- What is selected depends only on what lies below the directory. -/
theorem Selected.of_below_eq (h : Selected recursive suffixes top tree location selected)
    (hsame : ∀ names, tree.node? (location ++ names) = tree'.node? (location' ++ names)) :
    Selected recursive suffixes top tree' location' selected where
  mem_iff {names} := by
    have hlies : ∀ node, tree.Lies location names node ↔ tree'.Lies location' names node := fun node =>
      ⟨fun h => ⟨h.ne_nil, hsame names ▸ h.there⟩, fun h => ⟨h.ne_nil, (hsame names).symm ▸ h.there⟩⟩
    simp only [h.mem_iff, Matched, hlies]
  increasing := h.increasing

/-- The selection as a part of a walk. -/
def selectedBelow (recursive : Bool) (suffixes : List Text) (top : Name) (tree : FileTree)
    (location : Location) : List Location :=
  (((tree.below location).filter (taken top suffixes)).map Prod.fst).filter fun names =>
    recursive || inSubdirectory names

theorem selected_selectedBelow (recursive : Bool) (suffixes : List Text) (top : Name) (tree : FileTree)
    (location : Location) :
    Selected recursive suffixes top tree location (selectedBelow recursive suffixes top tree location) where
  mem_iff {names} := by
    rw [selectedBelow, List.mem_filter, mem_filter_taken_iff]
    cases recursive <;> simp
  increasing := by
    have hwalk : (((tree.below location).filter (taken top suffixes)).map Prod.fst).Pairwise (· < ·) := by
      rw [List.pairwise_map]
      exact FileTree.sorted_below.filter _
    exact hwalk.filter _

/-- What the flat search takes from the subdirectories that it wants. -/
theorem selected_flatMap_directlyIn (hwf : tree.WellFormed) :
    Selected false suffixes top tree location
      (((subdirectories (tree.below location)).filter (wanted suffixes)).flatMap
        (directlyIn (tree.below location))) where
  mem_iff {names} := by
    simp only [List.mem_flatMap, List.mem_filter, mem_subdirectories, mem_directlyIn, forall_const]
    constructor
    · rintro ⟨folder, ⟨-, hwanted⟩, name, node, rfl, hbelow, hfile⟩
      obtain ⟨text, htext, hmatches⟩ := (Option.any_eq_true ..).1 hwanted
      exact ⟨⟨node, text, FileTree.lies_iff.2 hbelow, hfile, htext, matchesFolder_iff.1 hmatches⟩, rfl⟩
    · rintro ⟨⟨node, text, hlies, hfile, htext, hmatches⟩, hpair⟩
      obtain ⟨folder, name, rfl⟩ := List.length_eq_two.1 (eq_of_beq hpair)
      have hnode := hlies.there
      rw [List.append_cons] at hnode
      refine ⟨folder, ⟨hwf.parent hnode, ?_⟩, name, node, rfl, FileTree.lies_iff.1 hlies, hfile⟩
      exact (Option.any_eq_true ..).2 ⟨text, htext, matchesFolder_iff.2 hmatches⟩
  increasing := increasing_flatMap_directlyIn (increasing_subdirectories.filter _)

/-- A search that succeeds gives the paths of what it selects. -/
theorem selected_of_select {session after : Session} {paths : List Path}
    (hwf : session.files.tree.WellFormed)
    (hroot : session.files.lookup .target root = .ok (location, .directory))
    (htop : root.lastName? = some top)
    (h : (select root recursive suffixes).perform session = (.ok paths, after)) :
    ∃ selected, paths = selected.map (pathBelow root) ∧
      Selected recursive suffixes top session.files.tree location selected := by
  have hresult := congrArg Prod.fst h
  cases recursive with
  | true =>
      have hfolder : ∀ entry ∈ session.files.tree.below location,
        (pathBelow root entry.1).containingFolder =
          (Path.nameText (folderOf top entry.1)).map some := fun entry hentry =>
        containingFolder_pathBelow htop (plain_of_mem_below hwf hentry) (FileTree.lies_iff.2 hentry).ne_nil
      have hsearch := (result_of_select hroot suffixes).symm.trans hresult
      rcases selectRecursive_cases suffixes hfolder with ⟨-, -, hpaths⟩ | ⟨-, shown, hfails⟩ | ⟨-,
        shown, hfails⟩
      · refine ⟨_, ?_, selected_selectedBelow true suffixes top _ location⟩
        have hall : selectedBelow true suffixes top session.files.tree location =
            ((session.files.tree.below location).filter (taken top suffixes)).map Prod.fst :=
          List.filter_eq_self.2 fun names _ => Bool.true_or _
        rw [← Except.ok.inj (hpaths.symm.trans hsearch), hall, List.map_map]
        rfl
      · cases hfails.symm.trans hsearch
      · cases hfails.symm.trans hsearch
  | false =>
      rcases select_flat_cases hroot suffixes with ⟨-, hpaths⟩ | ⟨-, -, -,
        ⟨-, shown, hfails⟩ | ⟨-, shown, hfails⟩⟩
      · exact ⟨_, Except.ok.inj (hresult.symm.trans hpaths), selected_flatMap_directlyIn hwf⟩
      · cases hfails.symm.trans hresult
      · cases hfails.symm.trans hresult

end ServerPack.Build
