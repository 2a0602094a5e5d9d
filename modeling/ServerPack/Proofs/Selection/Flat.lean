import Mathlib.Data.List.Sort
import ServerPack.Proofs.Selection.Recursive

/-!
What the flat search of a directory gives. It goes through the subdirectories by name: it stops at a
name that is not UTF-8 and at the path of a subdirectory that it wants to search but cannot enter,
and takes the files of the others that it wants (`mapM_takenFrom_cases`). Where both searches come
to an end, the flat one gives what the recursive one gives of the entries that lie in a subdirectory
of the root itself, in the same order, because both go by one walk (`filter_kept_eq`). So the flat
search fails only for the names and paths of the subdirectories, whatever lies below them
(`select_flat`).
-/

namespace ServerPack.Build

variable {root : Path} {suffixes : List Text} {walked : List (Location × Node)} {tree : FileTree}
  {location : Location} {name : Name}

/-! What each search takes. -/

/-- A folder of this name has one of the suffixes. -/
def wanted (suffixes : List Text) (name : Name) : Bool := (Utf8.decode? name).any (matchesFolder · suffixes)

/-- The recursive search takes something that a walk has met. -/
def kept (root : Path) (suffixes : List Text) (entry : Location × Node) : Bool :=
  !entry.2.isDirectory &&
    (pathBelow root entry.1).containingFolder.toOption.any fun folder =>
      matchesFolder (folder.getD []) suffixes

/-- Names that lead to something directly inside a subdirectory of where they begin. -/
def inSubdirectory (names : Location) : Bool := names.length == 2

theorem eq_of_selectRecursive {paths : List Path} (h : selectRecursive root suffixes walked = .ok paths) :
    paths = ((walked.filter (kept root suffixes)).map Prod.fst).map (pathBelow root) := by
  induction walked generalizing paths with
  | nil =>
      cases h
      rfl
  | cons entry rest ih =>
      obtain ⟨names, node⟩ := entry
      rw [selectRecursive] at h
      cases hnode : node.isDirectory with
      | true =>
          have hskip : kept root suffixes (names, node) = false := by simp [kept, hnode]
          rw [hnode, if_pos rfl] at h
          rcases henter : Files.enter (pathBelow root names) with failure | _ <;> rw [henter] at h
          · cases h
          rw [List.filter_cons_of_neg (by simp [hskip])]
          exact ih h
      | false =>
          rw [hnode, if_neg (by decide)] at h
          rcases hfolder : (pathBelow root names).containingFolder with failure | folder <;>
            rw [hfolder] at h
          · cases h
          rcases hrest : selectRecursive root suffixes rest with failure | more <;> rw [hrest] at h
          · cases h
          have hkept : kept root suffixes (names, node) = matchesFolder (folder.getD []) suffixes := by
            simp [kept, hnode, hfolder, Except.toOption]
          cases h
          rw [List.filter_cons, hkept, ih hrest]
          split <;> rfl

/-- Inside a subdirectory the recursive search goes by the name of the subdirectory. -/
theorem kept_pair {folder : Name} {node : Node} (hfolder : Path.Plain folder) (hname : Path.Plain name) :
    kept root suffixes ([folder, name], node) = (!node.isDirectory && wanted suffixes folder) := by
  have hcontaining : (pathBelow root [folder, name]).containingFolder = (Path.nameText folder).map some :=
    Path.containingFolder_child hname (Path.lastName?_child hfolder)
  rw [kept, wanted, hcontaining, Path.nameText]
  cases Utf8.decode? folder <;> rfl

/-! One walk. -/

theorem mem_subdirectories : name ∈ subdirectories (tree.below location) ↔
    tree.node? (location ++ [name]) = some .directory := by
  rw [subdirectories, List.mem_filterMap]
  constructor
  · rintro ⟨entry, hmem, hfound⟩
    rw [eq_of_subdirectory? hfound] at hmem
    exact (FileTree.mem_below_iff.1 hmem).2
  · intro hnode
    exact ⟨([name], .directory), FileTree.mem_below_iff.2 ⟨by simp, hnode⟩, rfl⟩

/-- A walk comes to the subdirectories by name. -/
theorem increasing_subdirectories : (subdirectories (tree.below location)).Pairwise (· < ·) := by
  rw [subdirectories, List.pairwise_filterMap]
  refine FileTree.sorted_below.imp fun {entry entry'} hlt found hfound found' hfound' => ?_
  rw [eq_of_subdirectory? hfound, eq_of_subdirectory? hfound', List.cons_lt_cons_iff] at hlt
  rcases hlt with hlt | ⟨-, hnil⟩
  · exact hlt
  · exact absurd hnil (List.not_lt_nil _)

/-- The files in some subdirectories come in the order of a walk if the subdirectories do. -/
theorem increasing_flatMap_directlyIn {folders : List Name} (h : folders.Pairwise (· < ·)) :
    (folders.flatMap (directlyIn (tree.below location))).Pairwise (· < ·) := by
  rw [List.pairwise_flatMap]
  constructor
  · intro folder _
    rw [directlyIn, List.pairwise_map]
    exact FileTree.sorted_below.filter _
  · refine h.imp fun {folder folder'} hlt names hnames names' hnames' => ?_
    obtain ⟨_, _, rfl, -⟩ := mem_directlyIn.1 hnames
    obtain ⟨_, _, rfl, -⟩ := mem_directlyIn.1 hnames'
    exact List.cons_lt_cons_iff.2 (.inl hlt)

/-- Two lists in the order of a walk are the same if they have the same members. -/
theorem eq_of_increasing {selected selected' : List Location} (h : selected.Pairwise (· < ·))
    (h' : selected'.Pairwise (· < ·)) (hmem : ∀ names, names ∈ selected ↔ names ∈ selected') :
    selected = selected' := by
  refine List.Perm.eq_of_pairwise (fun names names' _ _ hlt hlt' => ?_) h h' ?_
  · exact absurd (Std.lt_trans hlt hlt') Std.lt_irrefl
  · exact (List.perm_ext_iff_of_nodup (h.imp Std.ne_of_lt) (h'.imp Std.ne_of_lt)).2 hmem

/-- What the recursive search takes inside subdirectories are the files of those that are wanted, in
the same order. -/
theorem filter_kept_eq (hwf : tree.WellFormed) (root : Path) (suffixes : List Text) :
    (((tree.below location).filter (kept root suffixes)).map Prod.fst).filter inSubdirectory =
      ((subdirectories (tree.below location)).filter (wanted suffixes)).flatMap
        (directlyIn (tree.below location)) := by
  have hkept : (((tree.below location).filter (kept root suffixes)).map Prod.fst).Pairwise (· < ·) := by
    rw [List.pairwise_map]
    exact FileTree.sorted_below.filter _
  refine eq_of_increasing (hkept.filter _)
    (increasing_flatMap_directlyIn (increasing_subdirectories.filter _)) fun names => ?_
  simp only [List.mem_filter, List.mem_map, List.mem_flatMap, mem_directlyIn, mem_subdirectories]
  constructor
  · rintro ⟨⟨⟨_, node⟩, ⟨hbelow, hkept⟩, rfl⟩, hpair⟩
    obtain ⟨folder, name, rfl⟩ := List.length_eq_two.1 (eq_of_beq hpair)
    have hplain := plain_of_mem_below hwf hbelow
    rw [kept_pair (hplain folder (by simp)) (hplain name (by simp)), Bool.and_eq_true,
      Bool.not_eq_true'] at hkept
    have hnode := (FileTree.mem_below_iff.1 hbelow).2
    rw [List.append_cons] at hnode
    exact ⟨folder, ⟨hwf.parent hnode, hkept.2⟩, name, node, rfl, hbelow, hkept.1⟩
  · rintro ⟨folder, ⟨-, hwanted⟩, name, node, rfl, hbelow, hfile⟩
    have hplain := plain_of_mem_below hwf hbelow
    refine ⟨⟨_, ⟨hbelow, ?_⟩, rfl⟩, rfl⟩
    rw [kept_pair (hplain folder (by simp)) (hplain name (by simp)), hfile, hwanted]
    rfl

/-! Where the flat search stops. -/

/-- A subdirectory that the flat search wants to search cannot be entered. -/
def Barred (root : Path) (suffixes : List Text) (name : Name) : Prop :=
  wanted suffixes name = true ∧ (root.child name).isTooLong = true

instance (root : Path) (suffixes : List Text) (name : Name) : Decidable (Barred root suffixes name) :=
  inferInstanceAs (Decidable (_ ∧ _))

theorem takenFrom_of_unnamed (h : Utf8.decode? name = none) :
    takenFrom root suffixes walked name = .error (.nameNotUtf8 (Utf8.decodeLossy name)) := by
  rw [takenFrom, Path.nameText, h]
  rfl

theorem takenFrom_of_barred (h : Barred root suffixes name) :
    takenFrom root suffixes walked name = .error
      (.walk (Utf8.decodeLossy (root.child name).bytes) .nameTooLong) := by
  obtain ⟨hwanted, hlong⟩ := h
  obtain ⟨folder, hfolder, hmatches⟩ := (Option.any_eq_true ..).1 hwanted
  rw [takenFrom, Path.nameText, hfolder]
  change (if matchesFolder folder suffixes then _ else _) = _
  rw [if_pos hmatches, Files.enter, if_pos hlong]
  rfl

theorem takenFrom_of_open (hnamed : Utf8.decode? name ≠ none) (hopen : ¬Barred root suffixes name) :
    takenFrom root suffixes walked name = .ok
      (if wanted suffixes name then filesDirectlyIn root walked name else []) := by
  obtain ⟨folder, hfolder⟩ := Option.ne_none_iff_exists'.1 hnamed
  have hwanted : wanted suffixes name = matchesFolder folder suffixes := by
    rw [wanted, hfolder, Option.any_some]
  rw [Barred, hwanted] at hopen
  rw [takenFrom, Path.nameText, hfolder, hwanted]
  change (if matchesFolder folder suffixes then _ else _) = _
  by_cases hmatches : matchesFolder folder suffixes = true
  · rw [if_pos hmatches, if_pos hmatches, Files.enter, if_neg fun hlong => hopen ⟨hmatches, hlong⟩]
    rfl
  · rw [if_neg hmatches, if_neg hmatches]

/-- The flat search gets past some subdirectories and then stops at a name or at a path, or it gets
past all of them. -/
theorem mapM_takenFrom_cases (root : Path) (suffixes : List Text) (walked : List (Location × Node))
    (names : List Name) :
    ((∀ name ∈ names, Utf8.decode? name ≠ none ∧ ¬Barred root suffixes name) ∧
      names.mapM (takenFrom root suffixes walked) =
        .ok (names.map fun name => if wanted suffixes name then filesDirectlyIn root walked name else [])) ∨
    ∃ before name after, names = before ++ name :: after ∧
      (∀ other ∈ before, Utf8.decode? other ≠ none ∧ ¬Barred root suffixes other) ∧
      (Utf8.decode? name = none ∧ (∃ shown, names.mapM (takenFrom root suffixes walked) = .error
        (.nameNotUtf8 shown)) ∨
        Barred root suffixes name ∧ ∃ shown, names.mapM (takenFrom root suffixes walked) = .error
          (.walk shown .nameTooLong)) := by
  induction names with
  | nil => exact .inl ⟨nofun, rfl⟩
  | cons first names ih =>
      rw [List.mapM_cons]
      by_cases hnamed : Utf8.decode? first = none
      · exact .inr ⟨[], first, names, rfl, nofun,
          .inl ⟨hnamed, _, by rw [takenFrom_of_unnamed hnamed]; rfl⟩⟩
      by_cases hbarred : Barred root suffixes first
      · exact .inr ⟨[], first, names, rfl, nofun,
          .inr ⟨hbarred, _, by rw [takenFrom_of_barred hbarred]; rfl⟩⟩
      rw [takenFrom_of_open hnamed hbarred]
      rcases ih with ⟨hall, hgroups⟩ | ⟨before, name, after, rfl, hbefore, hstops⟩
      · refine .inl ⟨List.forall_mem_cons.2 ⟨⟨hnamed, hbarred⟩, hall⟩, ?_⟩
        rw [hgroups]
        rfl
      · refine .inr ⟨first :: before, name, after, rfl,
          List.forall_mem_cons.2 ⟨⟨hnamed, hbarred⟩, hbefore⟩, ?_⟩
        rcases hstops with ⟨hname, shown, hfails⟩ | ⟨hname, shown, hfails⟩
        · exact .inl ⟨hname, shown, by rw [hfails]; rfl⟩
        · exact .inr ⟨hname, shown, by rw [hfails]; rfl⟩

theorem flatten_taken (root : Path) (suffixes : List Text) (walked : List (Location × Node))
    (names : List Name) :
    (names.map fun name => if wanted suffixes name then filesDirectlyIn root walked name else []).flatten =
      ((names.filter (wanted suffixes)).flatMap (directlyIn walked)).map (pathBelow root) := by
  induction names with
  | nil => rfl
  | cons name names ih =>
      rw [List.map_cons, List.flatten_cons, ih, List.filter_cons]
      split
      · rw [List.flatMap_cons, List.map_append, filesDirectlyIn_eq]
      · rfl

/-- A subdirectory of this name lies in a directory. -/
def Subdirectory (tree : FileTree) (location : Location) (name : Name) : Prop :=
  tree.node? (location ++ [name]) = some .directory

instance (tree : FileTree) (location : Location) (name : Name) :
    Decidable (Subdirectory tree location name) :=
  inferInstanceAs (Decidable (_ = _))

/-- The flat search gets past all subdirectories, or it stops at the first one whose name is not
UTF-8 or which has to be searched and has too long a path. -/
theorem select_flat_cases {session : Session}
    (hroot : session.files.lookup .target root = .ok (location, .directory)) (suffixes : List Text) :
    ((∀ name, Subdirectory session.files.tree location name → Utf8.decode? name ≠ none ∧
      ¬Barred root suffixes name) ∧
      ((select root false suffixes).perform session).1 =
        .ok ((((subdirectories (session.files.tree.below location)).filter (wanted suffixes)).flatMap
          (directlyIn (session.files.tree.below location))).map (pathBelow root))) ∨
    ∃ name, Subdirectory session.files.tree location name ∧
      (∀ other, Subdirectory session.files.tree location other → other < name →
        Utf8.decode? other ≠ none ∧ ¬Barred root suffixes other) ∧
      (Utf8.decode? name = none ∧
          (∃ shown, ((select root false suffixes).perform session).1 = .error (.nameNotUtf8 shown)) ∨
        Barred root suffixes name ∧
          ∃ shown, ((select root false suffixes).perform session).1 = .error
            (.walk shown .nameTooLong)) := by
  have hresult : ((select root false suffixes).perform session).1 =
      (subdirectories (session.files.tree.below location)).mapM
        (takenFrom root suffixes (session.files.tree.below location)) >>= fun groups =>
            .ok groups.flatten :=
    result_of_select_eq hroot false suffixes
  have hmem : ∀ name, name ∈ subdirectories (session.files.tree.below location) ↔
      Subdirectory session.files.tree location name := fun name => mem_subdirectories
  have hincreasing : (subdirectories (session.files.tree.below location)).Pairwise (· < ·) :=
    increasing_subdirectories
  rw [hresult]
  rcases mapM_takenFrom_cases root suffixes (session.files.tree.below location)
    (subdirectories (session.files.tree.below location)) with ⟨hall, hgroups⟩ | ⟨before, name, rest,
      hnames, hbefore, hstops⟩
  · refine .inl ⟨fun name hname => hall name ((hmem name).2 hname), ?_⟩
    rw [hgroups, ← flatten_taken]
    rfl
  refine .inr ⟨name, (hmem name).1 (hnames ▸ by simp), fun other hother hlt => hbefore other ?_, ?_⟩
  · -- The subdirectories are met in increasing order, so `before` holds just those that come before
    -- the one that stops it.
    rw [hnames] at hincreasing
    have hlisted := hnames ▸ (hmem other).2 hother
    rcases List.mem_append.1 hlisted with hlisted | hlisted
    · exact hlisted
    · rcases List.mem_cons.1 hlisted with rfl | hlisted
      · exact absurd hlt Std.lt_irrefl
      · have hgt := List.rel_of_pairwise_cons (List.pairwise_append.1 hincreasing).2.1 hlisted
        exact absurd (Std.lt_trans hlt hgt) Std.lt_irrefl
  · rcases hstops with ⟨hunnamed, shown, hfails⟩ | ⟨hbarred, shown, hfails⟩ <;> rw [hfails]
    · exact .inl ⟨hunnamed, shown, rfl⟩
    · exact .inr ⟨hbarred, shown, rfl⟩

/-- What the flat search of a directory gives. If the recursive search succeeds as well, it gives
what that one gives of the entries that lie directly in a subdirectory of the root, in the same
order. It fails at the name of a subdirectory just if there is one whose name is not UTF-8 and none
before it that has to be searched and has too long a path, where it fails for that. It succeeds just
if there is no such subdirectory at all, whatever lies in the subdirectories. -/
theorem select_flat {session : Session} (hwf : session.files.tree.WellFormed)
    (hroot : session.files.lookup .target root = .ok (location, .directory)) (suffixes : List Text) :
    ∃ result after, (select root false suffixes).perform session = (result, after) ∧
      (∀ paths all, result = .ok paths → ((select root true suffixes).perform session).1 = .ok all →
        ∃ selected : List Location, (∀ names ∈ selected, ∃ node,
          session.files.tree.Lies location names node) ∧
          all = selected.map (pathBelow root) ∧
          paths = (selected.filter inSubdirectory).map (pathBelow root)) ∧
      ((∃ shown, result = .error (.nameNotUtf8 shown)) ↔
        ∃ name, Subdirectory session.files.tree location name ∧ Utf8.decode? name = none ∧
          ∀ other, Subdirectory session.files.tree location other → other < name →
          ¬Barred root suffixes other) ∧
      ((∃ paths, result = .ok paths) ↔ ∀ name, Subdirectory session.files.tree location name →
        Utf8.decode? name ≠ none ∧ ¬Barred root suffixes name) ∧
      ∀ failure, result = .error failure →
        (∃ shown, failure = .nameNotUtf8 shown) ∨ ∃ shown, failure = .walk shown .nameTooLong := by
  rcases hperform : (select root false suffixes).perform session with ⟨result, after⟩
  have hcases := select_flat_cases hroot suffixes
  rw [hperform] at hcases
  refine ⟨result, after, rfl, ?_⟩
  rcases hcases with ⟨hall, rfl⟩ | ⟨name, hname, hbefore, ⟨hunnamed, shown, rfl⟩ | ⟨hbarred, shown, rfl⟩⟩
  · refine ⟨?_, iff_of_false nofun ?_, iff_of_true ⟨_, rfl⟩ hall, nofun⟩
    · rintro paths all ⟨⟩ hrecursive
      rw [result_of_select hroot] at hrecursive
      refine ⟨_, fun names hnames => ?_, eq_of_selectRecursive hrecursive, ?_⟩
      · obtain ⟨⟨_, node⟩, hkept, rfl⟩ := List.mem_map.1 hnames
        exact ⟨node, FileTree.lies_iff.2 (List.mem_of_mem_filter hkept)⟩
      · rw [filter_kept_eq hwf]
    · rintro ⟨name, hname, hunnamed, -⟩
      exact (hall name hname).1 hunnamed
  · refine ⟨nofun, iff_of_true ⟨shown, rfl⟩
      ⟨name, hname, hunnamed, fun other hother hlt => (hbefore other hother hlt).2⟩,
      iff_of_false nofun fun hall => (hall name hname).1 hunnamed, ?_⟩
    rintro failure ⟨⟩
    exact .inl ⟨shown, rfl⟩
  · refine ⟨nofun, iff_of_false nofun ?_, iff_of_false nofun fun hall => (hall name hname).2 hbarred, ?_⟩
    · rintro ⟨other, hother, hunnamed, hfirst⟩
      rcases Std.lt_trichotomy other name with hlt | rfl | hgt
      · exact (hbefore other hother hlt).1 hunnamed
      · have hnamed := hbarred.1
        rw [wanted, hunnamed] at hnamed
        cases hnamed
      · exact hfirst name hname hgt hbarred
    · rintro failure ⟨⟩
      exact .inr ⟨shown, rfl⟩

theorem select_flat_sample : ∃ selected : List Location,
    ((select sampleBase true []).perform (sampleSession "b")).1 = .ok
      (selected.map (pathBelow sampleBase)) ∧
      ((select sampleBase false []).perform (sampleSession "b")).1 =
        .ok ((selected.filter inSubdirectory).map (pathBelow sampleBase)) := by
  have hwf : (sampleSession "b").files.tree.WellFormed := by decide +kernel
  have hroot : (sampleSession "b").files.lookup .target sampleBase = .ok
      ([Utf8.encode ['d']], .directory) := by
    decide +kernel
  have hall : ∀ name ∈ subdirectories ((sampleSession "b").files.tree.below [Utf8.encode ['d']]),
      Utf8.decode? name ≠ none ∧ ¬Barred sampleBase [] name := by decide +kernel
  have hrecursive : ((select sampleBase true []).perform
    (sampleSession "b")).1.toOption.isSome := by decide +kernel
  obtain ⟨result, after, hperform, hboth, -, hsucceeds, -⟩ := select_flat hwf hroot []
  obtain ⟨paths, rfl⟩ := hsucceeds.2 fun name hname => hall name (mem_subdirectories.2 hname)
  rcases hresult : ((select sampleBase true []).perform (sampleSession "b")).1 with failure | all
  · rw [hresult] at hrecursive
    cases hrecursive
  · obtain ⟨selected, -, rfl, rfl⟩ := hboth paths all rfl hresult
    exact ⟨selected, rfl, congrArg Prod.fst hperform⟩

/-- Two folders in `d`: one with a long name and, behind it, one whose name is not UTF-8. -/
def unnamedSession : Session :=
  let nodes : List (Location × Node) := [([Utf8.encode ['d']], .directory),
    ([Utf8.encode ['d'], longName], .directory), ([Utf8.encode ['d'], [0x79, 0xFF]], .directory)]
  { sampleSession "b" with files := ⟨nodes.foldl
    (fun tree (location, node) => tree.insert location node) .empty, []⟩ }

/-- The flat search does not come to the folder whose name is not UTF-8, because the path to the one
before becomes too long. -/
theorem select_flat_fails_of_overlong : unnamedSession.files.tree.WellFormed ∧
    unnamedSession.files.lookup .target (padded 3900) = .ok ([Utf8.encode ['d']], .directory) ∧
    Subdirectory unnamedSession.files.tree [Utf8.encode ['d']] [0x79, 0xFF] ∧
    Utf8.decode? [0x79, 0xFF] = none ∧
    ∃ shown after, (select (padded 3900) false []).perform unnamedSession =
      (.error (.walk shown .nameTooLong), after) := by
  have hroot : unnamedSession.files.lookup .target (padded 3900) = .ok ([Utf8.encode ['d']], .directory) :=
    lookup_padded (by decide) rfl (by decide +kernel) .target
  refine ⟨by decide +kernel, hroot, by decide +kernel, by decide +kernel, ?_⟩
  have hbarred : Barred (padded 3900) [] longName := ⟨by decide +kernel, isTooLong_padded_child⟩
  have hsubdirectories : subdirectories (unnamedSession.files.tree.below [Utf8.encode ['d']]) =
      [longName, [0x79, 0xFF]] := by
    decide +kernel
  have hresult : ((select (padded 3900) false []).perform unnamedSession).1 =
      (subdirectories (unnamedSession.files.tree.below [Utf8.encode ['d']])).mapM
        (takenFrom (padded 3900) [] (unnamedSession.files.tree.below [Utf8.encode ['d']])) >>=
          fun groups => .ok groups.flatten := result_of_select_eq hroot false []
  rw [hsubdirectories, List.mapM_cons, takenFrom_of_barred hbarred] at hresult
  rcases hperform : (select (padded 3900) false []).perform unnamedSession with ⟨result, after⟩
  rw [hperform] at hresult
  exact ⟨_, after, congrArg (·, after) hresult⟩

end ServerPack.Build
