import Mathlib.Data.List.Sort
import ServerPack.Proofs.FileSystem.LinkFree
import ServerPack.Proofs.FileSystem.TreeCopy

/-!
File systems that agree on some locations. Without links a path leads where it does for what is on
its way (`follow_congr`), so in two file systems that agree on the way of a path it leads to the
same, and what is made, written or removed there is the same again (`Agree.resolveNames_eq`,
`Agree.put`).
-/

namespace ServerPack

namespace FileTree

variable {tree tree' : FileTree}

theorem followNames_congr (hfree : tree.LinkFree) {purpose : Purpose}
    {through through' : Location → List Name → Except IoFault Target} {directory : Location}
    {names : List Name}
    (h : ∀ front, front <+: names → tree.node? (destination directory front) = tree'.node?
      (destination directory front)) :
    tree.followNames purpose through directory names =
      tree'.followNames purpose through' directory names := by
  induction names generalizing directory with
  | nil => rfl
  | cons name names ih =>
      have hnext : ∀ {directory'}, step directory name = directory' →
          tree.followNames purpose through directory' names =
              tree'.followNames purpose through' directory' names := by
        rintro directory' rfl
        exact ih fun front hfront => h (name :: front) (List.cons_prefix_cons.2 ⟨rfl, hfront⟩)
      rw [followNames, followNames]
      by_cases hstay : name = [] ∨ name = Path.dot
      · rw [if_pos hstay, if_pos hstay]
        exact hnext (step_of_stay hstay)
      rw [if_neg hstay, if_neg hstay]
      by_cases hup : name = Path.dotDot
      · rw [if_pos hup, if_pos hup]
        exact hnext (hup ▸ step_dotDot directory)
      rw [if_neg hup, if_neg hup]
      have hstep : step directory name = directory ++ [name] :=
        step_of_entry (not_or.1 hstay).1 (not_or.1 hstay).2 hup
      have hnode : tree.node? (directory ++ [name]) = tree'.node? (directory ++ [name]) := by
        rw [← hstep]
        exact h [name] (List.cons_prefix_cons.2 ⟨rfl, List.nil_prefix⟩)
      dsimp only
      rw [← hnode, hnext hstep]
      cases hfound : tree.node? (directory ++ [name]) with
      | none => rfl
      | some node =>
          cases node with
          | directory => rfl
          | file content => rfl
          | link aim => exact absurd hfound (hfree _ _)

/-- In a tree without links, names lead to what they lead to in a tree that is the same on their
way. -/
theorem follow_congr (hfree : tree.LinkFree) {purpose : Purpose} {links : Nat}
    {directory : Location} {names : List Name}
    (h : ∀ front, front <+: names → tree.node? (destination directory front) = tree'.node?
      (destination directory front)) :
    tree.follow purpose links directory names = tree'.follow purpose links directory names := by
  cases links <;> exact followNames_congr hfree h

/-- Names lead to a place with plain names. -/
theorem plain_destination {directory : Location} {names : List Name}
    (hdirectory : ∀ name ∈ directory, Path.Plain name)
    (hnames : ∀ name ∈ names, Path.slash ∉ name) : ∀ name ∈ destination directory names,
    Path.Plain name := by
  induction names generalizing directory with
  | nil => exact hdirectory
  | cons name names ih =>
      refine ih ?_ fun other hother => hnames other (List.mem_cons_of_mem _ hother)
      rw [step]
      split
      · exact hdirectory
      next hstay =>
      split
      · exact fun other hother => hdirectory other (List.dropLast_subset _ hother)
      · next hup =>
        intro other hother
        rcases List.mem_append.1 hother with hother | hother
        · exact hdirectory other hother
        · rw [List.mem_singleton.1 hother]
          exact ⟨(not_or.1 hstay).1, hnames name List.mem_cons_self, (not_or.1 hstay).2, hup⟩

/-- Trees that agree below a location have the same walk of it. -/
theorem below_congr {location : Location}
    (h : ∀ names, tree.node? (location ++ names) = tree'.node? (location ++ names)) :
    tree.below location = tree'.below location := by
  refine List.Perm.eq_of_pairwise (fun found found' _ _ hlt hlt' => ?_) sorted_below sorted_below ?_
  · exact absurd (Std.lt_trans hlt hlt') Std.lt_irrefl
  · refine (List.perm_ext_iff_of_nodup (.of_map Prod.fst nodup_below) (.of_map Prod.fst nodup_below)).2 ?_
    rintro ⟨names, node⟩
    rw [mem_below_iff, mem_below_iff, h]

theorem children_congr {location : Location}
    (h : ∀ names, tree.node? (location ++ names) = tree'.node? (location ++ names)) :
    tree.children location = tree'.children location := by
  rw [children, children, below_congr h]

end FileTree

namespace FileSystem

open FileTree (destination trimmed)

/-- Two file systems with the current directory of a third that are the same on some locations; the
first one has no links. -/
structure Agree (origin : FileSystem) (shared : Location → Prop) (files files' : FileSystem) : Prop where
  current : files.current = origin.current
  current' : files'.current = origin.current
  linkFree : files.tree.LinkFree
  plain {location node} : files.tree.node? location = some node → ∀ name ∈ location, Path.Plain name
  plainCurrent : ∀ name ∈ origin.current, Path.Plain name
  node?_eq {location} : shared location → files.tree.node? location = files'.tree.node? location

/-- What is on the way of a path is shared. -/
def Covers (origin : FileSystem) (shared : Location → Prop) (path : Path) : Prop :=
  ∀ location, origin.OnWay path location → shared location

variable {origin files files' : FileSystem} {shared : Location → Prop} {base path : Path}
  {names : List Name}

theorem Covers.of_prefix {path' : Path} (h : origin.Covers shared path)
    (habsolute : path'.isAbsolute = path.isAbsolute)
    (hbegins : trimmed path'.names <+: trimmed path.names) : origin.Covers shared path' := by
  rintro location ⟨front, hfront, rfl⟩
  refine h _ ⟨front, hfront.trans hbegins, ?_⟩
  rw [start, start, habsolute]

theorem Covers.parent {parent : Path} (h : origin.Covers shared path)
    (hparent : path.parent? = some parent) :
    origin.Covers shared parent :=
  have ⟨habsolute, hbegins⟩ := Path.parent_facts hparent
  h.of_prefix habsolute hbegins

/-- In a base whose way is shared, paths to shared places may be used. -/
theorem Covers.within (h : origin.Covers shared base) (hpath : Path.Within base names path)
    (hnames : ∀ front, front ≠ [] → front <+: names → shared (origin.home base ++ front)) :
    origin.Covers shared path := by
  intro location hway
  rcases onWay_of_within hpath hway with hbase | ⟨front, hne, hfront, rfl⟩
  · exact h _ hbase
  · exact hnames front hne hfront

namespace Agree

theorem start_eq (h : Agree origin shared files files') (path : Path) :
    files.start path = origin.start path := by
  rw [start, start, h.current]

theorem resolveNames_eq (h : Agree origin shared files files') (hpath : origin.Covers shared path)
    (hnames : trimmed names <+: trimmed path.names) (purpose : Purpose) :
    files.resolveNames purpose path names = files'.resolveNames purpose path names := by
  have hfollow : files.tree.follow purpose maxLinks (origin.start path) names =
      files'.tree.follow purpose maxLinks (origin.start path) names := by
    refine FileTree.follow_congr h.linkFree fun front ⟨rest, hfront⟩ =>
      h.node?_eq (hpath _ ⟨trimmed front, ?_, ?_⟩)
    · rw [← hfront, FileTree.trimmed_append] at hnames
      exact (List.prefix_append _ _).trans hnames
    · exact (FileTree.destination_trimmed _ _).symm
  rw [start] at hfollow
  rw [resolveNames, resolveNames, h.current, h.current', hfollow]

theorem resolve_eq (h : Agree origin shared files files') (hpath : origin.Covers shared path)
    (purpose : Purpose) :
    files.resolve purpose path = files'.resolve purpose path :=
  h.resolveNames_eq hpath ((Path.trimmed_steps path).symm ▸ List.prefix_rfl) purpose

theorem lookup_eq (h : Agree origin shared files files') (hpath : origin.Covers shared path)
    (purpose : Purpose) :
    files.lookup purpose path = files'.lookup purpose path := by
  rw [lookup, lookup, h.resolve_eq hpath]

theorem isDirectory_eq (h : Agree origin shared files files') (hpath : origin.Covers shared path) :
    files.isDirectory path = files'.isDirectory path := by
  rw [isDirectory, isDirectory, h.lookup_eq hpath]

theorem pathExists_eq (h : Agree origin shared files files') (hpath : origin.Covers shared path) :
    files.pathExists path = files'.pathExists path := by
  rw [pathExists, pathExists, h.lookup_eq hpath]

theorem readContent_eq (h : Agree origin shared files files') (hpath : origin.Covers shared path) :
    files.readContent path = files'.readContent path := by
  rw [readContent, readContent, h.lookup_eq hpath]

/-- Names of a path lead to a place that is written with plain names. -/
theorem plain_of_resolveNames (h : Agree origin shared files files') {purpose : Purpose} {target : Target}
    (hnames : ∀ name ∈ names, Path.slash ∉ name)
    (hresolve : files.resolveNames purpose path names = .ok target) :
    target.location = destination (origin.start path) names ∧
    ∀ name ∈ target.location, Path.Plain name := by
  obtain ⟨-, _, -, hway⟩ := resolveNames_eq_ok_iff.1 hresolve
  rw [h.start_eq] at hway
  have hlocation := hway.location_eq h.linkFree
  refine ⟨hlocation, hlocation ▸ FileTree.plain_destination ?_ hnames⟩
  rw [start]
  split
  · exact List.forall_mem_nil _
  · exact h.plainCurrent

/-- The same is put in the same place. -/
theorem put (h : Agree origin shared files files') {location : Location}
    (hlocation : ∀ name ∈ location, Path.Plain name) (node : Node) (hnode : ∀ aim, node ≠ .link aim) :
    Agree origin (fun other => shared other ∨ other = location) (files.put location node)
      (files'.put location node) := by
  by_cases hroot : location = []
  · subst hroot
    have hsame : ∀ (files : FileSystem) (other : Location), (files.put [] node).tree.node? other =
        files.tree.node? other := by
      intro files other
      by_cases hother : other = []
      · rw [hother]
        rfl
      · exact (FileTree.node?_insert _ _ _ _ hother).trans (if_neg hother)
    refine ⟨h.current, h.current', fun other aim => ?_, fun {other node} hother => ?_,
      h.plainCurrent, fun {other} hother => ?_⟩
    · rw [hsame]
      exact h.linkFree other aim
    · rw [hsame] at hother
      exact h.plain hother
    · rw [hsame, hsame]
      rcases hother with hother | rfl
      · exact h.node?_eq hother
      · rfl
  refine ⟨h.current, h.current', fun other aim => ?_, fun {other node'} hother => ?_,
    h.plainCurrent, fun {other} hother => ?_⟩
  · rw [node?_put hroot]
    split
    · exact fun heq => hnode aim (Option.some.inj heq)
    · exact h.linkFree other aim
  · rw [node?_put hroot] at hother
    split at hother
    · next heq => exact heq ▸ hlocation
    · exact h.plain hother
  · rw [node?_put hroot, node?_put hroot]
    split
    · rfl
    · next hne => exact h.node?_eq (hother.resolve_right hne)

theorem mono {shared' : Location → Prop} (h : Agree origin shared files files')
    (hshared : ∀ location, shared' location → shared location) : Agree origin shared' files files' :=
  ⟨h.current, h.current', h.linkFree, h.plain, h.plainCurrent, fun hlocation =>
    h.node?_eq (hshared _ hlocation)⟩

/-- Where a covered path leads is shared. -/
theorem shared_of_resolve (h : Agree origin shared files files') (hpath : origin.Covers shared path)
    {purpose : Purpose} {target : Target} (hresolve : files.resolve purpose path = .ok target) :
    shared target.location := by
  obtain ⟨hlocation, -⟩ := h.plain_of_resolveNames
    (fun _ hname => Path.no_slash_of_mem_steps hname) hresolve
  refine hpath _ ⟨trimmed path.names, List.prefix_rfl, ?_⟩
  rw [hlocation, ← FileTree.destination_trimmed, Path.trimmed_steps]

/-- The same is dropped. -/
theorem erase (h : Agree origin shared files files') (condition : Location → Bool) :
    Agree origin (fun location => shared location ∨ condition location = true)
      { files with tree := files.tree.erase condition }
      { files' with tree := files'.tree.erase condition } := by
  have hnode : ∀ (tree : FileTree) {location node}, (tree.erase condition).node? location = some node →
      tree.node? location = some node := by
    intro tree location node hfound
    by_cases hroot : location = []
    · rw [← hfound, hroot]
      rfl
    · rw [FileTree.node?_erase _ _ _ hroot] at hfound
      split at hfound
      · cases hfound
      · exact hfound
  refine ⟨h.current, h.current', fun location aim hlink => h.linkFree _ _ (hnode _ hlink),
    fun hfound => h.plain (hnode _ hfound), h.plainCurrent, fun {location} hlocation => ?_⟩
  by_cases hroot : location = []
  · rw [hroot]
    rfl
  change (files.tree.erase condition).node? location = (files'.tree.erase condition).node? location
  rw [FileTree.node?_erase _ _ _ hroot, FileTree.node?_erase _ _ _ hroot]
  split
  · rfl
  · next hnot => exact h.node?_eq (hlocation.resolve_right hnot)

end Agree

/-- Two changes are refused for the same reason, or give file systems that agree. -/
inductive AgreeAfter (origin : FileSystem) (shared : Location → Prop) :
    Except IoFault FileSystem → Except IoFault FileSystem → Prop
  | refused (fault : IoFault) : AgreeAfter origin shared (.error fault) (.error fault)
  | done {changed changed' : FileSystem} : Agree origin shared changed changed' →
      AgreeAfter origin shared (.ok changed) (.ok changed')

namespace Agree

theorem makeDirectory (h : Agree origin shared files files') (hpath : origin.Covers shared path) :
    AgreeAfter origin shared (files.makeDirectory path) (files'.makeDirectory path) := by
  rw [FileSystem.makeDirectory, FileSystem.makeDirectory, ← h.resolveNames_eq hpath List.prefix_rfl]
  rcases hresolve : files.resolveNames .itself path path.names with fault | target
  · exact .refused fault
  cases target with
  | present => exact .refused _
  | vacant location =>
      have hplace := (h.plain_of_resolveNames (fun _ hname => Path.no_slash_of_mem_names hname) hresolve).2
      exact .done ((h.put hplace .directory fun _ heq => Node.noConfusion heq).mono fun _ => .inl)

/-- The same file is opened. -/
theorem openEmpty (h : Agree origin shared files files') (hpath : origin.Covers shared path) :
    (∃ fault, files.openEmpty path = .error fault ∧ files'.openEmpty path = .error fault) ∨
      ∃ location opened opened', files.openEmpty path = .ok (location, opened) ∧
        files'.openEmpty path = .ok (location, opened') ∧ (∀ name ∈ location, Path.Plain name) ∧
        Agree origin shared opened opened' := by
  rw [FileSystem.openEmpty, FileSystem.openEmpty, ← h.resolve_eq hpath]
  have hopened : ∀ {target : Target}, files.resolve .writing path = .ok target →
      (∀ name ∈ target.location, Path.Plain name) ∧ Agree origin shared
        (files.put target.location (.file (.plain [])))
            (files'.put target.location (.file (.plain []))) := by
    intro target hresolve
    have hplace := (h.plain_of_resolveNames (fun _ hname => Path.no_slash_of_mem_steps hname) hresolve).2
    exact ⟨hplace, (h.put hplace (.file (.plain [])) fun _ heq => Node.noConfusion heq).mono fun _ => .inl⟩
  rcases hresolve : files.resolve .writing path with fault | target
  · exact .inl ⟨fault, rfl, rfl⟩
  obtain ⟨hplace, hput⟩ := hopened hresolve
  cases target with
  | vacant location => exact .inr ⟨_, _, _, rfl, rfl, hplace, hput⟩
  | present location node =>
      cases node with
      | directory => exact .inl ⟨_, rfl, rfl⟩
      | file content => exact .inr ⟨_, _, _, rfl, rfl, hplace, hput⟩
      | link aim => exact .inr ⟨_, _, _, rfl, rfl, hplace, hput⟩

theorem writeContent (h : Agree origin shared files files') (hpath : origin.Covers shared path)
    (content : Content) :
    AgreeAfter origin shared (files.writeContent path content) (files'.writeContent path content) := by
  rcases h.openEmpty hpath with ⟨fault, hopen, hopen'⟩ | ⟨location, opened, opened', hopen, hopen',
    hplace, hopened⟩
  · rw [FileSystem.writeContent, FileSystem.writeContent, hopen, hopen']
    exact .refused fault
  · rw [FileSystem.writeContent, FileSystem.writeContent, hopen, hopen']
    exact .done ((hopened.put hplace (.file content) fun _ heq => Node.noConfusion heq).mono fun _ => .inl)

theorem copyContent {source target : Path} (h : Agree origin shared files files')
    (hsource : origin.Covers shared source) (htarget : origin.Covers shared target) :
    AgreeAfter origin shared (files.copyContent source target) (files'.copyContent source target) := by
  rw [FileSystem.copyContent, FileSystem.copyContent, ← h.lookup_eq hsource]
  rcases hlookup : files.lookup .target source with fault | ⟨location, node⟩
  · exact .refused fault
  have hresolve : files.resolve .target source = .ok (.present location node) :=
    resolveNames_eq_ok_iff.2 (lookup_eq_ok_iff.1 hlookup)
  have hshared : shared location := h.shared_of_resolve hsource hresolve
  cases node with
  | directory => exact .refused _
  | link aim => exact .refused _
  | file content =>
      rcases h.openEmpty htarget with ⟨fault, hopen, hopen'⟩ | ⟨place, opened, opened', hopen,
        hopen', hplace, hopened⟩
      · simp only [bind, Except.bind, hopen, hopen']
        exact .refused fault
      · simp only [bind, Except.bind, hopen, hopen', ← hopened.node?_eq hshared]
        cases hnode : opened.tree.node? location with
        | none => exact .done hopened
        | some node => exact .done ((hopened.put hplace node fun aim heq =>
            hopened.linkFree _ _ (heq ▸ hnode)).mono fun _ => .inl)

theorem removeDirectory (h : Agree origin shared files files') (hpath : origin.Covers shared path) :
    AgreeAfter origin shared (files.removeDirectory path) (files'.removeDirectory path) := by
  have hdrop : ∀ location, Agree origin shared (files.drop location) (files'.drop location) :=
      fun location =>
    (h.erase fun other => other = location).mono fun _ => .inl
  have habove : trimmed (path.names.dropLast ++ [Path.dot]) <+: trimmed path.names := by
    rw [FileTree.trimmed_append]
    exact (List.append_nil _).symm ▸ (List.dropLast_prefix _).filter _
  rw [FileSystem.removeDirectory, FileSystem.removeDirectory, ← h.resolveNames_eq hpath habove,
    ← h.resolveNames_eq hpath List.prefix_rfl]
  rcases files.resolveNames .target path (path.names.dropLast ++ [Path.dot]) with fault | above
  · exact .refused fault
  simp only [bind, Except.bind]
  split
  · exact .refused _
  split
  · exact .refused _
  rcases files.resolveNames .itself path path.names with fault | target
  · exact .refused fault
  cases target with
  | vacant => exact .refused _
  | present location node =>
      cases node with
      | directory => exact .done (hdrop location)
      | file => exact .refused _
      | link => exact .refused _

end Agree

end FileSystem

end ServerPack
