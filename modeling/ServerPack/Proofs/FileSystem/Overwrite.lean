import ServerPack.Files
import ServerPack.Proofs.Action
import ServerPack.Proofs.FileSystem.PathNames

/-!
Files that can be read can be written again. A path that leads to a file or has just been written
(`holdsFile_of_writeContent`) goes on leading there whatever the file holds, and its directory
exists, so writing it cannot fail and only changes what the file holds
(`HoldsFile.perform_writeText`). Of two contents written one after the other the later one counts
(`put_put`).
-/

namespace ServerPack

/-- Of two values for a key the one that is inserted later counts. -/
theorem Dictionary.insert_insert {κ ν : Type} [LT κ] [DecidableLT κ] [DecidableEq κ]
    [Std.Irrefl (fun a b : κ => a < b)] (key : κ) (value value' : ν) (entries : List (κ × ν)) :
    insert key value' (insert key value entries) = insert key value' entries := by
  have hirrefl : ¬key < key := Std.Irrefl.irrefl key
  induction entries with
  | nil => simp [insert, hirrefl]
  | cons head rest ih =>
      obtain ⟨key', value''⟩ := head
      by_cases hlt : key < key'
      · simp [insert, hlt, hirrefl]
      · by_cases heq : key = key'
        · subst heq
          simp [insert, hirrefl]
        · simp [insert, hlt, heq, ih]

/-- The value that a key has can be inserted without a change. -/
theorem Dictionary.insert_of_get? {κ ν : Type} [LT κ] [DecidableLT κ] [DecidableEq κ] [LE κ]
    [Std.IsLinearOrder κ] [Std.LawfulOrderLT κ] {entries : List (κ × ν)} (hsorted : Sorted entries)
    {key : κ} {value : ν} (h : get? key entries = some value) : insert key value entries = entries := by
  induction entries with
  | nil => cases h
  | cons head rest ih =>
      obtain ⟨key', value'⟩ := head
      rw [get?] at h
      split at h
      · next heq =>
        subst heq
        cases h
        simp [insert, Std.lt_irrefl]
      · next hne =>
        have hrest : Sorted rest := hsorted.of_cons
        have hlt : key' < key := List.rel_of_pairwise_cons hsorted ((get?_eq_some_iff hrest).1 h)
        rw [insert, if_neg fun hgt => Std.lt_irrefl (Std.lt_trans hlt hgt), if_neg hne, ih hrest h]

namespace FileSystem

open FileTree (Follows)

variable {files : FileSystem} {path : Path}

/-- Where a path begins. -/
def start (files : FileSystem) (path : Path) : Location := if path.isAbsolute then [] else files.current

/-- A path that can be followed at all is followed. -/
theorem resolveNames_of_usable (h : path.Usable) (purpose : Purpose) (names : List Name) :
    files.resolveNames purpose path names = files.tree.follow purpose maxLinks
      (files.start path) names := by
  rw [resolveNames, if_neg (by simpa using h.no_nul), if_neg h.ne_nil,
    if_neg (by simpa [Path.isTooLong] using h.short), start]

/-- A path that cannot be followed is refused for that, whatever is there. -/
theorem resolveNames_of_not_usable (h : ¬path.Usable) : ∃ fault, (path.bytes ≠ [] → fault ≠ .notFound) ∧
    ∀ (files : FileSystem) purpose names, files.resolveNames purpose path names = .error fault := by
  by_cases hnul : 0 ∈ path.bytes
  · exact ⟨.nulInPath, nofun, fun _ _ _ => by simp [resolveNames, hnul]⟩
  by_cases hempty : path.bytes = []
  · exact ⟨.notFound, fun hne => absurd hempty hne, fun _ _ _ => by simp [resolveNames, hempty]⟩
  have hlong : path.isTooLong = true := by
    rw [Path.isTooLong, decide_eq_true_iff]
    exact Nat.lt_of_not_le fun hshort => h ⟨hempty, hnul, hshort⟩
  exact ⟨.nameTooLong, nofun, fun _ _ _ => by simp [resolveNames, hnul, hempty, hlong]⟩

theorem resolveNames_eq_ok_iff {purpose : Purpose} {names : List Name} {target : Target} :
    files.resolveNames purpose path names = .ok target ↔
      path.Usable ∧ ∃ used, used ≤ maxLinks ∧
      Follows files.tree purpose used (files.start path) names target := by
  rw [← FileTree.follow_eq_ok_iff]
  by_cases husable : path.Usable
  · rw [resolveNames_of_usable husable, and_iff_right husable]
  · obtain ⟨fault, -, hrefused⟩ := resolveNames_of_not_usable husable
    rw [hrefused]
    exact ⟨nofun, fun h => absurd h.1 husable⟩

theorem lookup_eq_ok_iff {purpose : Purpose} {location : Location} {node : Node} :
    files.lookup purpose path = .ok (location, node) ↔
      path.Usable ∧ ∃ used, used ≤ maxLinks ∧
        Follows files.tree purpose used (files.start path) path.steps (.present location node) := by
  rw [← resolveNames_eq_ok_iff, lookup, resolve]
  split <;> simp_all

theorem isDirectory_iff :
    files.isDirectory path = true ↔ ∃ location, files.lookup .target path = .ok (location, .directory) := by
  rw [isDirectory]
  rcases files.lookup .target path with fault | ⟨location, node⟩
  · simp
  · cases node <;> simp [Node.isDirectory]

/-- A path leads to a directory. Where it is too long or cannot be followed for its bytes does not
count, and the empty path leads to the current directory. -/
def LeadsTo (files : FileSystem) (path : Path) (location : Location) : Prop :=
  files.tree.follow .target maxLinks (files.start path) path.names = .ok (.present location .directory)

instance (files : FileSystem) (path : Path) (location : Location) :
    Decidable (files.LeadsTo path location) :=
  inferInstanceAs (Decidable (_ = _))

theorem LeadsTo.unique {location location' : Location} (h : files.LeadsTo path location)
    (h' : files.LeadsTo path location') : location = location' := by
  cases h.symm.trans h'
  rfl

theorem leadsTo_iff {location : Location} :
    files.LeadsTo path location ↔ ∃ used, used ≤ maxLinks ∧
      Follows files.tree .target used (files.start path) path.names (.present location .directory) :=
  FileTree.follow_eq_ok_iff

/-- A path leads to a file that holds something. -/
def HoldsFile (files : FileSystem) (path : Path) (location : Location) (content : Content) : Prop :=
  files.lookup .target path = .ok (location, .file content)

theorem HoldsFile.endsAt {location : Location} {content : Content}
    (h : files.HoldsFile path location content) :
    location ≠ [] ∧ files.tree.node? location = some (.file content) := by
  obtain ⟨-, _, -, hway⟩ := lookup_eq_ok_iff.1 h
  exact hway.endsAt

theorem HoldsFile.steps_eq {location : Location} {content : Content}
    (h : files.HoldsFile path location content) :
    path.steps = path.names := by
  obtain ⟨-, _, -, hway⟩ := lookup_eq_ok_iff.1 h
  rw [Path.steps] at hway ⊢
  split at hway
  · obtain ⟨_, hdirectory⟩ := hway.directory_of_slash
    cases hdirectory
  · rw [if_neg ‹_›, List.append_nil]

/-- The directory of a file that a path leads to is there. -/
theorem HoldsFile.exists_parent {location : Location} {content : Content}
    (h : files.HoldsFile path location content) :
    ∃ parent reached, path.parent? = some parent ∧ files.LeadsTo parent reached ∧
      (parent.bytes ≠ [] → parent.Usable) := by
  have hsteps := h.steps_eq
  obtain ⟨husable, used, hused, hway⟩ := lookup_eq_ok_iff.1 h
  rw [hsteps] at hway
  rcases List.eq_nil_or_concat path.names with hnil | ⟨init, last, hnames⟩
  · rw [hnil] at hway
    cases hway
  rw [List.concat_eq_append] at hnames
  rw [hnames] at hway
  obtain ⟨hne, hdot, -⟩ := hway.last_of_file
  have hlast : FileTree.trimmed path.names = FileTree.trimmed init ++ [last] := by
    rw [hnames, FileTree.trimmed_append, FileTree.trimmed_singleton hne hdot]
  obtain ⟨parent, hparent, habsolute, htrimmed, husable'⟩ := Path.exists_parent hlast
  obtain ⟨used₁, used₂, reached, rfl, hinit, -⟩ := hway.split (by simp)
  have hstart : files.start parent = files.start path := by rw [start, start, habsolute]
  refine ⟨parent, reached, hparent, leadsTo_iff.2 ⟨used₁, by omega, ?_⟩, husable' husable⟩
  rw [hstart]
  exact hinit.of_trimmed_eq htrimmed

/-- A directory that a path leads to is found there. -/
theorem LeadsTo.lookup {location : Location} (h : files.LeadsTo path location) (husable : path.Usable) :
    files.lookup .target path = .ok (location, .directory) := by
  obtain ⟨used, hused, hway⟩ := leadsTo_iff.1 h
  refine lookup_eq_ok_iff.2 ⟨husable, used, hused, ?_⟩
  rw [Path.steps]
  split
  · exact hway.append (.stay (.inl rfl) .here) (by simp) (by simp)
  · rwa [List.append_nil]

theorem leadsTo_of_lookup {location : Location}
    (h : files.lookup .target path = .ok (location, .directory)) :
    files.LeadsTo path location := by
  obtain ⟨-, used, hused, hway⟩ := lookup_eq_ok_iff.1 h
  exact leadsTo_iff.2 ⟨used, hused, hway.of_trimmed_eq (Path.trimmed_steps path).symm⟩

/-- Where a path leads to a directory none can be made. -/
theorem LeadsTo.makeDirectory {location : Location} (h : files.LeadsTo path location)
    (husable : path.Usable) :
    files.makeDirectory path = .error .alreadyExists := by
  obtain ⟨used, hused, hway⟩ := leadsTo_iff.1 h
  obtain ⟨used', location', node, hused', hway'⟩ := hway.itself
  rw [FileSystem.makeDirectory, resolveNames_eq_ok_iff.2 ⟨husable, used', by omega, hway'⟩]

/-! What a file holds. -/

@[simp] theorem start_put (location : Location) (node : Node) :
    (files.put location node).start path = files.start path :=
  rfl

theorem node?_put {location : Location} (hlocation : location ≠ []) (node : Node) (other : Location) :
    (files.put location node).tree.node? other =
      if other = location then some node else files.tree.node? other := by
  by_cases hother : other = []
  · subst hother
    rw [if_neg (Ne.symm hlocation)]
    rfl
  · exact FileTree.node?_insert _ _ _ _ hother

theorem node?_put_self {location : Location} (hlocation : location ≠ []) (node : Node) :
    (files.put location node).tree.node? location = some node := by rw [node?_put hlocation, if_pos rfl]

@[simp] theorem put_put (location : Location) (node node' : Node) :
    (files.put location node).put location node' = files.put location node' := by
  simp only [put, FileTree.insert, Dictionary.insert_insert]

theorem put_of_node? {location : Location} {node : Node} (hlocation : location ≠ [])
    (hnode : files.tree.node? location = some node) : files.put location node = files := by
  rw [FileTree.node?, if_neg hlocation] at hnode
  have hsame := Dictionary.insert_of_get? files.tree.sorted hnode
  simp only [put, FileTree.insert, hsame]

theorem sustains_put {location : Location} {node : Node} (hlocation : location ≠ [])
    (htakes : files.tree.Takes location node) :
    FileTree.Sustains files.tree (files.put location node).tree where
  directory hnode := by
    rw [node?_put hlocation]
    split
    · next heq => exact absurd (heq ▸ hnode) htakes.not_directory
    · exact hnode
  file hnode := by
    rw [node?_put hlocation]
    split
    · next heq =>
      obtain ⟨content, rfl⟩ := htakes.file (heq ▸ hnode)
      exact ⟨content, rfl⟩
    · exact ⟨_, hnode⟩
  link := by
    intro other aim
    rw [node?_put hlocation]
    split
    · next heq =>
      subst heq
      constructor
      · exact fun hnode => absurd hnode htakes.not_link
      · intro hnode
        obtain rfl := Option.some.inj hnode
        exact htakes.elim
    · exact Iff.rfl

/-- Writing a file changes what the paths to it lead to, and no other path. -/
theorem HoldsFile.put {location location' : Location} {content content' : Content} {path' : Path}
    (h : files.HoldsFile path location content) (new : Content)
    (h' : files.HoldsFile path' location' content') :
    (files.put location' (.file new)).HoldsFile path location
      (if location = location' then new else content) := by
  obtain ⟨husable, used, hused, hway⟩ := lookup_eq_ok_iff.1 h
  obtain ⟨-, _, -, hway'⟩ := lookup_eq_ok_iff.1 h'
  obtain ⟨-, hnode⟩ := hway.endsAt
  obtain ⟨hlocation', hnode'⟩ := hway'.endsAt
  have hend := hway.sustained (sustains_put hlocation'
    (show files.tree.Takes location' (.file new) from .inr ⟨_, hnode'⟩))
  rw [FileTree.seenIn, FileTree.targetAt, node?_put hlocation', hnode] at hend
  · refine lookup_eq_ok_iff.2 ⟨husable, used, hused, ?_⟩
    split <;> simpa [*] using hend
  · simp

theorem HoldsFile.openEmpty {location : Location} {content : Content}
    (h : files.HoldsFile path location content) :
    files.openEmpty path = .ok (location, files.put location (.file (.plain []))) := by
  obtain ⟨husable, used, hused, hway⟩ := lookup_eq_ok_iff.1 h
  have hresolve : files.resolve .writing path = .ok (.present location (.file content)) :=
    resolveNames_eq_ok_iff.2 ⟨husable, used, hused, hway.writing⟩
  rw [FileSystem.openEmpty, hresolve]

theorem HoldsFile.writeContent {location : Location} {content : Content}
    (h : files.HoldsFile path location content) (new : Content) :
    files.writeContent path new = .ok (files.put location (.file new)) := by
  rw [FileSystem.writeContent, h.openEmpty]
  simp [bind, Except.bind]

/-- A path that has been opened for writing leads to the file that was opened. -/
theorem holdsFile_of_openEmpty {location : Location} {after : FileSystem}
    (h : files.openEmpty path = .ok (location, after)) :
    after = files.put location (.file (.plain [])) ∧
      files.resolve .writing path = .ok (files.tree.targetAt location) ∧
      (location ≠ [] ∧ ∀ content, files.tree.Takes location (.file content)) ∧
      after.HoldsFile path location (.plain []) := by
  have hfound : ∃ target, files.resolve .writing path = .ok target ∧ target.location = location ∧
      after = files.put location (.file (.plain [])) ∧
          ∀ location, target ≠ .present location .directory := by
    rw [FileSystem.openEmpty] at h
    split at h
    · cases h
    · next location' node hne hresolve =>
      cases h
      exact ⟨_, hresolve, rfl, rfl, fun _ hnode => hne (Target.present.inj hnode).2⟩
    · next hresolve =>
      cases h
      exact ⟨_, hresolve, rfl, rfl, fun _ hnode => nomatch hnode⟩
    · cases h
  obtain ⟨target, hresolve, rfl, rfl, hdirectory⟩ := hfound
  obtain ⟨husable, used, hused, hway⟩ := resolveNames_eq_ok_iff.1 hresolve
  have htarget := hway.eq_targetAt hdirectory
  have hlink : ∀ location aim, target ≠ .present location (.link aim) :=
    fun _ _ h => nomatch (h ▸ hway).ne_link
  have hnode : target.location ≠ [] ∧ (files.tree.node? target.location = none ∨
      ∃ content, files.tree.node? target.location = some (.file content)) := by
    have hend := hway.endsAt
    cases target with
    | vacant location => exact ⟨hend.1, .inl hend.2⟩
    | present location node =>
        cases node with
        | directory => exact absurd rfl (hdirectory location)
        | file content => exact ⟨hend.1, .inr ⟨content, hend.2⟩⟩
        | link aim => exact absurd rfl (hlink location aim)
  refine ⟨rfl, htarget ▸ hresolve, ⟨hnode.1, fun _ => hnode.2⟩,
    lookup_eq_ok_iff.2 ⟨husable, used, hused, ?_⟩⟩
  have hend := (hway.reading hlink).sustained
    (sustains_put hnode.1 (show files.tree.Takes target.location (.file (.plain [])) from hnode.2))
  have hseen : FileTree.seenIn (files.put target.location (.file (.plain []))).tree target =
      .present target.location (.file (.plain [])) := by
    rw [FileTree.seenIn_eq_targetAt _ hdirectory, FileTree.targetAt, node?_put_self hnode.1]
  rwa [hseen] at hend

/-- A file that has been written is where its path leads. -/
theorem holdsFile_of_writeContent {content : Content} {after : FileSystem}
    (h : files.writeContent path content = .ok after) :
    ∃ location, after = files.put location (.file content) ∧
      files.resolve .writing path = .ok (files.tree.targetAt location) ∧
      (location ≠ [] ∧ ∀ content, files.tree.Takes location (.file content)) ∧
      after.HoldsFile path location content := by
  rw [FileSystem.writeContent] at h
  cases hopen : files.openEmpty path with
  | error fault =>
      rw [hopen] at h
      cases h
  | ok opened =>
      obtain ⟨location, between⟩ := opened
      rw [hopen] at h
      cases h
      obtain ⟨rfl, hresolve, htakes, hholds⟩ := holdsFile_of_openEmpty hopen
      refine ⟨location, put_put _ _ _, hresolve, htakes, ?_⟩
      simpa using hholds.put content hholds

/-- A copy holds what the file held; a file that is copied to itself is left with nothing. -/
theorem put_of_copyContent {source target : Path} {after : FileSystem}
    (h : files.copyContent source target = .ok after) :
    ∃ here content there, files.lookup .target source = .ok (here, .file content) ∧
      files.resolve .writing target = .ok (files.tree.targetAt there) ∧
      (there ≠ [] ∧ ∀ content, files.tree.Takes there (.file content)) ∧
      after = files.put there (.file (if here = there then .plain [] else content)) := by
  rw [FileSystem.copyContent] at h
  rcases hlookup : files.lookup .target source with fault | ⟨here, node⟩
  · rw [hlookup] at h
    cases h
  rw [hlookup] at h
  cases node with
  | directory => cases h
  | link aim => cases h
  | file content =>
      rcases hopen : files.openEmpty target with fault | ⟨there, opened⟩
      · simp [bind, Except.bind, hopen] at h
      obtain ⟨rfl, hresolve, htakes, -⟩ := holdsFile_of_openEmpty hopen
      have hread : (files.put there (.file (.plain []))).tree.node? here =
          some (.file (if here = there then .plain [] else content)) := by
        obtain ⟨-, _, -, hway⟩ := lookup_eq_ok_iff.1 hlookup
        rw [node?_put htakes.1]
        split
        · rfl
        · exact hway.endsAt.2
      simp only [bind, Except.bind, hopen, hread, put_put, Except.ok.injEq] at h
      exact ⟨here, content, there, rfl, hresolve, htakes, h.symm⟩

/-! Writing a file that is there. -/

variable {session : Session}

theorem LeadsTo.perform_ensureWithin {location : Location} (h : session.files.LeadsTo path location)
    (husable : path.bytes ≠ [] → path.Usable) (parents : Nat) :
    (Files.ensureWithin parents path).perform session = (.ok (), session) := by
  cases parents with
  | zero => rfl
  | succ parents =>
      rw [Files.ensureWithin]
      by_cases hempty : path.bytes = []
      · rw [if_pos hempty]
        rfl
      · have hdirectory : session.files.isDirectory path = true :=
          isDirectory_iff.2 ⟨_, h.lookup (husable hempty)⟩
        rw [if_neg hempty, Action.perform_bind_of_ok (Action.perform_ask _ session),
          h.makeDirectory (husable hempty)]
        change (Files.settle path (.error .alreadyExists)).perform session = _
        rw [Files.settle, Action.perform_bind_of_ok (Action.perform_ask _ session), hdirectory]
        rfl

theorem HoldsFile.perform_ensureParent {location : Location} {content : Content}
    (h : session.files.HoldsFile path location content) :
    (Files.ensureParent path).perform session = (.ok (), session) := by
  obtain ⟨parent, reached, hparent, hleads, husable⟩ := h.exists_parent
  rw [Files.ensureParent, hparent]
  exact hleads.perform_ensureWithin husable _

/-- Writing a file that is there changes what it holds and nothing else. -/
theorem HoldsFile.perform_writeText {location : Location} {content : Content}
    (h : session.files.HoldsFile path location content) (text : Text) :
    (Files.writeText path text).perform session =
      (.ok (), { session with
        files := session.files.put location (.file (.plain (Utf8.encode text))) }) := by
  rw [Files.writeText, Action.perform_bind_of_ok h.perform_ensureParent, Action.perform_change,
    h.writeContent]

end FileSystem

end ServerPack
