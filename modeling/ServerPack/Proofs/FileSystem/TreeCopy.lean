import ServerPack.Proofs.Build.LogIndependence
import ServerPack.Proofs.FileSystem.BaseDirectory

/-!
Copying a tree within a directory without links. `ensure_within` and `copy_within` say what one step
makes. The entries of a directory are copied one after the other (`entriesCopied_forM`), which
copies the directory (`EntriesCopied.copied`), and `copyBelow_within` goes from there over the tree:
what lies below the source lies below the target afterwards, every file can be found by the path
that it was copied to, and nothing else has changed. Source and target must lie apart, neither of
them in the other.
-/

namespace ServerPack

namespace FileTree

variable {tree : FileTree} {location : Location}

theorem mem_below_iff {names : Location} {node : Node} :
    (names, node) ∈ tree.below location ↔ names ≠ [] ∧ tree.node? (location ++ names) = some node := by
  rw [mem_below]
  refine and_congr_right fun hne => ?_
  rw [node?, if_neg (by simp [hne]), Dictionary.get?_eq_some_iff tree.sorted]

theorem mem_children {name : Name} {node : Node} :
    (name, node) ∈ tree.children location ↔ tree.node? (location ++ [name]) = some node := by
  have hbelow : (name, node) ∈ tree.children location ↔ ([name], node) ∈ tree.below location := by
    simp only [children, List.mem_filterMap]
    constructor
    · rintro ⟨⟨names, node'⟩, hmem, h⟩
      split at h
      · next found hnames =>
        obtain ⟨rfl, rfl⟩ := Prod.mk.inj (Option.some.inj h)
        exact (show names = [found] from hnames) ▸ hmem
      · cases h
    · exact fun hmem => ⟨_, hmem, rfl⟩
  rw [hbelow, mem_below_iff]
  exact and_iff_right (List.cons_ne_nil _ _)

/-- What is at one name is not below another one. -/
theorem not_prefix_of_head_ne {first second : Name} (h : first ≠ second) (top names : Location) :
    ¬top ++ [second] <+: top ++ first :: names := by
  rw [List.prefix_append_right_inj, List.cons_prefix_cons]
  exact fun hbegins => h hbegins.1.symm

/-- A name in a directory is listed, or there is nothing of that name. -/
theorem WellFormed.listed_or_none (hwf : tree.WellFormed) (location : Location) (name : Name) :
    (∃ node, (name, node) ∈ tree.children location) ∨
    ∀ names, tree.node? (location ++ name :: names) = none := by
  cases hnode : tree.node? (location ++ [name]) with
  | some node => exact .inl ⟨node, mem_children.2 hnode⟩
  | none =>
      refine .inr fun names => ?_
      rw [List.append_cons]
      exact hwf.none_below hnode

theorem lt_of_append_lt {start names names' : Location} (h : start ++ names < start ++ names') :
    names < names' := by
  induction start with
  | nil => exact h
  | cons name start ih =>
      rw [List.cons_append, List.cons_append, List.cons_lt_cons_iff] at h
      rcases h with hlt | ⟨-, hlt⟩
      · exact absurd hlt Std.lt_irrefl
      · exact ih hlt

/-- A walk meets what is below a location in order. -/
theorem sorted_below : (tree.below location).Pairwise fun found found' => found.1 < found'.1 := by
  rw [below, List.pairwise_filterMap]
  refine tree.sorted.imp fun {entry entry'} hlt found hfound found' hfound' => ?_
  split at hfound
  · next name rest hbegins =>
    split at hfound'
    · next name' rest' hbegins' =>
      cases hfound
      cases hfound'
      rw [isPrefixOf?_eq_some_iff.1 hbegins, isPrefixOf?_eq_some_iff.1 hbegins'] at hlt
      exact lt_of_append_lt hlt
    · cases hfound'
  · cases hfound

/-- A walk meets each location once. -/
theorem nodup_below : ((tree.below location).map Prod.fst).Nodup := by
  rw [List.Nodup, List.pairwise_map]
  refine sorted_below.imp fun {found found'} hlt heq => ?_
  rw [heq] at hlt
  exact Std.lt_irrefl hlt

theorem nodup_children : ((tree.children location).map Prod.fst).Nodup := by
  have hbelow : ((tree.below location).map Prod.fst).Nodup := nodup_below
  rw [List.Nodup, List.pairwise_map] at hbelow
  rw [List.Nodup, List.pairwise_map, children, List.pairwise_filterMap]
  refine hbelow.imp fun {entry entry'} hne found hfound found' hfound' heq => ?_
  split at hfound
  · next name hname =>
    split at hfound'
    · next name' hname' =>
      cases hfound
      cases hfound'
      rw [show name = name' from heq] at hname
      exact hne (hname.trans hname'.symm)
    · cases hfound'
  · cases hfound

end FileTree

namespace Files

open FileSystem (Grows LeadsTo)

variable {session after : Session} {base path source target : Path} {above names : List Name}
  {last name : Name} {top : Location}

theorem bytes_ne_nil_of_within (hpath : Path.Within base (above ++ [last]) path) : path.bytes ≠ [] := by
  intro hempty
  have htrimmed := hpath.trimmed
  rw [Path.names, hempty] at htrimmed
  simp [Text.split, FileTree.trimmed] at htrimmed

/-- Where there is nothing, a directory that is there afterwards has been made. -/
theorem Provided.made_within (hroot : session.files.Rooted base top)
    (hpath : Path.Within base (above ++ [last]) path) (hshort : last.length ≤ Path.maxNameLength)
    (hdirectory : session.files.tree.node? (top ++ above) = some .directory)
    (hnone : session.files.tree.node? (top ++ (above ++ [last])) = none) (h : Provided path session after) :
    Grows (fun location => location = top ++ (above ++ [last])) session.files after.files ∧
      after.files.tree.node? (top ++ (above ++ [last])) = some .directory := by
  rcases h with ⟨files, hmade, rfl⟩ | ⟨hfound, rfl⟩
  · rw [FileSystem.makeDirectory] at hmade
    split at hmade
    · cases hmade
    · next location hresolve =>
      cases hmade
      have htarget := FileSystem.resolveNames_eq_of_within hroot hpath (by simp) rfl hresolve
      obtain rfl : location = top ++ (above ++ [last]) := by
        rw [← FileTree.location_targetAt session.files.tree (top ++ (above ++ [last])), ← htarget,
          Target.location]
      have hplace : session.files.tree.Place (top ++ above) last :=
        ⟨hdirectory, hpath.plain last (List.mem_append_right _ List.mem_cons_self), hshort⟩
      rw [← List.append_assoc] at hnone ⊢
      exact ⟨FileSystem.grows_put hplace hnone rfl, FileSystem.node?_put_self (by simp) _⟩
    · cases hmade
  · obtain ⟨husable, location, hleads⟩ := Provided.exists_leadsTo (.inr ⟨hfound, rfl⟩)
    have hthere := FileSystem.lookup_within hroot hpath (by simp) (hleads.lookup husable)
    cases hnone.symm.trans hthere.2

/-- A directory that is ensured in a directory is made there, if it is not there. -/
theorem ensure_within (hroot : session.files.Rooted base top)
    (hpath : Path.Within base (above ++ [last]) path) (hshort : last.length ≤ Path.maxNameLength)
    (hdirectory : session.files.tree.node? (top ++ above) = some .directory)
    (hfree : session.files.tree.node? (top ++ (above ++ [last])) = none ∨
      session.files.tree.node? (top ++ (above ++ [last])) = some .directory)
    (h : (ensure path).perform session = (.ok (), after)) :
    Grows (fun location => location = top ++ (above ++ [last])) session.files after.files ∧
      after.files.tree.node? (top ++ (above ++ [last])) = some .directory := by
  rcases hfree with hnone | hthere
  · rcases provided_of_ensureWithin h with ⟨hempty, -⟩ | hmade | ⟨between, hparent, hmade⟩
    · exact absurd hempty (bytes_ne_nil_of_within hpath)
    · exact hmade.made_within hroot hpath hshort hdirectory hnone
    · obtain ⟨parent, habove, hwithin, -⟩ := hpath.parent
      rw [habove] at hparent
      have hleads := FileSystem.leadsTo_of_within hroot hwithin hdirectory
      obtain rfl := eq_of_ensureWithin hleads hparent
      exact hmade.made_within hroot hpath hshort hdirectory hnone
  · have hleads := FileSystem.leadsTo_of_within hroot hpath hthere
    obtain rfl := eq_of_ensureWithin hleads h
    exact ⟨.refl _ _, hthere⟩

/-- A file that is copied between directories. -/
theorem copy_within {from' : List Name} (hroot : session.files.Rooted base top)
    (hsource : Path.Within base (from' ++ [name]) source)
    (htarget : Path.Within base (above ++ [name]) target)
    (hdirectory : session.files.tree.node? (top ++ above) = some .directory)
    (happart : from' ++ [name] ≠ above ++ [name])
    (h : (copy source target).perform session = (.ok (), after)) :
    ∃ content, session.files.tree.node? (top ++ (from' ++ [name])) = some (.file content) ∧
      after.files = session.files.put (top ++ (above ++ [name])) (.file content) ∧ target.Usable ∧
      session.files.tree.Takes (top ++ (above ++ [name])) (.file content) := by
  obtain ⟨_, between, hparent, hchange⟩ := Action.bind_eq_ok_iff.1 h
  obtain rfl := ensureParent_within hroot htarget hdirectory hparent
  obtain ⟨files, hcopied, rfl⟩ := Action.change_eq_ok_iff.1 hchange
  obtain ⟨here, content, there, hlookup, hresolve, ⟨-, htakes⟩, rfl⟩ :=
    FileSystem.put_of_copyContent hcopied
  obtain ⟨rfl, hnode⟩ := FileSystem.lookup_within hroot hsource (by simp) hlookup
  obtain rfl := FileSystem.location_eq_of_within hroot htarget (by simp) hresolve
  rw [if_neg fun heq => happart (List.append_cancel_left heq)]
  exact ⟨content, hnode, rfl, (FileSystem.resolveNames_eq_ok_iff.1 hresolve).1, htakes content⟩

/-! What copying cannot touch. -/

/-- Copying a file makes directories for the copy, and then writes it if it comes to that. -/
theorem files_of_copy {first : Name} {rest : List Name} {result : Except Failure Unit}
    (hroot : session.files.Rooted base top) (htarget : Path.Within base (first :: rest) target)
    (h : (copy source target).perform session = (result, after)) :
    ∃ between, FileSystem.Gains (fun location => ∃ names, location = top ++ first :: names)
      session.files between ∧
      (after.files = between ∨ ∃ content, after.files = between.put (top ++ first :: rest) (.file content) ∧
        Grows (fun location => location = top ++ first :: rest) between after.files) := by
  rcases Action.bind_cases h with ⟨failure, hparent, -⟩ | ⟨_, between, hparent, hchange⟩
  · exact ⟨_, gains_ensureParent_within hroot htarget hparent, .inl rfl⟩
  have hgained := gains_ensureParent_within hroot htarget hparent
  refine ⟨between.files, hgained, ?_⟩
  rw [Action.perform_change] at hchange
  split at hchange <;> cases hchange
  · next files hcopied =>
    obtain ⟨_, _, there, -, hresolve, ⟨-, htakes⟩, rfl⟩ := FileSystem.put_of_copyContent hcopied
    obtain rfl := FileSystem.location_eq_of_within (hgained.rooted hroot) htarget (by simp) hresolve
    exact .inr ⟨_, rfl, (hgained.rooted hroot).grows_put htarget (by simp) hresolve (htakes _)⟩
  · exact .inl rfl

/-- What may have been done of copying one tree of a base to another one: only the latter has
changed, and what is new there is a directory, or a file where the former has one. -/
structure Mirrors (top : Location) (here there : Name) (files files' : FileSystem) : Prop where
  grows : Grows (fun location => ∃ names, location = top ++ there :: names) files files'
  node (names : List Name) : files'.tree.node? (top ++ there :: names) = files.tree.node?
    (top ++ there :: names) ∨
    files'.tree.node? (top ++ there :: names) = some .directory ∨
    ∃ content, files.tree.node? (top ++ here :: names) = some (.file content)

section Mirrors

variable {here there : Name} {files files' files'' : FileSystem}

theorem Mirrors.refl (top : Location) (here there : Name) (files : FileSystem) :
    Mirrors top here there files files :=
  ⟨.refl _ _, fun _ => .inl rfl⟩

theorem Mirrors.kept (h : Mirrors top here there files files') (hne : here ≠ there) (names : List Name) :
    files'.tree.node? (top ++ here :: names) = files.tree.node? (top ++ here :: names) :=
  h.grows.outside fun ⟨_, heq⟩ => hne (List.cons.inj (List.append_cancel_left heq)).1

theorem Mirrors.trans (h : Mirrors top here there files files') (h' : Mirrors top here there files' files'')
    (hne : here ≠ there) : Mirrors top here there files files'' where
  grows := h.grows.trans h'.grows
  node names := by
    rcases h'.node names with hsame | hdirectory | hfile
    · rw [hsame]
      exact h.node names
    · exact .inr (.inl hdirectory)
    · rw [h.kept hne] at hfile
      exact .inr (.inr hfile)

theorem mirrors_of_gains (h : FileSystem.Gains
      (fun location => ∃ names, location = top ++ there :: names) files files') :
    Mirrors top here there files files' :=
  ⟨h.toGrows, fun _ => (h.eq_or_made _).imp_right fun ⟨_, _, hmade⟩ => .inl hmade⟩

theorem mirrors_copy {names : List Name} {content : Content} {result : Except Failure Unit}
    (hroot : session.files.Rooted base top) (hne : here ≠ there)
    (htarget : Path.Within base (there :: names) target)
    (hfile : session.files.tree.node? (top ++ here :: names) = some (.file content))
    (h : (copy source target).perform session = (result, after)) :
    Mirrors top here there session.files after.files := by
  obtain ⟨between, hgained, hend⟩ := files_of_copy hroot htarget h
  have hmirrors : Mirrors top here there session.files between := mirrors_of_gains hgained
  rcases hend with hsame | ⟨content', hput, hgrows⟩
  · exact hsame ▸ hmirrors
  · refine hmirrors.trans ⟨hgrows.mono fun location heq => ⟨names, heq⟩, fun other => ?_⟩ hne
    by_cases heq : other = names
    · rw [heq, hmirrors.kept hne]
      exact .inr (.inr ⟨content, hfile⟩)
    · exact .inl (hgrows.outside fun hother => heq (List.cons.inj (List.append_cancel_left hother)).2)

/-- Entries are mirrored one after the other, as far as they are copied. -/
theorem mirrors_forM (names : List Name) {body : Name × Node → Action Unit} {entries : List (Name × Node)}
    {result : Except Failure Unit} (hne : here ≠ there)
    (hbody : ∀ entry ∈ entries, ∀ (session after : Session) (result : Except Failure Unit),
      session.files.Rooted base top →
      session.files.tree.node? (top ++ here :: (names ++ [entry.1])) = some entry.2 →
      (body entry).perform session = (result, after) → Mirrors top here there session.files after.files)
    (hroot : session.files.Rooted base top)
    (hentries : ∀ entry ∈ entries, session.files.tree.node? (top ++ here :: (names ++ [entry.1])) =
      some entry.2)
    (h : (entries.forM body).perform session = (result, after)) :
    Mirrors top here there session.files after.files := by
  induction entries generalizing session with
  | nil =>
      cases h
      exact .refl _ _ _ _
  | cons entry entries ih =>
      have hentry := hentries entry List.mem_cons_self
      rcases Action.bind_cases h with ⟨failure, hfirst, -⟩ | ⟨_, next, hfirst, hrest⟩
      · exact hbody entry List.mem_cons_self session after _ hroot hentry hfirst
      · have hnext := hbody entry List.mem_cons_self session next _ hroot hentry hfirst
        refine hnext.trans (ih (fun other hother => hbody other (List.mem_cons_of_mem _ hother))
          (hnext.grows.rooted hroot) (fun other hother => ?_) hrest) hne
        rw [hnext.kept hne]
        exact hentries other (List.mem_cons_of_mem _ hother)

/-- Whatever comes of copying what a directory holds, a tree is mirrored as far as it has been
copied. -/
theorem mirrors_copyBelow {names : List Name} {result : Except Failure Unit} {depth : Nat}
    (hroot : session.files.Rooted base top) (hne : here ≠ there)
    (htarget : Path.Within base (there :: names) target)
    (h : (copyBelow depth (top ++ here :: names) source target).perform session = (result, after)) :
    Mirrors top here there session.files after.files := by
  induction depth generalizing session after names source target result with
  | zero =>
      cases h
      exact .refl _ _ _ _
  | succ depth ih =>
      rw [copyBelow, Action.perform_bind_of_ok (Action.perform_ask _ session)] at h
      have hensured : ∀ {result made}, (ensure target).perform session = (result, made) →
          Mirrors top here there session.files made.files :=
        fun hensure => mirrors_of_gains (gains_ensure_within hroot htarget hensure)
      rcases Action.bind_cases h with ⟨failure, hensure, -⟩ | ⟨_, made, hensure, hrest⟩
      · exact hensured hensure
      have hmade := hensured hensure
      rcases Action.bind_cases hrest with ⟨failure, henter, -⟩ | ⟨_, entered, henter, hentries⟩
      · rw [Action.Reads.files_eq (.ofExcept _) henter]
        exact hmade
      obtain ⟨-, rfl⟩ := Action.ofExcept_eq_ok_iff.1 henter
      refine hmade.trans (mirrors_forM names hne ?_ (hmade.grows.rooted hroot) ?_ hentries) hne
      · rintro ⟨name, node⟩ - session after result hroot hnode hbody
        have hplain := hroot.tree.plain (List.append_assoc top (here :: names) [name] ▸ hnode)
        have hchild := htarget.child hplain
        cases node with
        | directory =>
            change (copyBelow depth (top ++ here :: names ++ [name]) _ _).perform session = _ at hbody
            rw [List.append_assoc] at hbody
            exact ih hroot hchild hbody
        | file content => exact mirrors_copy hroot hne hchild hnode hbody
        | link aim => exact absurd hnode hroot.linkless.no_link
      · intro entry hentry
        have hnode := FileTree.mem_children.1 hentry
        rw [List.append_assoc] at hnode
        exact (hmade.kept hne _).trans hnode

end Mirrors

/-! A whole tree. -/

/-- Neither of two places lies in the other. -/
structure Apart (here there : List Name) : Prop where
  left : ¬here <+: there
  right : ¬there <+: here

variable {here there : List Name}

theorem Apart.symm (h : Apart here there) : Apart there here := ⟨h.right, h.left⟩

/-- What lies at one of two places that are apart does not lie at the other. -/
theorem Apart.not_prefix (h : Apart here there) (top : Location) (names names' : List Name) :
    ¬top ++ (there ++ names) <+: top ++ (here ++ names') := by
  intro hbegins
  have hshort : there <+: here ++ names' :=
    (List.prefix_append there names).trans ((List.prefix_append_right_inj top).1 hbegins)
  rcases List.prefix_or_prefix_of_prefix hshort (List.prefix_append here names') with h' | h'
  · exact h.right h'
  · exact h.left h'

theorem Apart.append (h : Apart here there) (names names' : List Name) :
    Apart (here ++ names) (there ++ names') :=
  ⟨h.symm.not_prefix [] names names', h.not_prefix [] names' names⟩

/-- What was at one place is at another one as well, where its files can be found by their paths. -/
structure Copied (top : Location) (here there : List Name) (target : Path)
    (files files' : FileSystem) : Prop where
  grows : Grows (fun location => top ++ there <+: location) files files'
  same (names : List Name) : files'.tree.node? (top ++ (there ++ names)) = files.tree.node?
    (top ++ (here ++ names))
  usable (names : List Name) (content : Content) :
    files.tree.node? (top ++ (here ++ names)) = some (.file content) →
    (Build.pathBelow target names).Usable

/-- A file has nothing below it. -/
theorem copied_put {files : FileSystem} {content : Content} {target : Path} (hwf : files.tree.WellFormed)
    (hsource : files.tree.node? (top ++ (here ++ [name])) = some (.file content))
    (htakes : files.tree.Takes (top ++ (there ++ [name])) (.file content))
    (hdirectory : files.tree.node? (top ++ there) = some .directory) (husable : target.Usable) :
    Copied top (here ++ [name]) (there ++ [name]) target files
      (files.put (top ++ (there ++ [name])) (.file content)) := by
  have hnotSource : files.tree.node? (top ++ (here ++ [name])) ≠ some .directory := by
    rw [hsource]
    nofun
  refine ⟨?_, fun names => ?_, fun names other hnode => ?_⟩
  · have hplace : files.tree.Place (top ++ there) name := by
      rw [← List.append_assoc] at hsource
      exact ⟨hdirectory, hwf.plain hsource, hwf.short hsource⟩
    rw [← List.append_assoc] at htakes ⊢
    exact FileSystem.grows_put hplace htakes (List.prefix_refl _)
  · rw [FileSystem.node?_put (by simp)]
    by_cases hnames : names = []
    · simp [hnames, ← hsource]
    · rw [if_neg (by simpa using hnames), ← List.append_assoc top, ← List.append_assoc top (here ++ [name]),
        hwf.none_of_not_directory hnames htakes.not_directory, hwf.none_of_not_directory hnames hnotSource]
  · by_cases hnames : names = []
    · subst hnames
      exact husable
    · rw [← List.append_assoc top, hwf.none_of_not_directory hnames hnotSource] at hnode
      cases hnode

/-- An entry of a directory that is to be copied, where nothing of its name is at the target. -/
structure Pending (files : FileSystem) (top : Location) (here there : List Name)
    (entry : Name × Node) : Prop where
  source : files.tree.node? (top ++ (here ++ [entry.1])) = some entry.2
  free (names : List Name) : files.tree.node? (top ++ (there ++ entry.1 :: names)) = none

/-- What was at each of some entries of a directory is at the entry of its name in another one as
well. -/
structure EntriesCopied (top : Location) (here there : List Name) (target : Path)
    (entries : List (Name × Node)) (files files' : FileSystem) : Prop where
  grows : Grows (fun location => ∃ entry ∈ entries, top ++ (there ++ [entry.1]) <+: location) files files'
  same : ∀ entry ∈ entries, ∀ names, files'.tree.node? (top ++ (there ++ entry.1 :: names)) =
    files.tree.node? (top ++ (here ++ entry.1 :: names))
  usable : ∀ entry ∈ entries, ∀ names content,
    files.tree.node? (top ++ (here ++ entry.1 :: names)) = some (.file content) →
      (Build.pathBelow (target.child entry.1) names).Usable

/-- An entry of another name is not touched when one is copied. -/
theorem not_prefix_of_name_ne {first other : Name} (hne : other ≠ first) (top : Location)
    (there names : List Name) :
    ¬top ++ (there ++ [first]) <+: top ++ (there ++ other :: names) := by
  rw [← List.append_assoc, ← List.append_assoc]
  exact FileTree.not_prefix_of_head_ne hne (top ++ there) names

/-- One entry is copied, then the other ones. -/
theorem EntriesCopied.cons {files between files' : FileSystem} {first : Name × Node}
    {rest : List (Name × Node)} (happart : Apart here there) (hnodup : ∀ entry ∈ rest, entry.1 ≠ first.1)
    (hfirst : Copied top (here ++ [first.1]) (there ++ [first.1]) (target.child first.1) files between)
    (hrest : EntriesCopied top here there target rest between files') :
    EntriesCopied top here there target (first :: rest) files files' := by
  have hsource : ∀ names, between.tree.node? (top ++ (here ++ names)) = files.tree.node?
      (top ++ (here ++ names)) :=
    fun names => hfirst.grows.outside (happart.not_prefix top _ _)
  refine ⟨(hfirst.grows.mono fun location hbegins => ⟨first, List.mem_cons_self, hbegins⟩).trans
    (hrest.grows.mono fun location ⟨entry, hentry, hbegins⟩ =>
      ⟨entry, List.mem_cons_of_mem _ hentry, hbegins⟩), ?_, ?_⟩
  · intro entry hentry names
    rcases List.mem_cons.1 hentry with rfl | hentry
    · have hlater : files'.tree.node? (top ++ (there ++ entry.1 :: names)) =
          between.tree.node? (top ++ (there ++ entry.1 :: names)) :=
        hrest.grows.outside fun ⟨other, hmem, hbegins⟩ =>
          not_prefix_of_name_ne (hnodup other hmem).symm _ _ _ hbegins
      have hsame := hfirst.same names
      rw [List.append_assoc, List.append_assoc] at hsame
      exact hlater.trans hsame
    · rw [hrest.same entry hentry, hsource]
  · intro entry hentry names content hnode
    rcases List.mem_cons.1 hentry with rfl | hentry
    · exact hfirst.usable names content (by rwa [List.append_assoc])
    · exact hrest.usable entry hentry names content ((hsource _).trans hnode)

/-- Entries are copied one after the other, each without a change to the others. -/
theorem entriesCopied_forM {body : Name × Node → Action Unit} {entries : List (Name × Node)}
    (hnodup : (entries.map Prod.fst).Nodup) (happart : Apart here there)
    (hbody : ∀ entry ∈ entries, ∀ session after, session.files.Rooted base top →
      session.files.tree.node? (top ++ there) = some .directory →
      Pending session.files top here there entry →
      (body entry).perform session = (.ok (), after) →
      Copied top (here ++ [entry.1]) (there ++ [entry.1]) (target.child entry.1) session.files after.files)
    (hroot : session.files.Rooted base top)
    (hdirectory : session.files.tree.node? (top ++ there) = some .directory)
    (hpending : ∀ entry ∈ entries, Pending session.files top here there entry)
    (h : (entries.forM body).perform session = (.ok (), after)) :
    EntriesCopied top here there target entries session.files after.files := by
  induction entries generalizing session with
  | nil =>
      cases h
      exact ⟨.refl _ _, nofun, nofun⟩
  | cons first rest ih =>
      obtain ⟨_, between, hfirst, hrest⟩ := Action.bind_eq_ok_iff.1 h
      rw [List.map_cons, List.nodup_cons] at hnodup
      have hother : ∀ entry ∈ rest, entry.1 ≠ first.1 :=
        fun entry hentry heq => hnodup.1 (heq ▸ List.mem_map_of_mem hentry)
      have hcopied := hbody first List.mem_cons_self session between hroot hdirectory
        (hpending first List.mem_cons_self) hfirst
      have hpending' : ∀ entry ∈ rest, Pending between.files top here there entry := by
        intro entry hentry
        have hold := hpending entry (List.mem_cons_of_mem _ hentry)
        refine ⟨(hcopied.grows.outside (happart.not_prefix top _ _)).trans hold.source, fun names => ?_⟩
        exact (hcopied.grows.outside (not_prefix_of_name_ne (hother entry hentry) _ _ _)).trans
          (hold.free names)
      exact .cons happart hother hcopied (ih hnodup.2
        (fun entry hentry => hbody entry (List.mem_cons_of_mem _ hentry))
        (hcopied.grows.rooted hroot) (hcopied.grows.sustains.directory hdirectory) hpending' hrest)

/-- What is done at one of two places that are apart does not touch the other one. -/
theorem Apart.kept {files files' : FileSystem} (h : Apart here there)
    (hgrows : Grows (fun location => top ++ there <+: location) files files') (names : List Name) :
    files'.tree.node? (top ++ (here ++ names)) = files.tree.node? (top ++ (here ++ names)) := by
  have hnot := h.not_prefix top [] names
  rw [List.append_nil] at hnot
  exact hgrows.outside hnot

/-- A directory is copied when one has been made for it and all its entries have been copied
there. -/
theorem EntriesCopied.copied {files made files' : FileSystem} (hwf : files.tree.WellFormed)
    (happart : Apart here there) (hsource : files.tree.node? (top ++ here) = some .directory)
    (hmade : Grows (fun location => top ++ there <+: location) files made)
    (hdirectory : made.tree.node? (top ++ there) = some .directory)
    (hempty : ∀ name names, made.tree.node? (top ++ (there ++ name :: names)) = none)
    (h : EntriesCopied top here there target (files.tree.children (top ++ here)) made files') :
    Copied top here there target files files' := by
  have hlisted : ∀ name, (∃ node, (name, node) ∈ files.tree.children (top ++ here)) ∨
      ∀ names, files.tree.node? (top ++ (here ++ name :: names)) = none := fun name =>
    (hwf.listed_or_none (top ++ here) name).imp_right fun hnone names =>
      List.append_assoc top here (name :: names) ▸ hnone names
  refine ⟨hmade.trans (h.grows.mono ?_), fun names => ?_, fun names content hnode => ?_⟩
  · rintro location ⟨entry, -, hbegins⟩
    exact (List.prefix_append_right_inj top).2 (List.prefix_append _ _) |>.trans hbegins
  · cases names with
    | nil => rw [List.append_nil, List.append_nil, h.grows.sustains.directory hdirectory, hsource]
    | cons name names =>
        rcases hlisted name with ⟨node, hmem⟩ | hmissing
        · rw [h.same _ hmem, happart.kept hmade]
        · have hunmade : files'.tree.node? (top ++ (there ++ name :: names)) =
              made.tree.node? (top ++ (there ++ name :: names)) := by
            refine h.grows.outside ?_
            rintro ⟨⟨other, node⟩, hmem, hbegins⟩
            have hother := FileTree.mem_children.1 hmem
            rw [List.append_assoc] at hother
            have hne : name ≠ other := fun heq => by
              rw [← heq, hmissing] at hother
              cases hother
            exact not_prefix_of_name_ne hne _ _ _ hbegins
          rw [hunmade, hempty, hmissing]
  · cases names with
    | nil =>
        rw [List.append_nil, hsource] at hnode
        cases hnode
    | cons name names =>
        rcases hlisted name with ⟨node, hmem⟩ | hmissing
        · exact h.usable _ hmem names content ((happart.kept hmade _).trans hnode)
        · rw [hmissing names] at hnode
          cases hnode

/-- Where a directory is copied to: a directory, or a place for one, with nothing below it. -/
structure Receives (files : FileSystem) (base : Path) (top : Location) (above : List Name) (last : Name)
    (target : Path) : Prop where
  path : Path.Within base (above ++ [last]) target
  short : last.length ≤ Path.maxNameLength
  directory : files.tree.node? (top ++ above) = some .directory
  free : files.tree.node? (top ++ (above ++ [last])) = none ∨
    files.tree.node? (top ++ (above ++ [last])) = some .directory
  empty (names : List Name) : names ≠ [] → files.tree.node? (top ++ (above ++ [last] ++ names)) = none

/-- One entry is copied, a directory with what lies below it. -/
theorem copied_entry {depth : Nat} {entry : Name × Node} (hroot : session.files.Rooted base top)
    (hsource : Path.Within base here source) (htarget : Path.Within base there target)
    (hdirectory : session.files.tree.node? (top ++ there) = some .directory) (happart : Apart here there)
    (hpending : Pending session.files top here there entry)
    (hbelow : Path.Within base (here ++ [entry.1]) (source.child entry.1) →
      session.files.tree.node? (top ++ (here ++ [entry.1])) = some .directory →
      Receives session.files base top there entry.1 (target.child entry.1) →
      (copyBelow depth (top ++ (here ++ [entry.1])) (source.child entry.1)
        (target.child entry.1)).perform session = (.ok (), after) →
      Copied top (here ++ [entry.1]) (there ++ [entry.1]) (target.child entry.1) session.files after.files)
    (h : (if entry.2.isDirectory then
        copyBelow depth (top ++ here ++ [entry.1]) (source.child entry.1) (target.child entry.1)
      else copy (source.child entry.1) (target.child entry.1)).perform session = (.ok (), after)) :
    Copied top (here ++ [entry.1]) (there ++ [entry.1])
      (target.child entry.1) session.files after.files := by
  obtain ⟨name, node⟩ := entry
  have hnode := hpending.source
  rw [← List.append_assoc] at hnode
  have hplain := hroot.tree.plain hnode
  have hchild := htarget.child hplain
  cases node with
  | directory =>
      change (copyBelow depth (top ++ here ++ [name]) (source.child name)
        (target.child name)).perform session = _ at h
      rw [List.append_assoc] at h
      refine hbelow (hsource.child hplain) hpending.source ?_ h
      refine ⟨hchild, hroot.tree.short hnode, hdirectory, .inl (hpending.free []), fun names _ => ?_⟩
      rw [List.append_assoc]
      exact hpending.free names
  | file content =>
      change (copy (source.child name) (target.child name)).perform session = _ at h
      have happartNames := happart.append [name] [name]
      obtain ⟨content', hcontent, hafter, husable, htakes⟩ :=
        copy_within hroot (hsource.child hplain) hchild
        hdirectory (fun heq => happartNames.left (heq ▸ List.prefix_refl _)) h
      rw [hafter]
      exact copied_put hroot.tree hcontent htakes hdirectory husable
  | link aim => exact absurd hpending.source hroot.linkless.no_link

/-- What lies below a directory is copied as it is. -/
theorem copyBelow_within {depth : Nat} (hroot : session.files.Rooted base top)
    (hsource : Path.Within base here source)
    (hthere : session.files.tree.node? (top ++ here) = some .directory)
    (htarget : Receives session.files base top above last target)
    (happart : Apart here (above ++ [last]))
    (h : (copyBelow depth (top ++ here) source target).perform session = (.ok (), after)) :
    Copied top here (above ++ [last]) target session.files after.files := by
  induction depth generalizing session after here above last source target with
  | zero => cases h
  | succ depth ih =>
      rw [copyBelow, Action.perform_bind_of_ok (Action.perform_ask _ session)] at h
      obtain ⟨_, made, hensure, h⟩ := Action.bind_eq_ok_iff.1 h
      obtain ⟨_, entered, henter, hentries⟩ := Action.bind_eq_ok_iff.1 h
      obtain ⟨-, hentered⟩ := Action.ofExcept_eq_ok_iff.1 henter
      rw [hentered] at hentries
      obtain ⟨hplaced, hdirectory⟩ := ensure_within hroot htarget.path htarget.short
        htarget.directory htarget.free hensure
      have hmade : Grows (fun location => top ++ (above ++ [last]) <+: location) session.files made.files :=
        hplaced.mono fun location heq => heq ▸ List.prefix_refl _
      have hempty : ∀ name names, made.files.tree.node?
          (top ++ (above ++ [last] ++ name :: names)) = none :=
        fun name names => (hplaced.outside (by simp)).trans (htarget.empty (name :: names) (by simp))
      have hpending : ∀ entry ∈ session.files.tree.children (top ++ here),
          Pending made.files top here (above ++ [last]) entry := by
        rintro ⟨name, node⟩ hentry
        have hnode := FileTree.mem_children.1 hentry
        rw [List.append_assoc] at hnode
        exact ⟨(happart.kept hmade [name]).trans hnode, hempty name⟩
      refine EntriesCopied.copied hroot.tree happart hthere hmade hdirectory hempty
        (entriesCopied_forM FileTree.nodup_children happart ?_
          (hplaced.rooted hroot) hdirectory hpending hentries)
      intro entry _ session after hroot hdirectory hpending h
      exact copied_entry hroot hsource htarget.path hdirectory happart hpending
        (fun hsource hnode hreceives => ih hroot hsource hnode hreceives (happart.append _ _)) h

end Files

end ServerPack
