import ServerPack.Proofs.FileSystem.Agreement
import ServerPack.Proofs.FileSystem.Creation

/-!
Copying a directory into one that may hold something already. Where both of them are there, a file
or a directory in the source is copied just if what has its name at the target is of the same kind,
or nothing, and both can be reached by their paths (`Facing.succeeds_copy`, `copies`). The entries
are copied one after the other, and each lies over what was there (`Merging.step`), so that the
whole directory does in the end (`Facing.succeeds_entries`).
-/

namespace ServerPack

/-- What lies at a location and below it, by the names that lead there. -/
def FileTree.subtree (tree : FileTree) (location names : Location) : Option Node :=
    tree.node? (location ++ names)

namespace Files

open FileSystem (Grows Gains Rooted)

/-- There is a directory at one place and a file at the other. -/
inductive Clash : Option Node → Option Node → Prop
  | directory (content : Content) : Clash (some .directory) (some (.file content))
  | file (content : Content) : Clash (some (.file content)) (some .directory)

/-- What is found at one place can be copied over what is at another one, where these paths lead to
them. -/
structure FitsAt (found existing : Option Node) (source target : Path) : Prop where
  no_clash : ¬Clash found existing
  usable : found ≠ none → source.Usable ∧ target.Usable

/-- So it is for all that lies below the two. -/
def Fits (found existing : Location → Option Node) (source target : Path) : Prop :=
  ∀ names, FitsAt (found names) (existing names) (Build.pathBelow source names)
    (Build.pathBelow target names)

theorem fitsAt_none (existing : Option Node) (source target : Path) : FitsAt none existing source target :=
  ⟨nofun, fun h => absurd rfl h⟩

section Fits

variable {tree : FileTree} {here : Location} {existing : Location → Option Node} {source target : Path}

/-- What lies below a directory can be copied if each of its entries can be with what lies below
that. -/
theorem forall_fits_iff (hwf : tree.WellFormed) :
    (∀ entry ∈ tree.children here, Fits (tree.subtree (here ++ [entry.1]))
      (fun names => existing (entry.1 :: names)) (source.child entry.1) (target.child entry.1)) ↔
      ∀ names, names ≠ [] → FitsAt (tree.node? (here ++ names)) (existing names)
        (Build.pathBelow source names) (Build.pathBelow target names) := by
  constructor
  · intro h names hnames
    obtain ⟨name, rest, rfl⟩ := List.exists_cons_of_ne_nil hnames
    cases hnode : tree.node? (here ++ [name]) with
    | none =>
        rw [List.append_cons, hwf.none_below hnode]
        exact fitsAt_none _ _ _
    | some node =>
        have hfits := h (name, node) (FileTree.mem_children.2 hnode) rest
        rwa [FileTree.subtree, ← List.append_cons] at hfits
  · intro h entry hentry names
    have hfits := h (entry.1 :: names) (List.cons_ne_nil _ _)
    rwa [List.append_cons] at hfits

/-- A directory can be copied if it can be itself and each of its entries can. -/
theorem fits_iff (hwf : tree.WellFormed) : Fits (tree.subtree here) existing source target ↔
    FitsAt (tree.node? here) (existing []) source target ∧ ∀ entry ∈ tree.children here,
      Fits (tree.subtree (here ++ [entry.1])) (fun names => existing (entry.1 :: names))
        (source.child entry.1) (target.child entry.1) := by
  rw [forall_fits_iff hwf]
  constructor
  · intro h
    have hfirst := h []
    rw [FileTree.subtree, List.append_nil] at hfirst
    exact ⟨hfirst, fun names _ => h names⟩
  · rintro ⟨hfirst, hrest⟩ names
    by_cases hnames : names = []
    · rw [hnames, FileTree.subtree, List.append_nil]
      exact hfirst
    · exact hrest names hnames

end Fits

/-- Two directories without links, neither of them in the other, to which paths lead. -/
structure Facing (files : FileSystem) (source target : Path) (here there : Location) : Prop where
  source_rooted : files.Rooted source here
  target_rooted : files.Rooted target there
  linkFree : files.tree.LinkFree
  apart : Apart here there
  usable : source.Usable

/-- What was at one place lies over what was at another one, and nothing else has changed. -/
structure Overlaid (here there : Location) (files files' : FileSystem) : Prop where
  grows : Grows (fun location => there <+: location) files files'
  node (names : Location) : files'.tree.subtree there names =
    (files.tree.subtree here names).or (files.tree.subtree there names)

theorem Apart.outside {here there : Location} (h : Apart here there) (names : Location) :
    ¬there <+: here ++ names := by
  have hnot := h.not_prefix [] [] names
  rwa [List.append_nil] at hnot

/-- What is done at the target does not touch what is in the source. -/
theorem Apart.subtree_eq {here there : Location} (h : Apart here there) {files files' : FileSystem}
    (hgrows : Grows (fun location => there <+: location) files files') (names : Location) :
    files'.tree.subtree (here ++ names) = files.tree.subtree (here ++ names) := by
  refine funext fun more => hgrows.outside ?_
  rw [List.append_assoc]
  exact h.outside _

section Facing

variable {session : Session} {files files' : FileSystem} {source target : Path}
  {here there : Location} {name : Name}

theorem Facing.grows (h : Facing files source target here there) {scope : Location → Prop}
    (hgrows : Grows scope files files') :
    Facing files' source target here there :=
  ⟨hgrows.rooted h.source_rooted, hgrows.rooted h.target_rooted, hgrows.linkFree h.linkFree,
    h.apart, h.usable⟩

theorem Facing.child (h : Facing files source target here there) (hname : Path.Plain name)
    (hsource : files.tree.node? (here ++ [name]) = some .directory)
    (htarget : files.tree.node? (there ++ [name]) = some .directory)
    (husable : (source.child name).Usable) :
    Facing files (source.child name) (target.child name) (here ++ [name]) (there ++ [name]) :=
  ⟨h.source_rooted.child hname hsource, h.target_rooted.child hname htarget, h.linkFree,
    h.apart.append _ _, husable⟩

/-! One entry. -/

/-- A file is copied to where no directory is. -/
theorem Facing.copyContent_eq (h : Facing files source target here there) {content : Content}
    (hfile : files.tree.node? (here ++ [name]) = some (.file content))
    (husable : (source.child name).Usable) (husable' : (target.child name).Usable)
    (hnot : files.tree.node? (there ++ [name]) ≠ some .directory) :
    files.copyContent (source.child name) (target.child name) = .ok
      (files.put (there ++ [name]) (.file content)) := by
  have hname := h.source_rooted.tree.plain hfile
  have hne : here ++ [name] ≠ there ++ [name] :=
    fun heq => h.apart.outside [name] (heq ▸ List.prefix_append _ _)
  have hlookup := h.source_rooted.leads.lookup_child h.source_rooted.tree hfile nofun husable
  have hopen := h.target_rooted.leads.openEmpty_child h.linkFree hname
    (h.source_rooted.tree.short hfile) husable' (h.linkFree.takes_file hnot content)
  have hstill : (files.put (there ++ [name]) (.file (.plain []))).tree.node? (here ++ [name]) = some
      (.file content) := by
    rw [FileSystem.node?_put (by simp), if_neg hne, hfile]
  simp only [FileSystem.copyContent, bind, Except.bind, hlookup, hopen, hstill, FileSystem.put_put]

/-- When a file can be copied, and what copying it does. -/
theorem Facing.copyContent_eq_ok_iff (h : Facing files source target here there) {content : Content}
    (hfile : files.tree.node? (here ++ [name]) = some (.file content)) :
    files.copyContent (source.child name) (target.child name) = .ok files' ↔
      ((source.child name).Usable ∧ (target.child name).Usable ∧
        files.tree.node? (there ++ [name]) ≠ some .directory) ∧
        files' = files.put (there ++ [name]) (.file content) := by
  have hname := h.source_rooted.tree.plain hfile
  constructor
  · intro hcopy
    obtain ⟨_, _, _, hlookup, hresolve, ⟨-, htakes⟩, -⟩ := FileSystem.put_of_copyContent hcopy
    obtain ⟨rfl, -⟩ := FileSystem.lookup_within h.source_rooted (Path.within_child source hname)
      (by simp) hlookup
    obtain rfl := FileSystem.location_eq_of_within h.target_rooted (Path.within_child target hname)
      (by simp) hresolve
    have husable := (FileSystem.lookup_eq_ok_iff.1 hlookup).1
    have husable' := (FileSystem.resolveNames_eq_ok_iff.1 hresolve).1
    have hnot := (htakes content).not_directory
    rw [h.copyContent_eq hfile husable husable' hnot] at hcopy
    exact ⟨⟨husable, husable', hnot⟩, (Except.ok.inj hcopy).symm⟩
  · rintro ⟨⟨husable, husable', hnot⟩, rfl⟩
    exact h.copyContent_eq hfile husable husable' hnot

/-- A file in a directory is copied into a directory. -/
theorem Facing.succeeds_copy (h : Facing session.files source target here there) {content : Content}
    (hfile : session.files.tree.node? (here ++ [name]) = some (.file content)) :
    (copy (source.child name) (target.child name)).Succeeds session
      ((source.child name).Usable ∧ (target.child name).Usable ∧
        session.files.tree.node? (there ++ [name]) ≠ some .directory)
      fun after => after.files = session.files.put (there ++ [name]) (.file content) := by
  have hname := h.source_rooted.tree.plain hfile
  have hdirectory : session.files.tree.node? (there ++ []) = some .directory := by
    rw [List.append_nil]
    exact h.target_rooted.linkless.directory
  have hwithin : Path.Within target ([] ++ [name]) (target.child name) := Path.within_child target hname
  constructor
  · intro hconditions
    obtain ⟨parent, hparent, hparentWithin, husable⟩ := hwithin.parent
    have hensured : (ensureParent (target.child name)).perform session = (.ok (), session) := by
      rw [ensureParent, hparent]
      exact (FileSystem.leadsTo_of_within h.target_rooted hparentWithin hdirectory).perform_ensureWithin
        (husable hconditions.2.1) _
    refine ⟨{ session with files := session.files.put (there ++ [name]) (.file content) }, ?_⟩
    rw [copy, Action.perform_bind_of_ok hensured, Action.perform_change,
      (h.copyContent_eq_ok_iff hfile).2 ⟨hconditions, rfl⟩]
  · intro after hcopy
    obtain ⟨_, between, hparent, hchange⟩ := Action.bind_eq_ok_iff.1 hcopy
    obtain rfl := ensureParent_within h.target_rooted hwithin hdirectory hparent
    obtain ⟨files, hcopied, rfl⟩ := Action.change_eq_ok_iff.1 hchange
    exact (h.copyContent_eq_ok_iff hfile).1 hcopied

/-- A directory is made in a directory, or it is there. -/
theorem Facing.succeeds_ensure (h : Facing session.files source target here there) (hname : Path.Plain name)
    (hshort : name.length ≤ Path.maxNameLength) :
    (ensure (target.child name)).Succeeds session
      ((target.child name).Usable ∧ ∀ content, session.files.tree.node? (there ++ [name]) ≠ some
        (.file content)) fun after =>
      Grows (fun location => location = there ++ [name]) session.files after.files ∧
        after.files.tree.node? (there ++ [name]) = some .directory := by
  have hopen : (∀ content, session.files.tree.node? (there ++ [name]) ≠ some (.file content)) →
      Open session.files (there ++ [name]) := by
    intro hnot
    cases hnode : session.files.tree.node? (there ++ [name]) with
    | none => exact .inl hnode
    | some node =>
        cases node with
        | directory => exact .inr hnode
        | file content => exact absurd hnode (hnot content)
        | link aim => exact absurd hnode (h.linkFree _ _)
  have hwithin : Path.Within target ([] ++ [name]) (target.child name) := Path.within_child target hname
  constructor
  · rintro ⟨husable, hnot⟩
    exact exists_perform_ensureWithin h.target_rooted h.linkFree husable
      (Path.ending_child target hname) hshort (hopen hnot) _
  · intro after hensure
    have hgains := gains_ensure_within h.target_rooted hwithin hensure
    obtain ⟨husable, location, hleads⟩ :=
      exists_leadsTo_of_ensureWithin hensure (Path.child_bytes_ne_nil hname)
    have hdirectory := FileSystem.directory_of_leadsTo (hgains.rooted h.target_rooted) hwithin
      (by simp) hleads
    have hnot : ∀ content, session.files.tree.node? (there ++ [name]) ≠ some (.file content) := by
      intro content hfile
      cases (hgains.node?_eq hfile).symm.trans hdirectory
    refine ⟨⟨husable, hnot⟩, ?_⟩
    have hthere : session.files.tree.node? (there ++ []) = some .directory := by
      rw [List.append_nil]
      exact h.target_rooted.linkless.directory
    exact ensure_within h.target_rooted hwithin hshort hthere (hopen hnot) hensure

/-- A file that has been copied lies over what was in its place. -/
theorem Facing.overlaid_put (h : Facing files source target here there) {content : Content}
    (hfile : files.tree.node? (here ++ [name]) = some (.file content))
    (hnot : files.tree.node? (there ++ [name]) ≠ some .directory) :
    Overlaid (here ++ [name]) (there ++ [name]) files (files.put (there ++ [name]) (.file content)) := by
  have hwf := h.source_rooted.tree
  have hplace : files.tree.Place there name :=
    ⟨h.target_rooted.linkless.directory, hwf.plain hfile, hwf.short hfile⟩
  refine ⟨FileSystem.grows_put hplace (h.linkFree.takes_file hnot content) List.prefix_rfl, fun names => ?_⟩
  rw [FileTree.subtree, FileTree.subtree, FileTree.subtree, FileSystem.node?_put (by simp)]
  by_cases hnames : names = []
  · rw [hnames, List.append_nil, List.append_nil, if_pos rfl, hfile]
    rfl
  · have hnotSource : files.tree.node? (here ++ [name]) ≠ some .directory := by
      rw [hfile]
      nofun
    rw [if_neg (by simpa using hnames), hwf.none_of_not_directory hnames hnot,
      hwf.none_of_not_directory hnames hnotSource]
    rfl

/-- A file fits if it and its copy can be reached and there is no directory in the way. -/
theorem fits_file_iff (hwf : files.tree.WellFormed) {content : Content} {existing : Location → Option Node}
    (hfile : files.tree.node? here = some (.file content)) :
    Fits (files.tree.subtree here) existing source target ↔
      source.Usable ∧ target.Usable ∧ existing [] ≠ some .directory := by
  have hnone : files.tree.children here = [] := by
    refine List.eq_nil_iff_forall_not_mem.2 fun entry hentry => ?_
    cases hfile.symm.trans (hwf.parent (FileTree.mem_children.1 hentry))
  rw [fits_iff hwf, hnone, hfile]
  constructor
  · rintro ⟨⟨hclash, husable⟩, -⟩
    obtain ⟨hsource, htarget⟩ := husable nofun
    exact ⟨hsource, htarget, fun hdirectory => hclash (hdirectory ▸ .file content)⟩
  · rintro ⟨hsource, htarget, hnot⟩
    refine ⟨⟨fun hclash => ?_, fun _ => ⟨hsource, htarget⟩⟩, nofun⟩
    generalize existing [] = found at hclash hnot
    cases hclash
    exact hnot rfl

/-! The entries of a directory. -/

/-- Of two directories that face each other some entries are still to be copied, and the others have
been. -/
structure Merging (here there : Location) (origin : FileSystem) (pending : List (Name × Node))
    (files : FileSystem) : Prop where
  grows : Grows (fun location => there <+: location) origin files
  nodup : (pending.map Prod.fst).Nodup
  found : ∀ entry ∈ pending, origin.tree.node? (here ++ [entry.1]) = some entry.2
  untouched : ∀ entry ∈ pending, files.tree.subtree (there ++ [entry.1]) = origin.tree.subtree
    (there ++ [entry.1])
  merged (name : Name) : (∀ entry ∈ pending, entry.1 ≠ name) →
    ∀ names, files.tree.subtree (there ++ [name]) names =
    (origin.tree.subtree (here ++ [name]) names).or (origin.tree.subtree (there ++ [name]) names)

theorem merging_start (hwf : files.tree.WellFormed) :
    Merging here there files (files.tree.children here) files where
  grows := .refl _ _
  nodup := FileTree.nodup_children
  found _ hentry := FileTree.mem_children.1 hentry
  untouched _ _ := rfl
  merged name hnone names := by
    have hmissing : files.tree.node? (here ++ [name]) = none := by
      cases hnode : files.tree.node? (here ++ [name]) with
      | none => rfl
      | some node => exact absurd rfl (hnone _ (FileTree.mem_children.2 hnode))
    rw [FileTree.subtree, FileTree.subtree, hwf.none_below hmissing]
    rfl

/-- When all entries have been copied the directory lies over the other one. -/
theorem Merging.overlaid (h : Merging here there files [] files')
    (hhere : files.tree.node? here = some .directory)
    (hthere : files.tree.node? there = some .directory) : Overlaid here there files files' where
  grows := h.grows
  node names := by
    cases names with
    | nil =>
        rw [FileTree.subtree, FileTree.subtree, List.append_nil, List.append_nil, hhere,
          h.grows.sustains.directory hthere]
        rfl
    | cons name rest =>
        have hmerged := h.merged name nofun rest
        rwa [FileTree.subtree, FileTree.subtree, FileTree.subtree, ← List.append_cons,
          ← List.append_cons] at hmerged

/-- One more entry has been copied. -/
theorem Merging.step {origin : FileSystem} {entry : Name × Node} {rest : List (Name × Node)}
    (h : Merging here there origin (entry :: rest) files) (happart : Apart here there)
    (hcopied : Overlaid (here ++ [entry.1]) (there ++ [entry.1]) files files') :
    Merging here there origin rest files' := by
  have hother : ∀ {name : Name}, name ≠ entry.1 →
      files'.tree.subtree (there ++ [name]) = files.tree.subtree (there ++ [name]) := by
    intro name hne
    refine funext fun names => hcopied.grows.outside ?_
    rw [List.append_assoc, List.prefix_append_right_inj, List.singleton_append, List.cons_prefix_cons]
    exact fun hbegins => hne hbegins.1.symm
  have hsource : files.tree.subtree (here ++ [entry.1]) = origin.tree.subtree (here ++ [entry.1]) :=
    happart.subtree_eq h.grows _
  obtain ⟨hnew, hnodup⟩ := List.nodup_cons.1 h.nodup
  refine ⟨h.grows.trans (hcopied.grows.mono fun location hbegins =>
    (List.prefix_append _ _).trans hbegins), hnodup,
    fun other hmem => h.found other (List.mem_cons_of_mem _ hmem), fun other hmem => ?_,
      fun name hdone names => ?_⟩
  · have hne : other.1 ≠ entry.1 := fun heq => hnew (heq ▸ List.mem_map_of_mem hmem)
    rw [hother hne, h.untouched other (List.mem_cons_of_mem _ hmem)]
  · by_cases hname : name = entry.1
    · rw [hname, hcopied.node, hsource, h.untouched entry List.mem_cons_self]
    · rw [hother hname]
      exact h.merged name (List.forall_mem_cons.2 ⟨Ne.symm hname, hdone⟩) names

/-- Copies entries of a directory. -/
def copyEntries (depth : Nat) (location : Location) (source target : Path)
    (entries : List (Name × Node)) : Action Unit :=
  entries.forM fun entry =>
    if entry.2.isDirectory then copyBelow depth (location ++ [entry.1]) (source.child entry.1)
      (target.child entry.1)
    else copy (source.child entry.1) (target.child entry.1)

theorem perform_copyBelow (depth : Nat) (location : Location) (source target : Path) (session : Session) :
    (copyBelow (depth + 1) location source target).perform session =
      (ensure target >>= fun _ => Action.ofExcept (enter source) >>= fun _ =>
        copyEntries depth location source target (session.files.tree.children location)).perform
          session := by
  rw [copyBelow, Action.perform_bind_of_ok (Action.perform_ask _ session)]
  rfl

/-- A directory that is copied into another one with all that is below it, if its source and its
copy can be reached. -/
def Copies (depth : Nat) : Prop :=
  ∀ {session : Session} {source target : Path} {here there : Location} {name : Name},
  Facing session.files source target here there →
  session.files.tree.node? (here ++ [name]) = some .directory →
  Path.maxLength < depth + (source.child name).bytes.length →
  (copyBelow depth (here ++ [name]) (source.child name) (target.child name)).Succeeds session
    (Fits (session.files.tree.subtree (here ++ [name]))
      (session.files.tree.subtree (there ++ [name])) (source.child name) (target.child name))
    fun after => Overlaid (here ++ [name]) (there ++ [name]) session.files after.files

/-- What copying a directory does when it has been made. -/
theorem Facing.succeeds_entries {depth : Nat} (hcopies : Copies depth)
    (h : Facing session.files source target here there)
    (hdepth : Path.maxLength ≤ depth + source.bytes.length) :
    (copyEntries depth here source target (session.files.tree.children here)).Succeeds session
      (∀ entry ∈ session.files.tree.children here, Fits (session.files.tree.subtree (here ++ [entry.1]))
        (session.files.tree.subtree (there ++ [entry.1])) (source.child entry.1) (target.child entry.1))
      fun after => Overlaid here there session.files after.files := by
  have hbody : ∀ entry rest session', Merging here there session.files (entry :: rest) session'.files →
      (if entry.2.isDirectory then copyBelow depth (here ++ [entry.1]) (source.child entry.1)
        (target.child entry.1)
        else copy (source.child entry.1) (target.child entry.1)).Succeeds session'
        (Fits (session.files.tree.subtree (here ++ [entry.1]))
          (session.files.tree.subtree (there ++ [entry.1]))
          (source.child entry.1) (target.child entry.1))
        fun after => Merging here there session.files rest after.files := by
    intro entry rest session' hmerging
    have hfacing := h.grows hmerging.grows
    have hsource : session'.files.tree.subtree (here ++ [entry.1]) = session.files.tree.subtree
        (here ++ [entry.1]) :=
      h.apart.subtree_eq hmerging.grows _
    have hnode : session'.files.tree.node? (here ++ [entry.1]) = some entry.2 :=
      (hmerging.grows.outside (h.apart.outside _)).trans (hmerging.found entry List.mem_cons_self)
    have hname := hfacing.source_rooted.tree.plain hnode
    rw [← hsource, ← hmerging.untouched entry List.mem_cons_self]
    obtain ⟨name, node⟩ := entry
    cases node with
    | link aim => exact absurd hnode (hfacing.linkFree _ _)
    | directory =>
        have hlonger := source.length_le_child hname.no_slash
        have hpositive := List.length_pos_iff.2 hname.ne_nil
        exact (hcopies hfacing hnode (by omega)).mono Iff.rfl fun after _ hcopied =>
          hmerging.step h.apart hcopied
    | file content =>
        refine (hfacing.succeeds_copy hnode).mono ?_ fun after hconditions hafter => ?_
        · rw [fits_file_iff hfacing.source_rooted.tree hnode, FileTree.subtree, List.append_nil]
        · refine hmerging.step h.apart ?_
          rw [hafter]
          exact hfacing.overlaid_put hnode hconditions.2.2
  refine (@Action.Succeeds.forM _ session _ _
    (fun pending session' => Merging here there session.files pending session'.files)
    hbody _ (merging_start h.source_rooted.tree)).mono Iff.rfl fun after _ hmerging => ?_
  exact hmerging.overlaid h.source_rooted.linkless.directory h.target_rooted.linkless.directory

/-! Directories in directories. -/

theorem enter_eq_ok_iff {path : Path} : enter path = .ok () ↔ path.bytes.length ≤ Path.maxLength := by
  rw [enter, Path.isTooLong]
  simp

/-- A name can be followed behind one path if it can behind another one and does not make it too
long. -/
theorem usable_child (hname : Path.slash ∉ name) (hsource : source.Usable)
    (htarget : (target.child name).Usable)
    (hshort : (source.child name).bytes.length ≤ Path.maxLength) : (source.child name).Usable := by
  have hno : 0 ∉ name := by
    intro hnul
    refine htarget.no_nul ?_
    rw [Path.child_bytes hname]
    split <;> simp [hnul]
  refine ⟨?_, ?_, hshort⟩
  · rw [Path.child_bytes hname]
    split <;> simp [hsource.ne_nil]
  · rw [Path.child_bytes hname]
    split <;> simp [hsource.no_nul, hno, show (0 : UInt8) ≠ Path.slash by decide]

/-- A directory fits if no file is in its place, its copy can be reached and it can be entered
itself. -/
theorem fitsAt_directory_iff {existing : Option Node} (hname : Path.slash ∉ name)
    (hsource : source.Usable) :
    FitsAt (some .directory) existing (source.child name) (target.child name) ↔
      ((target.child name).Usable ∧ ∀ content, existing ≠ some (.file content)) ∧
      enter (source.child name) = .ok () := by
  rw [enter_eq_ok_iff]
  constructor
  · rintro ⟨hclash, husable⟩
    obtain ⟨hsource', htarget⟩ := husable nofun
    exact ⟨⟨htarget, fun content heq => hclash (heq ▸ .directory content)⟩, hsource'.short⟩
  · rintro ⟨⟨htarget, hnot⟩, hshort⟩
    refine ⟨fun hclash => ?_, fun _ => ⟨usable_child hname hsource htarget hshort, htarget⟩⟩
    cases hclash with
    | directory content => exact hnot content rfl

theorem subtree_concat (tree : FileTree) (location : Location) (name : Name) :
    tree.subtree (location ++ [name]) = fun names => tree.subtree location (name :: names) := by
  funext names
  rw [FileTree.subtree, FileTree.subtree, ← List.append_cons]

/-- Whether the directory at the target is there or has just been made makes no difference. -/
theorem Overlaid.of_made {made : FileSystem} (h : Overlaid here there made files')
    (happart : Apart here there) (hmade : Grows (fun location => location = there) files made)
    (hhere : files.tree.node? here = some .directory) :
    Overlaid here there files files' where
  grows := (hmade.mono fun location heq => heq ▸ List.prefix_rfl).trans h.grows
  node names := by
    have hsource : made.tree.subtree here names = files.tree.subtree here names :=
      hmade.outside fun heq => happart.outside names (heq ▸ List.prefix_rfl)
    rw [h.node, hsource]
    by_cases hnames : names = []
    · rw [hnames, FileTree.subtree, List.append_nil, hhere]
      rfl
    · have htarget : made.tree.subtree there names = files.tree.subtree there names :=
        hmade.outside (by simpa using hnames)
      rw [htarget]

/-- The entries of a directory are copied into one that has just been made for it, or was there. -/
theorem Facing.succeeds_entries_of_made {depth : Nat} (hcopies : Copies depth)
    (h : Facing session.files source target here there)
    (hdirectory : session.files.tree.node? (here ++ [name]) = some .directory)
    (husable : (source.child name).Usable)
    (hdepth : Path.maxLength ≤ depth + (source.child name).bytes.length) {made : Session}
    (hmade : Grows (fun location => location = there ++ [name]) session.files made.files)
    (hthere : made.files.tree.node? (there ++ [name]) = some .directory) :
    (copyEntries depth (here ++ [name]) (source.child name) (target.child name)
      (session.files.tree.children (here ++ [name]))).Succeeds made
      (∀ entry ∈ session.files.tree.children (here ++ [name]),
        Fits (session.files.tree.subtree (here ++ [name] ++ [entry.1]))
        (session.files.tree.subtree (there ++ [name] ++ [entry.1])) ((source.child name).child entry.1)
        ((target.child name).child entry.1))
      fun after => Overlaid (here ++ [name]) (there ++ [name]) session.files after.files := by
  have happart : Apart (here ++ [name]) (there ++ [name]) := h.apart.append _ _
  have hsource : ∀ names, made.files.tree.node? (here ++ [name] ++ names) =
      session.files.tree.node? (here ++ [name] ++ names) := fun names =>
    hmade.outside fun heq => happart.outside names (heq ▸ List.prefix_rfl)
  have hfacing := (h.grows hmade).child (h.source_rooted.tree.plain hdirectory)
    (hmade.sustains.directory hdirectory) hthere husable
  have hcopied := hfacing.succeeds_entries hcopies hdepth
  rw [FileTree.children_congr hsource] at hcopied
  refine hcopied.mono (forall₂_congr fun entry _ => ?_) fun after _ hoverlaid =>
    hoverlaid.of_made happart hmade hdirectory
  have hfound : made.files.tree.subtree (here ++ [name] ++ [entry.1]) =
      session.files.tree.subtree (here ++ [name] ++ [entry.1]) := by
    funext names
    rw [FileTree.subtree, FileTree.subtree, List.append_assoc, hsource]
  have hexisting : made.files.tree.subtree (there ++ [name] ++ [entry.1]) =
      session.files.tree.subtree (there ++ [name] ++ [entry.1]) :=
    funext fun names => hmade.outside (by simp)
  rw [hfound, hexisting]

/-- Copying goes down as far as a path can be followed, and no farther. -/
theorem copies (depth : Nat) : Copies depth := by
  induction depth with
  | zero =>
      intro session source target here there name h hdirectory hdepth
      refine ⟨fun hfits => ?_, fun hperform => nomatch hperform⟩
      have hshort := ((hfits []).usable (by
        rw [FileTree.subtree, List.append_nil, hdirectory]
        nofun)).1.short
      rw [Nat.zero_add] at hdepth
      exact absurd hshort (Nat.not_le_of_lt hdepth)
  | succ depth ih =>
      intro session source target here there name h hdirectory hdepth
      have hwf := h.source_rooted.tree
      have hname := hwf.plain hdirectory
      have hcopy : (ensure (target.child name) >>= fun _ =>
          Action.ofExcept (enter (source.child name)) >>= fun _ =>
          copyEntries depth (here ++ [name]) (source.child name) (target.child name)
            (session.files.tree.children (here ++ [name]))).Succeeds session _ _ :=
        (h.succeeds_ensure hname (hwf.short hdirectory)).bind fun made hconditions hmade =>
          (Action.Succeeds.ofExcept (enter (source.child name)) made).bind fun entered henter heq =>
            heq ▸ h.succeeds_entries_of_made ih hdirectory
              (usable_child hname.no_slash h.usable hconditions.1 (enter_eq_ok_iff.1 henter))
                (by omega) hmade.1 hmade.2
      refine (hcopy.congr (perform_copyBelow ..)).mono ?_ fun _ _ => id
      rw [fits_iff hwf, hdirectory, fitsAt_directory_iff hname.no_slash h.usable, FileTree.subtree,
        List.append_nil, and_assoc]
      simp only [subtree_concat session.files.tree (there ++ [name])]

end Facing

end Files

end ServerPack
