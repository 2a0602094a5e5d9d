import ServerPack.Proofs.Archive.Outcomes
import ServerPack.Proofs.Selection.Walk
import ServerPack.Proofs.Text.Utf8

/-!
What an archive holds. What a walk meets gives an entry, or archiving stops there
(`entriesFrom_cons_cases`). So a walk that is archived as a whole gives one entry for each of its
files (`map_entriesFrom`), and a walk that is not stops at a file that is misnamed or at something
that cannot be entered or read (`exists_stopsAt_of_entriesFrom`). An archive that has been taken
records its tree (`records_of_pack`), and one that has not been taken has met a misnamed file, or
something else before any of them (`hindered_of_pack`).
-/

namespace ServerPack

/-! Names of entries. -/

theorem Utf8.encode_join (texts : List Text) :
    encode (Text.join '/' texts) = Text.join Path.slash (texts.map encode) := by
  induction texts with
  | nil => rfl
  | cons text texts ih =>
      cases texts with
      | nil => rfl
      | cons next texts =>
          change encode (text ++ '/' :: Text.join '/' (next :: texts)) =
            encode text ++ Path.slash :: Text.join Path.slash ((next :: texts).map encode)
          rw [← ih, encode, List.flatMap_append, List.flatMap_cons]
          rfl

namespace Path

/-- One of the names is not UTF-8. -/
def Misnamed (names : List Name) : Prop := ∃ name ∈ names, Utf8.decode? name = none

/-- Names that are UTF-8 have their texts; otherwise the first that is not is the failure. -/
theorem mapM_nameText_cases (names : List Name) :
    (¬Misnamed names ∧ ∃ texts, names.mapM nameText = .ok texts ∧ texts.map Utf8.encode = names) ∨
      Misnamed names ∧ ∃ shown, names.mapM nameText = .error (.nameNotUtf8 shown) := by
  induction names with
  | nil => exact .inl ⟨nofun, [], rfl, rfl⟩
  | cons name names ih =>
      rw [List.mapM_cons]
      cases hname : Utf8.decode? name with
      | none =>
          refine .inr ⟨⟨name, List.mem_cons_self, hname⟩, Utf8.decodeLossy name, ?_⟩
          rw [nameText, hname]
          rfl
      | some text =>
          have hfirst : nameText name = .ok text := by rw [nameText, hname]
          rw [hfirst]
          rcases ih with ⟨hnamed, texts, htexts, hencode⟩ | ⟨⟨other, hother, hnone⟩, shown, hshown⟩
          · refine .inl ⟨?_, text :: texts, by rw [htexts]; rfl, ?_⟩
            · rintro ⟨other, hother, hnone⟩
              rcases List.mem_cons.1 hother with rfl | hother
              · cases hname.symm.trans hnone
              · exact hnamed ⟨other, hother, hnone⟩
            · rw [List.map_cons, hencode, Utf8.encode_of_decode? hname]
          · exact .inr ⟨⟨other, List.mem_cons_of_mem _ hother, hnone⟩, shown, by rw [hshown]; rfl⟩

theorem archiveNameOf_cases (names : List Name) :
    (¬Misnamed names ∧ ∃ text, archiveNameOf names = .ok text ∧ Utf8.encode text = Text.join slash names) ∨
      Misnamed names ∧ ∃ shown, archiveNameOf names = .error (.nameNotUtf8 shown) := by
  rw [archiveNameOf]
  rcases mapM_nameText_cases names with ⟨hnamed, texts, htexts, hencode⟩ | ⟨hmisnamed, shown, hshown⟩
  · refine .inl ⟨hnamed, Text.join '/' texts, by rw [htexts]; rfl, ?_⟩
    rw [Utf8.encode_join, hencode]
  · exact .inr ⟨hmisnamed, shown, by rw [hshown]; rfl⟩

end Path

namespace Archive

variable {label : Name} {root : Path} {files : FileSystem} {walked : List (Location × Node)}
  {entries : List (Text × Bytes)} {failure : Failure}

/-- What archiving a walk may stop at: a misnamed file, or something that cannot be entered or
read. -/
inductive StopsAt (label : Name) (root : Path) (files : FileSystem) : Location × Node → Failure → Prop
  | misnamed {names node shown} : node.isDirectory = false → Path.Misnamed (label :: names) →
      StopsAt label root files (names, node) (.nameNotUtf8 shown)
  | unentered {names node failure} : node.isDirectory = true →
      Files.enter (names.foldl Path.child root) = .error failure →
      StopsAt label root files (names, node) failure
  | unread {names node fault} : node.isDirectory = false → ¬Path.Misnamed (label :: names) →
      files.readContent (names.foldl Path.child root) = .error fault →
      StopsAt label root files (names, node) (.io fault)

/-- The entries that archiving goes on with: none for a directory, and one for a file, named by the
way to it. -/
inductive Gives (label : Name) (root : Path) (files : FileSystem) : Location × Node →
    List (Text × Bytes) → Prop
  | directory {names node} : node.isDirectory = true → Gives label root files (names, node) []
  | file {names node name content} : node.isDirectory = false → ¬Path.Misnamed (label :: names) →
      Utf8.encode name = Text.join Path.slash (label :: names) →
      files.readContent (names.foldl Path.child root) = .ok content →
      Gives label root files (names, node) [(name, content.bytes)]

theorem Gives.named {found : Location × Node} {given : List (Text × Bytes)}
    (h : Gives label root files found given) (hfile : found.2.isDirectory = false) :
    ¬Path.Misnamed (label :: found.1) := by
  cases h with
  | directory hdirectory => cases hdirectory.symm.trans hfile
  | file _ hnamed => exact hnamed

/-- Archiving stops at what a walk meets first, or it goes on with the rest. -/
theorem entriesFrom_cons_cases (hlabel : label ≠ []) (found : Location × Node)
    (rest : List (Location × Node)) :
    (∃ entries failure, StopsAt label root files found failure ∧
      entriesFrom label root files (found :: rest) = (entries, some failure)) ∨
      ∃ given, Gives label root files found given ∧ entriesFrom label root files (found :: rest) =
        (given ++ (entriesFrom label root files rest).1, (entriesFrom label root files rest).2) := by
  obtain ⟨names, node⟩ := found
  rw [entriesFrom]
  dsimp only
  cases hnode : node.isDirectory with
  | true =>
      rw [if_pos rfl]
      rcases henter : Files.enter (names.foldl Path.child root) with failure | _
      · exact .inl ⟨[], failure, .unentered hnode henter, rfl⟩
      · exact .inr ⟨[], .directory hnode, rfl⟩
  | false =>
      rw [if_neg Bool.false_ne_true, if_neg hlabel]
      rcases Path.archiveNameOf_cases (label :: names) with
        ⟨hnamed, name, hname, hencode⟩ | ⟨hmisnamed, shown, hshown⟩
      · rw [hname]
        rcases hcontent : files.readContent (names.foldl Path.child root) with fault | content
        · exact .inl ⟨_, _, .unread hnode hnamed hcontent, rfl⟩
        · exact .inr ⟨_, .file hnode hnamed hencode hcontent, rfl⟩
      · rw [hshown]
        exact .inl ⟨_, _, .misnamed hnode hmisnamed, rfl⟩

/-- The entry that a file of a walk becomes, its name as bytes. -/
def recorded (label : Name) : Location × Node → Option (Bytes × Bytes)
  | (names, .file content) => some (Text.join Path.slash (label :: names), content.bytes)
  | _ => none

theorem recorded_eq_some {found : Location × Node} {name bytes : Bytes}
    (h : recorded label found = some (name, bytes)) :
    ∃ content, found.2 = .file content ∧ name = Text.join Path.slash (label :: found.1) ∧
    bytes = content.bytes := by
  rw [recorded.eq_def] at h
  split at h
  · cases h
    exact ⟨_, rfl, rfl, rfl⟩
  · cases h

/-- A walk that has been archived as a whole has an entry for each of its files, in its order, and
none is misnamed. -/
theorem map_entriesFrom (hlabel : label ≠ [])
    (hwalked : ∀ found ∈ walked, found.2 = .directory ∨ ∃ content, found.2 = .file content ∧
      ∀ read, files.readContent (found.1.foldl Path.child root) = .ok read → read = content)
    (h : entriesFrom label root files walked = (entries, none)) :
    (entries.map fun entry => (Utf8.encode entry.1, entry.2)) = walked.filterMap (recorded label) ∧
      ∀ found ∈ walked, found.2.isDirectory = false → ¬Path.Misnamed (label :: found.1) := by
  induction walked generalizing entries with
  | nil =>
      cases h
      exact ⟨rfl, List.forall_mem_nil _⟩
  | cons found rest ih =>
      rcases entriesFrom_cons_cases hlabel found rest with ⟨_, _, -, hstops⟩ | ⟨given, hgives, hrest⟩
      · cases hstops.symm.trans h
      obtain ⟨rfl, hnone⟩ := Prod.mk.inj (hrest.symm.trans h)
      obtain ⟨hmap, hnamed⟩ := ih (fun other hother =>
        hwalked other (List.mem_cons_of_mem _ hother)) (Prod.ext rfl hnone)
      refine ⟨?_, List.forall_mem_cons.2 ⟨hgives.named, hnamed⟩⟩
      rw [List.map_append, hmap]
      cases hgives with
      | directory hdirectory =>
          rcases hwalked _ List.mem_cons_self with hnode | ⟨content, hnode, -⟩ <;>
            obtain rfl : _ = _ := hnode
          · rfl
          · cases hdirectory
      | file hfile _ hencode hread =>
          rcases hwalked _ List.mem_cons_self with hnode | ⟨content, hnode, hcontent⟩ <;>
            obtain rfl : _ = _ := hnode
          · cases hfile
          · rw [List.map_singleton, hencode, hcontent _ hread]
            rfl

/-- A walk that could not be archived as a whole has stopped somewhere, and no file before was
misnamed. -/
theorem exists_stopsAt_of_entriesFrom (hlabel : label ≠ [])
    (h : entriesFrom label root files walked = (entries, some failure)) :
    ∃ done found rest, walked = done ++ found :: rest ∧ StopsAt label root files found failure ∧
      ∀ earlier ∈ done, earlier.2.isDirectory = false → ¬Path.Misnamed (label :: earlier.1) := by
  induction walked generalizing entries with
  | nil => cases h
  | cons found rest ih =>
      rcases entriesFrom_cons_cases hlabel found rest with ⟨_, _, hstops, hfirst⟩ | ⟨given, hgives, hrest⟩
      · cases hfirst.symm.trans h
        exact ⟨[], found, rest, rfl, hstops, List.forall_mem_nil _⟩
      · obtain ⟨-, hsome⟩ := Prod.mk.inj (hrest.symm.trans h)
        obtain ⟨done, stopped, rest', rfl, hstops, hdone⟩ := ih (Prod.ext rfl hsome)
        exact ⟨found :: done, stopped, rest', rfl, hstops, List.forall_mem_cons.2 ⟨hgives.named, hdone⟩⟩

/-- What an archive of a tree holds: for each file one entry, named by the tree and the way to the
file in it, and nothing else. -/
structure Records (label : Name) (tree : FileTree) (top : Location)
    (entries : List (Text × Bytes)) : Prop where
  file {names content} : tree.node? (top ++ label :: names) = some (.file content) →
    ∃ name, Utf8.encode name = Text.join Path.slash (label :: names) ∧ (name, content.bytes) ∈ entries
  entry {name bytes} : (name, bytes) ∈ entries →
    ∃ names content, Utf8.encode name = Text.join Path.slash (label :: names) ∧
    tree.node? (top ++ label :: names) = some (.file content) ∧ bytes = content.bytes
  named {names content} : tree.node? (top ++ label :: names) = some (.file content) → ¬Path.Misnamed names
  once : (entries.map Prod.fst).Nodup
  distinct {names names' content content'} : tree.node? (top ++ label :: names) = some (.file content) →
    tree.node? (top ++ label :: names') = some (.file content') →
    Text.join Path.slash (label :: names) = Text.join Path.slash (label :: names') → names = names'

variable {base archive : Path} {top : Location} {tree tree' : FileTree} {session after : Session}

/-- An archive records files only. -/
theorem Records.of_file_iff (h : Records label tree top entries) (hsame : ∀ names content,
    tree'.node? (top ++ label :: names) = some (.file content) ↔
    tree.node? (top ++ label :: names) = some (.file content)) :
    Records label tree' top entries where
  file hfile := h.file ((hsame _ _).1 hfile)
  entry hentry :=
    have ⟨names, content, hname, hfile, hbytes⟩ := h.entry hentry
    ⟨names, content, hname, (hsame _ _).2 hfile, hbytes⟩
  named hfile := h.named ((hsame _ _).1 hfile)
  once := h.once
  distinct hfile hfile' := h.distinct ((hsame _ _).1 hfile) ((hsame _ _).1 hfile')

theorem mem_below_top {names : Location} {node : Node} : (names, node) ∈ tree.below (top ++ [label]) ↔
    names ≠ [] ∧ tree.node? (top ++ label :: names) = some node := by
  rw [FileTree.mem_below_iff, List.append_assoc, List.singleton_append]

/-- Different files have different entry names. -/
theorem eq_of_join_eq (hwf : tree.WellFormed) {names names' : Location} {node node' : Node}
    (hnode : tree.node? (top ++ label :: names) = some node)
    (hnode' : tree.node? (top ++ label :: names') = some node')
    (h : Text.join Path.slash (label :: names) = Text.join Path.slash (label :: names')) :
    names = names' := by
  have hslash : ∀ {names node}, tree.node? (top ++ label :: names) = some node →
      ∀ name ∈ label :: names, Path.slash ∉ name :=
    fun hnode name hname => (hwf.plain_of_mem hnode name hname).no_slash
  exact (List.cons.inj (Text.join_inj (hslash hnode) (hslash hnode') (List.cons_ne_nil _ _)
    (List.cons_ne_nil _ _) h)).2

/-- A file of a tree is read, if it can be, as what it holds. -/
theorem readContent_below (hroot : files.Rooted base top) (hlabel : Path.Plain label)
    {names : Location} {content : Content}
    (hfile : files.tree.node? (top ++ label :: names) = some (.file content)) :
    files.readContent (names.foldl Path.child (base.child label)) = .ok content ∨
      (∃ fault, files.readContent (names.foldl Path.child (base.child label)) = .error fault) ∧
        ¬(names.foldl Path.child (base.child label)).Usable := by
  rw [FileSystem.readContent]
  by_cases husable : (names.foldl Path.child (base.child label)).Usable
  · rw [FileSystem.lookup_below hroot hlabel hfile husable]
    exact .inl rfl
  rcases hlookup : files.lookup .target (names.foldl Path.child (base.child label)) with
    fault | ⟨location, node⟩
  · exact .inr ⟨⟨fault, rfl⟩, husable⟩
  · exact absurd (FileSystem.lookup_eq_ok_iff.1 hlookup).1 husable

/-- What a walk of a tree meets can be read as what it holds, if it is a file and can be read at
all. -/
theorem read_of_mem_below (hroot : files.Rooted base top) (hlabel : Path.Plain label)
    {found : Location × Node} (hfound : found ∈ files.tree.below (top ++ [label])) :
    found.2 = .directory ∨ ∃ content, found.2 = .file content ∧
      ∀ read, files.readContent (found.1.foldl Path.child (base.child label)) = .ok read →
      read = content := by
  obtain ⟨names, node⟩ := found
  obtain ⟨-, hnode⟩ := mem_below_top.1 hfound
  cases node with
  | directory => exact .inl rfl
  | link aim => exact absurd hnode hroot.linkless.no_link
  | file content =>
      refine .inr ⟨content, rfl, fun read hread => ?_⟩
      rcases readContent_below hroot hlabel hnode with hcontent | ⟨⟨fault, hfault⟩, -⟩
      · exact Except.ok.inj (hread.symm.trans hcontent)
      · cases hfault.symm.trans hread

theorem mem_below_of_file (hdirectory : tree.node? (top ++ [label]) = some .directory)
    {names : Location} {content : Content}
    (hfile : tree.node? (top ++ label :: names) = some (.file content)) :
    (names, Node.file content) ∈ tree.below (top ++ [label]) := by
  refine mem_below_top.2 ⟨?_, hfile⟩
  rintro rfl
  cases hdirectory.symm.trans hfile

/-- No two files of a tree are recorded under one name. -/
theorem nodup_recorded (hwf : tree.WellFormed) (top : Location) (label : Name) :
    (((tree.below (top ++ [label])).filterMap (recorded label)).map Prod.fst).Nodup := by
  have hwalked : ((tree.below (top ++ [label])).map Prod.fst).Nodup := FileTree.nodup_below
  rw [List.Nodup, List.pairwise_map] at hwalked
  rw [List.Nodup, List.pairwise_map, List.pairwise_filterMap]
  refine hwalked.imp_of_mem fun {found found'} hfound hfound' hne entry hentry entry' hentry' heq => hne ?_
  obtain ⟨-, -, hname, -⟩ := recorded_eq_some hentry
  obtain ⟨-, -, hname', -⟩ := recorded_eq_some hentry'
  exact eq_of_join_eq hwf (mem_below_top.1 hfound).2 (mem_below_top.1 hfound').2
    (hname.symm.trans (heq.trans hname'))

theorem records_of_entriesFrom (hroot : files.Rooted base top)
    (hdirectory : files.tree.node? (top ++ [label]) = some .directory)
    (h : entriesFrom label (base.child label) files (files.tree.below (top ++ [label])) = (entries, none)) :
    Records label files.tree top entries := by
  have hlabel := hroot.tree.plain hdirectory
  obtain ⟨hmap, hnamed⟩ := map_entriesFrom hlabel.ne_nil
    (fun _ hfound => read_of_mem_below hroot hlabel hfound) h
  constructor
  case file =>
    intro names content hfile
    have hmem : (Text.join Path.slash (label :: names), content.bytes) ∈
        entries.map (fun entry => (Utf8.encode entry.1, entry.2)) :=
      hmap ▸ List.mem_filterMap.2 ⟨_, mem_below_of_file hdirectory hfile, rfl⟩
    obtain ⟨⟨name, bytes⟩, hentry, heq⟩ := List.mem_map.1 hmem
    obtain ⟨hname, rfl⟩ := Prod.mk.inj heq
    exact ⟨name, hname, hentry⟩
  case entry =>
    intro name bytes hentry
    have hmem : (Utf8.encode name, bytes) ∈ (files.tree.below (top ++ [label])).filterMap
        (recorded label) :=
      hmap ▸ List.mem_map_of_mem hentry
    obtain ⟨⟨names, node⟩, hfound, hrecord⟩ := List.mem_filterMap.1 hmem
    obtain ⟨content, rfl, hname, hbytes⟩ := recorded_eq_some hrecord
    exact ⟨names, content, hname, (mem_below_top.1 hfound).2, hbytes⟩
  case named =>
    intro names content hfile ⟨name, hname, hnone⟩
    exact hnamed _ (mem_below_of_file hdirectory hfile) rfl ⟨name, List.mem_cons_of_mem _ hname, hnone⟩
  case once =>
    have hencoded := nodup_recorded hroot.tree top label
    refine List.Nodup.of_map Utf8.encode ?_
    rw [← hmap, List.map_map] at hencoded
    rwa [List.map_map]
  case distinct =>
    intro names names' content content' hfile hfile' heq
    exact eq_of_join_eq hroot.tree hfile hfile' heq

variable {first : Name} {rest : List Name} {made : Session}

/-- Once an archive has been opened, the trees beside it are as they were. -/
theorem opened_within {location : Location} {opened : FileSystem} (hroot : session.files.Rooted base top)
    (hpath : Path.Within base (first :: rest) archive) (hother : first ≠ label)
    (hparent : (Files.ensureParent archive).perform session = (.ok (), made))
    (hopen : made.files.openEmpty archive = .ok (location, opened)) :
    location = top ++ first :: rest ∧ opened.Rooted base top ∧
      ∀ names, opened.tree.node? (top ++ label :: names) = session.files.tree.node?
        (top ++ label :: names) := by
  have hgained := Files.gains_ensureParent_within hroot hpath hparent
  have hmade := hgained.toGrows.rooted hroot
  obtain ⟨rfl, rfl, hgrows⟩ := openEmpty_within hmade hpath hopen
  refine ⟨rfl, (hgrows _).rooted hmade, fun names => ?_⟩
  rw [(hgrows _).outside (Build.ne_of_head_ne hother.symm _ _),
    hgained.outside fun ⟨names', heq⟩ => Build.ne_of_head_ne hother.symm _ _ heq]

/-- A tree that has been archived is recorded in its archive. -/
theorem records_of_pack (hroot : session.files.Rooted base top)
    (hdirectory : session.files.tree.node? (top ++ [label]) = some .directory)
    (hpath : Path.Within base (first :: rest) archive) (hother : first ≠ label) {count : Nat}
    (h : (pack (base.child label) archive).perform session = (.ok count, after)) :
    ∃ entries, count = entries.length ∧ after.files.tree.node? (top ++ first :: rest) = some
      (.file (.archive entries)) ∧
      Records label session.files.tree top entries := by
  have hlabel := hroot.tree.plain hdirectory
  generalize hresult : Except.ok count = result at h
  have hpacked := packed_of_pack h
  generalize hfiles : after.files = files at hpacked
  cases hpacked with
  | unlabelled => cases hresult
  | unplaced => cases hresult
  | unopened => cases hresult
  | unwalked => cases hresult
  | @filled _ _ opened _ _ entries failure? hparent hopen hwalk hentries =>
      obtain ⟨rfl, hopened, hsame⟩ := opened_within hroot hpath hother hparent hopen
      have hdirectory' : opened.tree.node? (top ++ [label]) = some .directory := (hsame []).trans hdirectory
      obtain rfl := Files.walk_within hopened hdirectory' hwalk
      cases failure? with
      | some failure => cases hresult
      | none =>
          rw [Path.lastName?_child hlabel] at hentries
          have hrecords := records_of_entriesFrom hopened hdirectory' hentries
          refine ⟨entries, Except.ok.inj hresult, ?_,
            hrecords.of_file_iff fun names content => by rw [hsame]⟩
          have hne : top ++ first :: rest ≠ [] := by simp
          exact FileSystem.node?_put_self hne _

/-- Why a tree could not be archived, if not for the name of a file: the archive could not be made,
or there is something in the tree with a path that cannot be followed, and the walk met it before
any misnamed file. -/
inductive Hindered (base : Path) (top : Location) (label : Name) (archive : Path) (session : Session) :
    Failure → Prop
  | unplaced {failure : Failure} {made : Session} :
    (Files.ensureParent archive).perform session = (.error failure, made) →
      Hindered base top label archive session failure
  | unopened {made : Session} {fault} : (Files.ensureParent archive).perform session = (.ok (), made) →
      made.files.openEmpty archive = .error fault → Hindered base top label archive session (.io fault)
  | unwalked {made walking : Session} {location opened} {failure : Failure} :
      (Files.ensureParent archive).perform session = (.ok (), made) →
      made.files.openEmpty archive = .ok (location, opened) →
      (Files.walk (base.child label)).perform { made with files := opened } = (.error failure, walking) →
      Hindered base top label archive session failure
  | unusable {names node} {failure : Failure} :
    session.files.tree.node? (top ++ label :: names) = some node →
      ¬(names.foldl Path.child (base.child label)).Usable →
      (∀ names' content, session.files.tree.node? (top ++ label :: names') = some (.file content) →
        Path.Misnamed (label :: names') → names < names') → Hindered base top label archive session failure

/-- A misnamed file that a walk has not met before a place comes after it. -/
theorem lt_of_misnamed {done rest : List (Location × Node)} {names : Location} {node : Node}
    (hdirectory : tree.node? (top ++ [label]) = some .directory)
    (hwalked : tree.below (top ++ [label]) = done ++ (names, node) :: rest)
    (hdone : ∀ earlier ∈ done, earlier.2.isDirectory = false → ¬Path.Misnamed (label :: earlier.1))
    (hnamed : node.isDirectory = false → ¬Path.Misnamed (label :: names)) {names' : Location}
    {content : Content} (hfile : tree.node? (top ++ label :: names') = some (.file content))
    (hmisnamed : Path.Misnamed (label :: names')) :
    names < names' := by
  have hsorted : (tree.below (top ++ [label])).Pairwise fun found found' => found.1 < found'.1 :=
    FileTree.sorted_below
  rw [hwalked, List.pairwise_append, List.pairwise_cons] at hsorted
  have hmem : (names', Node.file content) ∈ done ++ (names, node) :: rest :=
    hwalked ▸ mem_below_of_file hdirectory hfile
  rcases List.mem_append.1 hmem with hmem | hmem
  · exact absurd hmisnamed (hdone _ hmem rfl)
  rcases List.mem_cons.1 hmem with heq | hmem
  · cases heq
    exact absurd hmisnamed (hnamed rfl)
  · exact hsorted.2.1.1 _ hmem

/-- Where archiving stops there is a misnamed file, or a path that cannot be followed. -/
theorem StopsAt.misnamed_or_unusable (hroot : files.Rooted base top) (hlabel : Path.Plain label)
    {names : Location} {node : Node} (hnode : files.tree.node? (top ++ label :: names) = some node)
    (h : StopsAt label (base.child label) files (names, node) failure) :
    (∃ shown, failure = .nameNotUtf8 shown) ∨ ¬(names.foldl Path.child (base.child label)).Usable ∧
      (node.isDirectory = false → ¬Path.Misnamed (label :: names)) := by
  cases h with
  | misnamed => exact .inl ⟨_, rfl⟩
  | unentered hfolder henter =>
      rw [Files.enter] at henter
      split at henter
      · next hlong =>
        rw [Path.isTooLong, decide_eq_true_iff] at hlong
        refine .inr ⟨fun husable => Nat.not_lt.2 husable.short hlong, fun hfile => ?_⟩
        cases hfolder.symm.trans hfile
      · cases henter
  | unread hfile hnamed hread =>
      refine .inr ⟨?_, fun _ => hnamed⟩
      cases node with
      | directory => cases hfile
      | link aim => exact absurd hnode hroot.linkless.no_link
      | file content =>
          rcases readContent_below hroot hlabel hnode with hcontent | ⟨-, hnot⟩
          · cases hread.symm.trans hcontent
          · exact hnot

/-- A tree that could not be archived has a misnamed file, or something came before it. -/
theorem hindered_of_pack (hroot : session.files.Rooted base top)
    (hdirectory : session.files.tree.node? (top ++ [label]) = some .directory)
    (hutf8 : Utf8.decode? label ≠ none) (hpath : Path.Within base (first :: rest) archive)
    (hother : first ≠ label) {failure : Failure}
    (h : (pack (base.child label) archive).perform session = (.error failure, after)) :
    (∃ shown, failure = .nameNotUtf8 shown) ∨ Hindered base top label archive session failure := by
  have hlabel := hroot.tree.plain hdirectory
  generalize hresult : Except.error failure = result at h
  have hpacked := packed_of_pack h
  generalize hfiles : after.files = files at hpacked
  cases hpacked with
  | unlabelled hnot =>
      rw [Path.lastName?_child hlabel] at hnot
      rcases hdecode : Utf8.decode? label with _ | text
      · exact absurd hdecode hutf8
      · rw [Option.getD_some, Path.nameText, hdecode] at hnot
        cases hnot
  | unplaced hparent =>
      cases hresult
      exact .inr (.unplaced hparent)
  | unopened hparent hopen =>
      cases hresult
      exact .inr (.unopened hparent hopen)
  | unwalked hparent hopen hwalk =>
      cases hresult
      exact .inr (.unwalked hparent hopen hwalk)
  | @filled _ _ opened _ _ entries failure? hparent hopen hwalk hentries =>
      obtain ⟨rfl, hopened, hsame⟩ := opened_within hroot hpath hother hparent hopen
      have hdirectory' : opened.tree.node? (top ++ [label]) = some .directory := (hsame []).trans hdirectory
      obtain rfl := Files.walk_within hopened hdirectory' hwalk
      cases failure? with
      | none => cases hresult
      | some failure =>
          cases hresult
          rw [Path.lastName?_child hlabel] at hentries
          obtain ⟨done, ⟨names, node⟩, rest, hwalked, hstops, hdone⟩ :=
            exists_stopsAt_of_entriesFrom hlabel.ne_nil hentries
          obtain ⟨-, hnode⟩ := mem_below_top.1 (hwalked ▸ List.mem_append_right _ List.mem_cons_self)
          refine (hstops.misnamed_or_unusable hopened hlabel hnode).imp_right fun ⟨hunusable, hnamed⟩ => ?_
          refine .unusable (hsame names ▸ hnode) hunusable fun names' content hfile => ?_
          rw [← hsame] at hfile
          exact lt_of_misnamed hdirectory' hwalked hdone hnamed hfile

end Archive

end ServerPack
