import ServerPack.Proofs.Build.LogIndependence
import ServerPack.Proofs.FileSystem.BaseDirectory

/-!
Archives are taken beside the trees. What comes of archiving a folder is one of five things
(`Packed`), and in each of them directories are made on the way to the archive and then at most the
archive is written. The name of an archive has no slash in it, so all of that lies below the
directory for backups (`grows_archiveTrees`), where every other file stays as it is
(`kept_of_archiveTrees`).
-/

namespace ServerPack

/-! The names in a data directory. -/

theorem Path.slash_not_mem_encode {text : Text} (h : ∀ c ∈ text, c.val.toNat < 128 ∧ c ≠ '/') :
    slash ∉ Utf8.encode text := by
  intro hmem
  obtain ⟨c, hc, hbyte⟩ := List.mem_flatMap.1 hmem
  obtain ⟨hascii, hne⟩ := h c hc
  rw [String.utf8EncodeChar, if_pos (Nat.le_of_lt_succ hascii), List.mem_singleton] at hbyte
  refine hne (Char.ext (UInt32.toNat_inj.1 ?_))
  have := congrArg UInt8.toNat hbyte
  rw [UInt8.toNat_ofNat_of_lt' (Nat.lt_trans hascii (by decide))] at this
  exact this.symm

namespace Archive

theorem toNat_bounds_of_isDigit {c : Char} (h : c.isDigit) : 48 ≤ c.val.toNat ∧ c.val.toNat ≤ 57 := by
  rw [Char.isDigit, Bool.and_eq_true, decide_eq_true_iff, decide_eq_true_iff] at h
  exact h

theorem digit_of_mem_padded {width n : Nat} {c : Char} (h : c ∈ padded width n) : c.isDigit := by
  rcases List.mem_append.1 h with h | h
  · rw [(List.mem_replicate.1 h).2]
    rfl
  · exact Nat.isDigit_of_mem_toDigits (by decide) (by decide) h

theorem nameAt_chars {now : Instant} {c : Char} (h : c ∈ nameAt now) :
    c.isDigit ∨ c ∈ ['+', '-', ':', '.', 'z', 'i', 'p'] := by
  have hyear : ∀ {year : Int}, c ∈ yearText year → c.isDigit ∨ c = '-' ∨ c = '+' := by
    intro year h
    rw [yearText] at h
    split at h
    · exact .inl (digit_of_mem_padded h)
    · split at h <;> rcases List.mem_cons.1 h with h | h
      · exact .inr (.inl h)
      · exact .inl (digit_of_mem_padded h)
      · exact .inr (.inr h)
      · exact .inl (digit_of_mem_padded h)
  have hdigit : ∀ {width n : Nat}, c ∈ padded width n → c.isDigit := digit_of_mem_padded
  simp only [nameAt, List.mem_append, List.mem_cons] at h
  grind

theorem plain_nameAt (now : Instant) : Path.Plain (Utf8.encode (nameAt now)) := by
  have hlast : (Utf8.encode (nameAt now)).getLast? = some 0x70 := by
    rw [nameAt, Utf8.encode, List.flatMap_append, List.getLast?_append]
    rfl
  refine ⟨fun h => ?_, Path.slash_not_mem_encode fun c hc => ?_, fun h => ?_, fun h => ?_⟩
  · rw [h] at hlast
    cases hlast
  · rcases nameAt_chars hc with hdigit | hmem
    · obtain ⟨hlow, hhigh⟩ := toNat_bounds_of_isDigit hdigit
      refine ⟨Nat.lt_of_le_of_lt hhigh (by decide), ?_⟩
      rintro rfl
      exact absurd hlow (by decide)
    · have hall : ['+', '-', ':', '.', 'z', 'i', 'p'].all (fun c => c.val.toNat < 128 ∧ c ≠ '/') =
        true := by decide
      exact of_decide_eq_true (List.all_eq_true.1 hall c hmem)
  · rw [h] at hlast
    revert hlast
    decide
  · rw [h] at hlast
    revert hlast
    decide

/-! Taking an archive. -/

/-- The entries that the files of a walk give, up to the first thing that cannot be archived, and
why it cannot. -/
def entriesFrom (folder : Name) (root : Path) (files : FileSystem) :
    List (Location × Node) → List (Text × Bytes) × Option Failure
  | [] => ([], none)
  | (names, node) :: rest =>
    let path := names.foldl Path.child root
    if node.isDirectory then
      match Files.enter path with
      | .error failure => ([], some failure)
      | .ok _ => entriesFrom folder root files rest
    else
      match Path.archiveNameOf (if folder = [] then names else folder :: names) with
      | .error failure => ([], some failure)
      | .ok name =>
        match files.readContent path with
        | .error fault => ([(name, [])], some (.io fault))
        | .ok content =>
          let (entries, failure?) := entriesFrom folder root files rest
          ((name, content.bytes) :: entries, failure?)

theorem outcome_gather (folder : Name) (root archive : Path) (walked : List (Location × Node))
    (session : Session) :
    (gather folder root archive walked).outcome session =
      (.ok (entriesFrom folder root session.files walked), session.silent) := by
  induction walked generalizing session with
  | nil => rfl
  | cons found rest ih =>
      obtain ⟨names, node⟩ := found
      rw [gather, entriesFrom]
      dsimp only
      generalize (if folder = [] then names else folder :: names) = parts
      cases node.isDirectory with
      | true =>
          rw [if_pos rfl, if_pos rfl]
          rcases Files.enter (names.foldl Path.child root) with failure | _
          · rfl
          · exact ih session
      | false =>
          rw [if_neg (by decide), if_neg (by decide)]
          rcases Path.archiveNameOf parts with failure | name
          · rfl
          · dsimp only
            rw [Action.outcome_bind_of_perform (Action.perform_log _ _ session),
              Action.outcome_bind_of_perform (Action.perform_ask _ _)]
            dsimp only
            rcases session.files.readContent (names.foldl Path.child root) with fault | content
            · rfl
            · dsimp only
              rw [Action.outcome_bind fun _ => .pure _, ih]
              rfl

/-- What comes of archiving a folder, and the files that it leaves. -/
inductive Packed (folder archive : Path) (session : Session) : Except Failure Nat → FileSystem → Prop
  | unlabelled {failure} : Path.nameText (folder.lastName?.getD []) = .error failure →
      Packed folder archive session (.error failure) session.files
  | unplaced {failure made} : (Files.ensureParent archive).perform session = (.error failure, made) →
      Packed folder archive session (.error failure) made.files
  | unopened {made fault} : (Files.ensureParent archive).perform session = (.ok (), made) →
      made.files.openEmpty archive = .error fault →
      Packed folder archive session (.error (.io fault)) made.files
  | unwalked {made location opened failure walking} :
    (Files.ensureParent archive).perform session = (.ok (), made) →
      made.files.openEmpty archive = .ok (location, opened) →
      (Files.walk folder).perform { made with files := opened } = (.error failure, walking) →
      Packed folder archive session (.error failure) (opened.put location (.file (.archive [])))
  | filled {made location opened walked walking entries failure?} :
      (Files.ensureParent archive).perform session = (.ok (), made) →
      made.files.openEmpty archive = .ok (location, opened) →
      (Files.walk folder).perform { made with files := opened } = (.ok walked, walking) →
      entriesFrom (folder.lastName?.getD []) folder opened walked = (entries, failure?) →
      Packed folder archive session (match failure? with
        | some failure => .error failure
        | none => .ok entries.length) (opened.put location (.file (.archive entries)))

open FileSystem (Gains Grows LeadsTo)

variable {session after : Session} {base folder archive : Path} {top : Location} {first : Name}
  {rest : List Name} {result : Except Failure Nat}

/-- A folder that is archived into an archive that has been opened. -/
theorem packed_of_opened {made : Session} {location : Location} {opened : FileSystem}
    (hparent : (Files.ensureParent archive).perform session = (.ok (), made))
    (hopen : made.files.openEmpty archive = .ok (location, opened))
    (h : (do
      let walked ← tryCatch (Files.walk folder) fun failure => do
        modify fun session => { session with files := session.files.put location (.file (.archive [])) }
        throw failure
      let (entries, failure) ← gather (folder.lastName?.getD []) folder archive walked
      modify fun session => { session with files := session.files.put location (.file (.archive entries)) }
      match failure with
      | some failure => throw failure
      | none => do
        Action.log .info ("Archived " ++ toString entries.length ++ " file(s) from " ++
          folder.display ++ " into " ++ archive.display)
        return entries.length : Action Nat).perform { made with files := opened } = (result, after)) :
    Packed folder archive session result after.files := by
  rcases hwalk : (Files.walk folder).perform { made with files := opened } with ⟨failure | walked, walking⟩
  · have hwalking : walking.files = opened := (Files.reads_walk folder).files_eq hwalk
    rw [Action.perform_bind, Action.perform_tryCatch, hwalk] at h
    cases h
    dsimp only
    rw [hwalking]
    exact .unwalked hparent hopen hwalk
  · have hwalking : walking.files = opened := (Files.reads_walk folder).files_eq hwalk
    rw [Action.perform_bind, Action.perform_tryCatch, hwalk] at h
    dsimp only at h
    have hgather := outcome_gather (folder.lastName?.getD []) folder archive walked walking
    rcases hperform : (gather (folder.lastName?.getD []) folder archive walked).perform
      walking with ⟨gathered, filling⟩
    have hfilling : filling.files = opened := ((reads_gather _ _ _ _).files_eq hperform).trans hwalking
    rw [Action.outcome, hperform, hwalking] at hgather
    obtain rfl := (Prod.mk.inj hgather).1
    rw [Action.perform_bind_of_ok hperform] at h
    rcases hentries : entriesFrom (folder.lastName?.getD []) folder opened walked with ⟨entries, failure?⟩
    rw [hentries, Action.perform_bind_of_ok (Action.perform_modify _ filling), hfilling] at h
    have hfilled := Packed.filled hparent hopen hwalk hentries
    cases failure? <;> cases h <;> exact hfilled

theorem packed_of_pack (hpack : (pack folder archive).perform session = (result, after)) :
    Packed folder archive session result after.files := by
  rcases Action.bind_cases hpack with ⟨failure, hlabel, rfl⟩ | ⟨_, labelled, hlabel, hrest⟩
  · rw [Action.Reads.files_eq (.ofExcept _) hlabel]
    exact .unlabelled (Action.ofExcept_eq_error hlabel)
  obtain ⟨-, rfl⟩ := Action.ofExcept_eq_ok_iff.1 hlabel
  rcases Action.bind_cases hrest with ⟨failure, hparent, rfl⟩ | ⟨_, made, hparent, h⟩
  · exact .unplaced hparent
  rw [Action.perform_bind_of_ok (Action.perform_ask _ made)] at h
  cases hopen : made.files.openEmpty archive with
  | error fault =>
      rw [hopen] at h
      cases h
      exact .unopened hparent hopen
  | ok opened =>
      obtain ⟨location, opened⟩ := opened
      rw [hopen] at h
      dsimp only at h
      rw [pure_bind] at h
      dsimp only at h
      rw [Action.perform_bind_of_ok (Action.perform_modify _ made)] at h
      exact packed_of_opened hparent hopen h

/-- A file within a base is opened in its place. -/
theorem openEmpty_within {files opened : FileSystem} {location : Location} (hroot : files.Rooted base top)
    (hpath : Path.Within base (first :: rest) archive)
    (hopen : files.openEmpty archive = .ok (location, opened)) :
    location = top ++ first :: rest ∧ opened = files.put (top ++ first :: rest) (.file (.plain [])) ∧
      ∀ content, Grows (fun location => location = top ++ first :: rest) files
        (files.put (top ++ first :: rest) (.file content)) := by
  obtain ⟨rfl, hresolve, ⟨-, htakes⟩, -⟩ := FileSystem.holdsFile_of_openEmpty hopen
  obtain rfl := FileSystem.location_eq_of_within hroot hpath (by simp) hresolve
  exact ⟨rfl, rfl, fun content => hroot.grows_put hpath (by simp) hresolve (htakes content)⟩

/-- What an archive is put into: directories have been made on the way to it, below the first name
of its path. -/
theorem exists_of_packed (hroot : session.files.Rooted base top)
    (hpath : Path.Within base (first :: rest) archive) {files : FileSystem}
    (h : Packed folder archive session result files) :
    ∃ made, Gains (fun location => ∃ names, location = top ++ first :: names) session.files made ∧
      (files = made ∨ ∃ entries, files = made.put (top ++ first :: rest) (.file (.archive entries)) ∧
        ∀ content, Grows (fun location => location = top ++ first :: rest) made
          (made.put (top ++ first :: rest) (.file content))) := by
  have hmade := fun {result : Except Failure Unit} {made : Session}
      (h : (Files.ensureParent archive).perform session = (result, made)) =>
        Files.gains_ensureParent_within hroot hpath h
  have hput : ∀ {made : Session} {location opened entries},
      (Files.ensureParent archive).perform session = (.ok (), made) →
      made.files.openEmpty archive = .ok (location, opened) →
      opened.put location (.file (.archive entries)) = made.files.put (top ++ first :: rest)
        (.file (.archive entries)) ∧
        ∀ content, Grows (fun location => location = top ++ first :: rest) made.files
          (made.files.put (top ++ first :: rest) (.file content)) := by
    intro made location opened entries hparent hopen
    obtain ⟨rfl, rfl, hgrows⟩ := openEmpty_within ((hmade hparent).toGrows.rooted hroot) hpath hopen
    exact ⟨FileSystem.put_put _ _ _, hgrows⟩
  cases h with
  | unlabelled => exact ⟨_, .refl _ _, .inl rfl⟩
  | unplaced hparent => exact ⟨_, hmade hparent, .inl rfl⟩
  | unopened hparent => exact ⟨_, hmade hparent, .inl rfl⟩
  | unwalked hparent hopen => exact ⟨_, hmade hparent, .inr ⟨_, hput hparent hopen⟩⟩
  | filled hparent hopen => exact ⟨_, hmade hparent, .inr ⟨_, hput hparent hopen⟩⟩

/-- An archive is made and written below the first name of its path within a base. -/
theorem grows_pack (hroot : session.files.Rooted base top)
    (hpath : Path.Within base (first :: rest) archive)
    (hpack : (pack folder archive).perform session = (result, after)) :
    Grows (fun location => ∃ names, location = top ++ first :: names) session.files after.files := by
  obtain ⟨made, hmade, hend⟩ := exists_of_packed hroot hpath (packed_of_pack hpack)
  rcases hend with heq | ⟨entries, heq, hput⟩ <;> rw [heq]
  · exact hmade.toGrows
  · exact hmade.toGrows.trans ((hput _).mono fun location hlocation => ⟨rest, hlocation⟩)

/-- Besides the archive itself only directories are new. -/
theorem kept_of_pack (hroot : session.files.Rooted base top)
    (hpath : Path.Within base (first :: rest) archive)
    (hpack : (pack folder archive).perform session = (result, after)) {location : Location}
    (hother : location ≠ top ++ first :: rest) {node : Node}
    (hnode : session.files.tree.node? location = some node) :
    after.files.tree.node? location = some node := by
  obtain ⟨made, hmade, hend⟩ := exists_of_packed hroot hpath (packed_of_pack hpack)
  rcases hend with heq | ⟨entries, heq, hput⟩ <;> rw [heq]
  · exact hmade.node?_eq hnode
  · rw [FileSystem.node?_put (by simp), if_neg hother]
    exact hmade.node?_eq hnode

end Archive

namespace Build

open FileSystem (Grows LeadsTo)

/-- The name of the directory for backups. -/
def backupsName : Text := "backup".toList

/-- The name of the working copy of the settings. -/
def workingCopyName : Text := "build.setting.resolved.json".toList

theorem plain_sourceName : Path.Plain (Utf8.encode sourceName) :=
    ⟨by decide, by decide, by decide, by decide⟩

theorem plain_outputName : Path.Plain (Utf8.encode outputName) :=
    ⟨by decide, by decide, by decide, by decide⟩

theorem plain_backupsName : Path.Plain (Utf8.encode backupsName) :=
    ⟨by decide, by decide, by decide, by decide⟩

theorem plain_workingCopyName : Path.Plain (Utf8.encode workingCopyName) :=
  ⟨by decide, by decide, by decide, by decide⟩

variable {session after : Session} {base : Path} {top : Location} {result : Except Failure (List Path)}

theorem ne_of_head_ne {first second : Name} (h : first ≠ second) (names names' : List Name) :
    top ++ first :: names ≠ top ++ second :: names' := fun heq =>
  h (List.cons.inj (List.append_cancel_left heq)).1

/-- The path of the archive of a tree. -/
def archivePath (base : Path) (folder : Text) (now : Instant) : Path :=
  Layout.place (Layout.place (Layout.of base).backups folder) (Archive.nameAt now)

/-- The place of the archive of a tree. -/
def archiveOf (top : Location) (folder : Text) (now : Instant) : Location :=
  top ++ [Utf8.encode backupsName, Utf8.encode folder, Utf8.encode (Archive.nameAt now)]

theorem within_archivePath (base : Path) {folder : Text} (hfolder : Path.Plain (Utf8.encode folder))
    (now : Instant) :
    Path.Within base [Utf8.encode backupsName, Utf8.encode folder, Utf8.encode (Archive.nameAt now)]
      (archivePath base folder now) :=
  ((Path.Within.refl base).child plain_backupsName).child hfolder |>.child (Archive.plain_nameAt now)

/-- The source tree is archived, and then the output tree if that has succeeded. -/
theorem archiveTrees_cases (h : (archiveTrees (.of base)).perform session = (result, after)) :
    (∃ failure, result = .error failure ∧
      (Archive.pack (Layout.of base).source (archivePath base sourceName session.now)).perform session =
        (.error failure, after)) ∨
    ∃ count between,
      (Archive.pack (Layout.of base).source (archivePath base sourceName session.now)).perform session =
        (.ok count, between) ∧
      ((∃ failure, result = .error failure ∧
        (Archive.pack (Layout.of base).output (archivePath base outputName session.now)).perform between =
          (.error failure, after)) ∨
      ∃ count', (Archive.pack (Layout.of base).output
        (archivePath base outputName session.now)).perform between = (.ok count', after) ∧
        result = .ok [archivePath base sourceName session.now,
          archivePath base outputName session.now]) := by
  rw [archiveTrees, Action.perform_bind_of_ok (Action.perform_get session)] at h
  simp only [List.mapM_cons, List.mapM_nil, bind_assoc, pure_bind] at h
  rcases Action.bind_cases h with ⟨failure, hfirst, rfl⟩ | ⟨count, between, hfirst, hrest⟩
  · exact .inl ⟨failure, rfl, hfirst⟩
  rcases Action.bind_cases hrest with ⟨failure, hsecond, rfl⟩ | ⟨count', last, hsecond, hend⟩
  · exact .inr ⟨count, between, hfirst, .inl ⟨failure, rfl, hsecond⟩⟩
  · cases hend
    exact .inr ⟨count, between, hfirst, .inr ⟨count', hsecond, rfl⟩⟩

/-- Archiving both trees of a data directory touches nothing but its backups. -/
theorem grows_archiveTrees (hroot : session.files.Rooted base top)
    (h : (archiveTrees (.of base)).perform session = (result, after)) :
    Grows (fun location => ∃ names, location = top ++ Utf8.encode backupsName :: names)
      session.files after.files := by
  have hfirst := within_archivePath base plain_sourceName session.now
  have hsecond := within_archivePath base plain_outputName session.now
  rcases archiveTrees_cases h with ⟨failure, -, hpack⟩ | ⟨count, between, hpack, hend⟩
  · exact Archive.grows_pack hroot hfirst hpack
  have hbetween := Archive.grows_pack hroot hfirst hpack
  rcases hend with ⟨failure, -, hpack'⟩ | ⟨count', hpack', -⟩ <;>
    exact hbetween.trans (Archive.grows_pack (hbetween.rooted hroot) hsecond hpack')

/-- Everything that was there is as it was, besides the two archives. -/
theorem kept_of_archiveTrees (hroot : session.files.Rooted base top)
    (h : (archiveTrees (.of base)).perform session = (result, after)) {location : Location}
    (hsource : location ≠ archiveOf top sourceName session.now)
    (houtput : location ≠ archiveOf top outputName session.now) {node : Node}
    (hnode : session.files.tree.node? location = some node) :
    after.files.tree.node? location = some node := by
  have hfirst := within_archivePath base plain_sourceName session.now
  have hsecond := within_archivePath base plain_outputName session.now
  rcases archiveTrees_cases h with ⟨failure, -, hpack⟩ | ⟨count, between, hpack, hend⟩
  · exact Archive.kept_of_pack hroot hfirst hpack hsource hnode
  have hbetween := Archive.grows_pack hroot hfirst hpack
  have hkept := Archive.kept_of_pack hroot hfirst hpack hsource hnode
  rcases hend with ⟨failure, -, hpack'⟩ | ⟨count', hpack', -⟩ <;>
    exact Archive.kept_of_pack (hbetween.rooted hroot) hsecond hpack' houtput hkept

end Build

end ServerPack
