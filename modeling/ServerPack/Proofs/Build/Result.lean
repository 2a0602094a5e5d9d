import ServerPack.Proofs.Build.Course

/-!
What a build does, from its session and its data directory. Each file that is to be looked at can be
found and read when its turn comes (`Prepared.holdsFile`), so that the first files hold what becomes
of their texts and everything else in the output tree is what it is in the source tree (`Filled`). A
build that succeeds has filled all of them (`built_of_run`); one that cannot fill a file has filled
those before it and fails with the reason (`run_of_not_fillable`).
-/

namespace ServerPack

open FileSystem (Grows)

/-- Files that are written in place of others are all that changes. -/
theorem FileSystem.grows_putFiles {files : FileSystem} {written : List (Location × Content)}
    (hwf : files.tree.WellFormed)
    (hfiles : ∀ entry ∈ written, ∃ content, files.tree.node? entry.1 = some (.file content)) :
    Grows (fun location => ∃ entry ∈ written, entry.1 = location) files (files.putFiles written) := by
  induction written generalizing files with
  | nil => exact .refl _ _
  | cons first rest ih =>
      obtain ⟨location, content⟩ := first
      obtain ⟨content', hfile⟩ := hfiles _ List.mem_cons_self
      rcases List.eq_nil_or_concat location with rfl | ⟨directory, name, rfl⟩
      · cases hfile
      rw [List.concat_eq_append] at hfile ⊢
      have hput : Grows (fun location => ∃ entry ∈ (directory ++ [name], content) :: rest,
        entry.1 = location) files (files.put (directory ++ [name]) (.file content)) :=
        grows_put (hwf.place hfile) (.inr ⟨content', hfile⟩) ⟨_, List.mem_cons_self, rfl⟩
      have hrest := ih (hput.tree hwf) fun entry hentry =>
        have ⟨_, hnode⟩ := hfiles entry (List.mem_cons_of_mem _ hentry)
        hput.sustains.file hnode
      exact hput.trans (hrest.mono fun _ ⟨entry, hentry, heq⟩ =>
        ⟨entry, List.mem_cons_of_mem _ hentry, heq⟩)

namespace Build

open Settings (Document)

variable {session prepared after : Session} {base : Path} {top : Location} {options : Options}

/-- The place of a source file. -/
abbrev sourceOf (top : Location) (names : Location) : Location := top ++ Utf8.encode sourceName :: names

/-- The place of an output file. -/
abbrev outputOf (top : Location) (names : Location) : Location := top ++ Utf8.encode outputName :: names

/-- The first files of a list hold what becomes of their texts, and everything else in the output
tree is what it is in the source tree. Each text finds the randomness that the one before it has
left. -/
structure Filled (top : Location) (settings : Document) (selected : List Location)
    (drawn : Nat → RandomSource) (count : Nat) (before after : FileSystem) : Prop where
  source (names : Location) : after.tree.node? (sourceOf top names) = before.tree.node? (sourceOf top names)
  kept {names : Location} : names ∉ selected.take count →
    after.tree.node? (outputOf top names) = before.tree.node? (sourceOf top names)
  filled {i : Nat} {names : Location} : i < count → selected[i]? = some names →
    ∃ content body resolved, before.tree.node? (sourceOf top names) = some (.file content) ∧
      Utf8.decode? content.bytes = some body ∧
        settings.resolveIn body (drawn i) = (.ok resolved, drawn (i + 1)) ∧
      after.tree.node? (outputOf top names) = some (.file
        (if Placeholder.occurringIn body = [] then content
          else .plain (Utf8.encode (Substitution.putAll (Placeholder.occurringIn body) resolved body))))

/-! The files that are to be looked at. -/

variable {before files : FileSystem} {paths : List Path} {selected : List Location}

/-- A file that is to be looked at can be found. -/
theorem Prepared.holdsFile (h : Prepared base top before files paths selected) {names : Location}
    (hmem : names ∈ selected) {content : Content}
    (hcontent : before.tree.node? (sourceOf top names) = some (.file content)) :
    files.HoldsFile (pathBelow (Layout.of base).output names) (outputOf top names) content := by
  obtain ⟨-, husable, -⟩ := h.file hmem
  have hnode : files.tree.node? (outputOf top names) = some (.file content) :=
    (h.output names).trans hcontent
  exact FileSystem.lookup_below h.rooted plain_outputName hnode husable

/-- The content of the file at a place, which is empty if there is none. -/
def contentAt (files : FileSystem) (location : Location) : Content :=
  match files.tree.node? location with
  | some (.file content) => content
  | _ => .plain []

/-- The placeholders in the text of the file at a place, of which there are none if it is no
text. -/
def placeholdersAt (files : FileSystem) (location : Location) : List Placeholder :=
  match Utf8.decode? (contentAt files location).bytes with
  | some body => Placeholder.occurringIn body
  | none => []

theorem Prepared.node?_source (h : Prepared base top before files paths selected) {names : Location}
    (hmem : names ∈ selected) :
    before.tree.node? (sourceOf top names) = some (.file (contentAt before (sourceOf top names))) := by
  obtain ⟨-, -, content, hcontent⟩ := h.file hmem
  rw [contentAt, sourceOf, hcontent]

theorem injective_outputOf (top : Location) : Function.Injective (outputOf top) := fun _ _ h =>
  (List.cons.inj (List.append_cancel_left h)).2

theorem outputOf_ne_nil (top names : Location) : outputOf top names ≠ [] := by simp [outputOf]

/-- Files are written over those that are to be looked at, and nothing else changes. -/
theorem Prepared.grows_putFiles (h : Prepared base top before files paths selected)
    (contents : List Content) :
    Grows (fun location => ∃ names ∈ selected, outputOf top names = location) files
      (files.putFiles ((selected.map (outputOf top)).zip contents)) := by
  have hplaces : ∀ entry ∈ (selected.map (outputOf top)).zip contents, ∃ names ∈ selected,
      outputOf top names = entry.1 :=
    fun entry hentry => List.mem_map.1 (List.of_mem_zip hentry).1
  have hgrows := FileSystem.grows_putFiles h.rooted.tree fun entry hentry => by
    obtain ⟨names, hnames, heq⟩ := hplaces entry hentry
    rw [← heq]
    exact ⟨_, (h.output names).trans (h.node?_source hnames)⟩
  exact hgrows.mono fun location ⟨entry, hentry, heq⟩ => heq ▸ hplaces entry hentry

/-- The places that are written are those of the first files. -/
theorem map_fst_zip_outputOf (top : Location) {filled : List (Nat × Content)}
    (hle : filled.length ≤ selected.length) :
    ((selected.map (outputOf top)).zip (filled.map Prod.snd)).map Prod.fst =
      (selected.take filled.length).map (outputOf top) := by
  rw [List.zip_eq_zip_take_min, List.map_fst_zip (by simp), List.length_map, List.length_map,
    Nat.min_eq_right hle, List.map_take]

section

variable {settings : Document} {drawn : Nat → RandomSource} {filled : List (Nat × Content)}

/-- Files that have been filled one after the other hold what becomes of them. -/
theorem Prepared.filled_putFiles (h : Prepared base top before files paths selected)
    (hle : filled.length ≤ selected.length)
    (hdone : ∀ i done, filled[i]? = some done → ∃ names, selected[i]? = some names ∧
      settings.fillContent (contentAt before (sourceOf top names)) (drawn i) = (.ok done, drawn (i + 1))) :
    Filled top settings selected drawn filled.length before
      (files.putFiles ((selected.map (outputOf top)).zip (filled.map Prod.snd))) := by
  have hplaces := map_fst_zip_outputOf top hle
  have hne : ∀ entry ∈ (selected.map (outputOf top)).zip (filled.map Prod.snd), entry.1 ≠ [] := by
    intro entry hentry
    obtain ⟨names, -, hnames⟩ := List.mem_map.1 (hplaces ▸ List.mem_map_of_mem hentry)
    exact hnames ▸ outputOf_ne_nil top names
  constructor
  case source =>
    intro names
    rw [FileSystem.node?_putFiles_of_not_mem hne, h.source]
    rw [hplaces, List.mem_map]
    rintro ⟨names', -, heq⟩
    exact ne_of_head_ne (by decide) _ _ heq
  case kept =>
    intro names hnames
    rw [FileSystem.node?_putFiles_of_not_mem hne, h.output]
    rwa [hplaces, List.mem_map_of_injective (injective_outputOf top)]
  case filled =>
    intro i names hi hnames
    obtain ⟨names', hnames', hfilling⟩ := hdone i filled[i] (List.getElem?_eq_getElem hi)
    obtain rfl := Option.some.inj (hnames.symm.trans hnames')
    obtain ⟨body, resolved, hbody, hresolved, -, hcontent⟩ := Document.fillContent_eq_ok_iff.1 hfilling
    refine ⟨_, body, resolved, h.node?_source (List.mem_of_getElem? hnames), hbody, hresolved, ?_⟩
    rw [← Document.fill_eq_putAll hresolved, ← hcontent]
    refine FileSystem.node?_putFiles_of_mem hne ?_ (List.mem_of_getElem? (i := i) ?_)
    · rw [hplaces]
      exact (h.nodup.sublist (List.take_sublist _ _)).map (injective_outputOf top)
    · simp [List.getElem?_zip_eq_some, hnames, hi]

/-- In a file that has been filled as many placeholders have been replaced as there were. -/
theorem map_fst_filled (hdone : ∀ i done, filled[i]? = some done → ∃ names, selected[i]? = some names ∧
      settings.fillContent (contentAt before (sourceOf top names)) (drawn i) = (.ok done, drawn (i + 1))) :
    filled.map Prod.fst =
      (selected.take filled.length).map fun names =>
        (placeholdersAt before (sourceOf top names)).length := by
  refine List.ext_getElem? fun i => ?_
  rw [List.getElem?_map, List.getElem?_map, List.getElem?_take]
  split
  · next hi =>
    obtain ⟨names, hnames, hfilling⟩ := hdone i filled[i] (List.getElem?_eq_getElem hi)
    obtain ⟨body, resolved, hbody, -, hcount, -⟩ := Document.fillContent_eq_ok_iff.1 hfilling
    rw [List.getElem?_eq_getElem hi, hnames, Option.map_some, Option.map_some, placeholdersAt, hbody]
    exact congrArg some hcount
  · next hi => rw [List.getElem?_eq_none (Nat.le_of_not_lt hi), Option.map_none, Option.map_none]

end

/-- Files are filled one after the other, until one of them cannot be filled. -/
theorem Prepared.filled (h : Prepared base top before files paths selected) {settings : Document}
    {randomness left : RandomSource} {filled : List (Nat × Content)} {failure? : Option Failure}
    (hfill : settings.fillAll (selected.map fun names => contentAt before (sourceOf top names)) randomness =
      (filled, failure?, left)) :
    ∃ drawn, drawn 0 = randomness ∧
      Filled top settings selected drawn filled.length before
        (files.putFiles ((selected.map (outputOf top)).zip (filled.map Prod.snd))) ∧
      filled.map Prod.fst =
        (selected.take filled.length).map (fun names =>
          (placeholdersAt before (sourceOf top names)).length) ∧
      (failure? = none → filled.length = selected.length ∧ left = drawn filled.length) ∧
      ∀ failure, failure? = some failure → ∃ names, selected[filled.length]? = some names ∧
        settings.fillContent (contentAt before (sourceOf top names)) (drawn filled.length) =
          (.error failure, left) := by
  obtain ⟨drawn, hdrawn, hle, hdone, hall, hend⟩ := Document.exists_drawn hfill
  exact ⟨drawn, hdrawn, h.filled_putFiles hle hdone, map_fst_filled hdone, hall, hend⟩

/-- The loop over the files that are to be looked at. -/
theorem Prepared.outcome_mapM (h : Prepared base top before prepared.files paths selected)
    (mode : WriteMode) (settings : Document) :
    (paths.mapM (substituteFile mode settings.resolve)).outcome prepared =
      match settings.fillAll (selected.map fun names => contentAt before (sourceOf top names))
        prepared.randomness with
      | (filled, failure?, randomness) =>
        (countsOr filled failure?,
          { prepared.silent with
            files := prepared.files.putFiles ((selected.map (outputOf top)).zip
              (filled.map Prod.snd)), randomness }) := by
  have hheld : ∀ file ∈ selected.map fun names =>
      (⟨pathBelow (Layout.of base).output names, outputOf top names,
        contentAt before (sourceOf top names)⟩ : Listed),
      prepared.files.HoldsFile file.path file.location file.content := by
    intro file hfile
    obtain ⟨names, hnames, rfl⟩ := List.mem_map.1 hfile
    exact h.holdsFile hnames (h.node?_source hnames)
  have hloop := outcome_mapM_substituteFile mode settings hheld (by
    rw [List.map_map]
    exact h.nodup.map (injective_outputOf top))
  simpa only [List.map_map, Function.comp_def, ← h.paths_eq] using hloop

theorem outcome_finish (mode : WriteMode) (staged : Staged) (session : Session) :
    (finish mode staged).outcome session =
      match (staged.files.mapM (substituteFile mode staged.settings.resolve)).outcome session with
      | (.ok counts, after) => (.ok (staged.report counts), after.silent)
      | (.error failure, after) => (.error failure, after) := by
  rw [finish, Action.outcome_bind fun _ => .bind (.log _ _) fun _ => .pure _]
  rcases (staged.files.mapM (substituteFile mode staged.settings.resolve)).outcome
    session with ⟨_ | counts, after⟩
  · rfl
  · rfl

/-- A build that has found the files goes on to the end or to the first file that cannot be
filled. -/
theorem Course.Taken.run {course : Course} (h : course.Taken base top options session)
    {result : Except Failure Report}
    (hrun : (Build.run (.of base) options).perform session = (result, after)) :
    ∃ drawn count, drawn 0 = course.prepared.randomness ∧ after.files.Rooted base top ∧
      Filled top course.staged.settings course.selected drawn count course.furnished.files after.files ∧
      ((count = course.selected.length ∧ after.randomness = drawn count ∧
        result = .ok (course.staged.report (course.selected.map fun names =>
          (placeholdersAt course.furnished.files (sourceOf top names)).length))) ∨
      ∃ failure names left, result = .error failure ∧ course.selected[count]? = some names ∧
        course.staged.settings.fillContent (contentAt course.furnished.files (sourceOf top names))
          (drawn count) = (.error failure, left)) := by
  rw [run_eq_stage_bind, Action.perform_bind_of_ok h.stage] at hrun
  have houtcome := outcome_finish options.writeMode course.staged course.prepared
  rw [h.prepared.outcome_mapM, Action.outcome, hrun] at houtcome
  rcases hfill : course.staged.settings.fillAll
    (course.selected.map fun names => contentAt course.furnished.files (sourceOf top names))
    course.prepared.randomness with ⟨filled, failure?, left⟩
  obtain ⟨drawn, hdrawn, hfilled, hcounts, hall, hend⟩ := h.prepared.filled hfill
  have hrooted := (h.prepared.grows_putFiles (filled.map Prod.snd)).rooted h.prepared.rooted
  rw [hfill] at houtcome
  cases failure? with
  | none =>
      obtain ⟨hresult, hafter⟩ := Prod.mk.inj houtcome
      have hfiles : after.files = _ := (Session.mk.inj hafter).1
      have hrandomness : after.randomness = left := (Session.mk.inj hafter).2.1
      obtain ⟨hlength, hleft⟩ := hall rfl
      rw [hlength, List.take_length] at hcounts
      exact ⟨drawn, filled.length, hdrawn, hfiles ▸ hrooted, hfiles ▸ hfilled,
        .inl ⟨hlength, hrandomness.trans hleft, hcounts ▸ hresult⟩⟩
  | some failure =>
      obtain ⟨hresult, hafter⟩ := Prod.mk.inj houtcome
      have hfiles : after.files = _ := (Session.mk.inj hafter).1
      obtain ⟨names, hnames, hfilling⟩ := hend failure rfl
      exact ⟨drawn, filled.length, hdrawn, hfiles ▸ hrooted, hfiles ▸ hfilled,
        .inr ⟨failure, names, left, hresult, hnames, hfilling⟩⟩

/-- A build that succeeds has come to the files and filled all of them. -/
theorem exists_course_of_run (hwf : session.files.WellFormed)
    (hrooted : ∀ {furnished : Session}, (furnish (.of base)).perform session = (.ok (), furnished) →
      furnished.files.Rooted base top)
    {report : Report} (h : (Build.run (.of base) options).perform session = (.ok report, after)) :
    ∃ (course : Course) (drawn : Nat → RandomSource), course.Taken base top options session ∧
      drawn 0 = course.prepared.randomness ∧ after.randomness = drawn course.selected.length ∧
      after.files.Rooted base top ∧
      Filled top course.staged.settings course.selected drawn course.selected.length
        course.furnished.files after.files ∧
      report = course.staged.report (course.selected.map fun names =>
        (placeholdersAt course.furnished.files (sourceOf top names)).length) := by
  have hstaged := h
  rw [run_eq_stage_bind] at hstaged
  obtain ⟨staged, prepared, hstage, -⟩ := Action.bind_eq_ok_iff.1 hstaged
  obtain ⟨course, -, -, hcourse⟩ := exists_course hwf hrooted hstage
  obtain ⟨drawn, _, hdrawn, hroot, hfilled, ⟨rfl, hleft, hreport⟩ | ⟨failure, -, -, hresult, -⟩⟩ :=
    hcourse.run h
  · exact ⟨course, drawn, hcourse, hdrawn, hleft, hroot, hfilled, Except.ok.inj hreport⟩
  · cases hresult

/-! A build that succeeds. -/

/-- The output tree has the directories and files of the source tree. A file that is not to be
looked at or has no placeholders in it is the same as its source; of any other one the text is
filled. The report counts the files and their placeholders. -/
structure Built (top : Location) (settings : Document) (selected : List Location)
    (drawn : Nat → RandomSource) (before : FileSystem) (report : Report) (after : FileSystem) : Prop where
  source (names : Location) : after.tree.node? (sourceOf top names) = before.tree.node? (sourceOf top names)
  directory (names : Location) : after.tree.node? (outputOf top names) = some .directory ↔
    before.tree.node? (sourceOf top names) = some .directory
  file (names : Location) : (∃ content, after.tree.node? (outputOf top names) = some (.file content)) ↔
    ∃ content, before.tree.node? (sourceOf top names) = some (.file content)
  no_link (names : Location) (aim : Path) : after.tree.node? (outputOf top names) ≠ some (.link aim)
  unselected {names : Location} : names ∉ selected →
    after.tree.node? (outputOf top names) = before.tree.node? (sourceOf top names)
  untouched {names : Location} : names ∈ selected → placeholdersAt before (sourceOf top names) = [] →
    after.tree.node? (outputOf top names) = before.tree.node? (sourceOf top names)
  filled {i : Nat} {names : Location} : selected[i]? = some names →
    ∃ content body resolved, before.tree.node? (sourceOf top names) = some (.file content) ∧
      Utf8.decode? content.bytes = some body ∧
        settings.resolveIn body (drawn i) = (.ok resolved, drawn (i + 1)) ∧
      (placeholdersAt before (sourceOf top names) ≠ [] →
        after.tree.node? (outputOf top names) = some (.file (.plain (Utf8.encode
          (Substitution.putAll (Placeholder.occurringIn body) resolved body)))))
  matched : report.matched = selected.length
  changed : report.changed =
    (selected.filter fun names => placeholdersAt before (sourceOf top names) ≠ []).length
  substituted : report.substituted =
    (selected.map fun names => (placeholdersAt before (sourceOf top names)).length).foldl (· + ·) 0

theorem placeholdersAt_eq {location : Location} {content : Content} {body : Text}
    (hcontent : before.tree.node? location = some (.file content))
    (hbody : Utf8.decode? content.bytes = some body) :
    placeholdersAt before location = Placeholder.occurringIn body := by
  rw [placeholdersAt, contentAt, hcontent]
  dsimp only
  rw [hbody]

section

variable {settings : Document} {drawn : Nat → RandomSource} {count : Nat} {after : FileSystem}

/-- What is at a place in the output tree differs from its source only in what a file holds. -/
theorem Filled.eq_or_file (h : Filled top settings selected drawn count before after) (names : Location) :
    after.tree.node? (outputOf top names) = before.tree.node? (sourceOf top names) ∨
      ∃ content content', after.tree.node? (outputOf top names) = some (.file content') ∧
        before.tree.node? (sourceOf top names) = some (.file content) := by
  by_cases hmem : names ∈ selected.take count
  · obtain ⟨i, hi⟩ := List.mem_iff_getElem?.1 hmem
    rw [List.getElem?_take] at hi
    split at hi
    · next hlt =>
      obtain ⟨content, body, resolved, hcontent, -, -, hafter⟩ := h.filled hlt hi
      exact .inr ⟨content, _, hafter, hcontent⟩
    · cases hi
  · exact .inl (h.kept hmem)

theorem Filled.built (h : Filled top settings selected drawn selected.length before after)
    (hlinks : ∀ names aim, before.tree.node? (sourceOf top names) ≠ some (.link aim)) {staged : Staged}
    (hfiles : staged.files.length = selected.length) :
    Built top settings selected drawn before
      (staged.report (selected.map fun names =>
        (placeholdersAt before (sourceOf top names)).length)) after where
  source := h.source
  directory names := by
    rcases h.eq_or_file names with heq | ⟨content, content', hafter, hbefore⟩
    · rw [heq]
    · rw [hafter, hbefore]
      exact ⟨nofun, nofun⟩
  file names := by
    rcases h.eq_or_file names with heq | ⟨content, content', hafter, hbefore⟩
    · rw [heq]
    · exact ⟨fun _ => ⟨content, hbefore⟩, fun _ => ⟨content', hafter⟩⟩
  no_link names aim hlink := by
    rcases h.eq_or_file names with heq | ⟨content, content', hafter, -⟩
    · exact hlinks names aim (heq ▸ hlink)
    · rw [hafter] at hlink
      cases hlink
  unselected hnames := h.kept (by rwa [List.take_length])
  untouched {names} hnames hnone := by
    obtain ⟨i, hi⟩ := List.mem_iff_getElem?.1 hnames
    obtain ⟨content, body, resolved, hcontent, hbody, -, hafter⟩ :=
      h.filled (List.getElem?_eq_some_iff.1 hi).1 hi
    rw [placeholdersAt_eq hcontent hbody] at hnone
    rw [hafter, if_pos hnone, hcontent]
  filled {i names} hi := by
    obtain ⟨content, body, resolved, hcontent, hbody, hresolved, hafter⟩ :=
      h.filled (List.getElem?_eq_some_iff.1 hi).1 hi
    refine ⟨content, body, resolved, hcontent, hbody, hresolved, fun hsome => ?_⟩
    rw [placeholdersAt_eq hcontent hbody] at hsome
    rw [hafter, if_neg hsome]
  matched := hfiles
  changed := by
    rw [Staged.report]
    dsimp only
    rw [List.filter_map, List.length_map]
    refine congrArg List.length (List.filter_congr fun names _ => ?_)
    rw [Function.comp_apply, decide_eq_decide, List.length_pos_iff]
  substituted := rfl

end

/-- A build that succeeds has come to the files that are selected in the source tree, as this is
after the directories have been made, and gives the output tree the files of the source tree, with
the placeholders in the selected ones replaced by what the settings, once they have been resolved
against themselves, give for them. -/
theorem built_of_run {report : Report} (hwf : session.files.WellFormed)
    (hdirectory : session.files.LeadsTo base top)
    (hlinks : ∀ names aim, session.files.tree.node? (top ++ names) ≠ some (.link aim))
    (h : (Build.run (.of base) options).perform session = (.ok report, after)) :
    ∃ (course : Course) (drawn : Nat → RandomSource), course.Taken base top options session ∧
      drawn 0 = course.prepared.randomness ∧
      Built top course.staged.settings course.selected drawn course.furnished.files report after.files := by
  obtain ⟨course, drawn, hcourse, hdrawn, -, -, hfilled, rfl⟩ := exists_course_of_run hwf
    (fun hfurnish => (grows_furnish hwf hfurnish).rooted (hwf.rooted hdirectory hlinks)) h
  have hfiles : course.staged.files.length = course.selected.length := by
    rw [hcourse.prepared.paths_eq, List.length_map]
  exact ⟨course, drawn, hcourse, hdrawn,
    hfilled.built (fun names aim => hcourse.rooted.linkless.no_link) hfiles⟩

/-- Of the two files of the sample the first has a placeholder, and in the output tree this has been
replaced. -/
theorem built_of_run_sample : ∃ (course : Course) (drawn : Nat → RandomSource) (after : Session),
    (Build.run (.of sampleBase) ⟨false, true, .once⟩).perform (sampleSession "b") =
      (.ok ⟨2, 1, 1, []⟩, after) ∧
      course.Taken sampleBase [Utf8.encode ['d']] ⟨false, true, .once⟩ (sampleSession "b") ∧
      course.selected = [[Utf8.encode ['a']], [Utf8.encode ['b']]] ∧
      Built [Utf8.encode ['d']] course.staged.settings course.selected drawn course.furnished.files
        ⟨2, 1, 1, []⟩ after.files ∧
      after.files.textAt (.ofText "d/built/a".toList) = .ok ['v'] ∧
      after.files.textAt (.ofText "d/built/b".toList) = .ok ['b'] := by
  have hwf : (sampleSession "b").files.WellFormed := by decide +kernel
  have hdirectory : (sampleSession "b").files.LeadsTo sampleBase [Utf8.encode ['d']] := by decide +kernel
  have hlinks : ∀ names aim, (sampleSession "b").files.tree.node? ([Utf8.encode ['d']] ++ names) ≠
      some (.link aim) :=
    fun names => FileTree.node?_ne_link (by decide +kernel) _
  have hend : (((Build.run (.of sampleBase) ⟨false, true, .once⟩).perform (sampleSession "b")).1,
      ((Build.run (.of sampleBase) ⟨false, true, .once⟩).perform (sampleSession "b")).2.files.textAt
        (.ofText "d/built/a".toList),
      ((Build.run (.of sampleBase) ⟨false, true, .once⟩).perform (sampleSession "b")).2.files.textAt
        (.ofText "d/built/b".toList)) = (.ok ⟨2, 1, 1, []⟩, .ok ['v'], .ok ['b']) := by decide +kernel
  rcases hrun : (Build.run (.of sampleBase) ⟨false, true, .once⟩).perform
    (sampleSession "b") with ⟨result, after⟩
  rw [hrun] at hend
  obtain ⟨hresult, htexts⟩ := Prod.mk.inj hend
  obtain ⟨hfirst, hsecond⟩ := Prod.mk.inj htexts
  obtain rfl : result = .ok ⟨2, 1, 1, []⟩ := hresult
  obtain ⟨course, drawn, hcourse, -, hbuilt⟩ := built_of_run hwf hdirectory hlinks hrun
  have hsuffixes : ((stage (.of sampleBase) ⟨false, true, .once⟩).perform
    (sampleSession "b")).1.toOption.map
      (fun staged => staged.settings.suffixes) = some [] := by decide +kernel
  rw [hcourse.stage] at hsuffixes
  have hselected : selectedBelow true [] (Utf8.encode outputName)
      ((furnish (.of sampleBase)).outcome (sampleSession "b")).2.files.tree
        ([Utf8.encode ['d']] ++ [Utf8.encode sourceName]) = [[Utf8.encode ['a']], [Utf8.encode ['b']]] := by
    decide +kernel
  rw [hcourse.furnish, ← Option.some.inj hsuffixes] at hselected
  exact ⟨course, drawn, after, rfl, hcourse,
    (hcourse.selected.unique (selected_selectedBelow ..)).trans hselected, hbuilt, hfirst, hsecond⟩

/-! A build that cannot fill a file. -/

/-- The file at the end of a path is a text in which every path has a value. -/
def Fillable (files : FileSystem) (settings : Document) (path : Path) : Prop :=
  ∃ content, files.readContent path = .ok content ∧ settings.Fills content

instance (files : FileSystem) (settings : Document) (path : Path) :
    Decidable (Fillable files settings path) :=
  match hread : files.readContent path with
  | .ok content => decidable_of_iff (settings.Fills content)
      ⟨fun h => ⟨content, hread, h⟩, fun ⟨_, hread', h⟩ => Except.ok.inj (hread.symm.trans hread') ▸ h⟩
  | .error _ => .isFalse fun ⟨_, h, _⟩ => nomatch hread.symm.trans h

theorem Prepared.readContent (h : Prepared base top before files paths selected) {names : Location}
    (hmem : names ∈ selected) :
    files.readContent (pathBelow (Layout.of base).output names) = .ok
      (contentAt before (sourceOf top names)) := by
  have hlookup : files.lookup .target _ = _ := h.holdsFile hmem (h.node?_source hmem)
  rw [FileSystem.readContent, hlookup]
  rfl

/-- The place of a file in the list is its place among what is selected, and the same files are
before it there. -/
theorem Prepared.exists_of_split (h : Prepared base top before files paths selected)
    {done rest : List Path} {path : Path} (hsplit : paths = done ++ path :: rest) :
    ∃ names, selected[done.length]? = some names ∧ pathBelow (Layout.of base).output names = path ∧
      ∀ (i : Nat) other, i < done.length → selected[i]? = some other →
        pathBelow (Layout.of base).output other ∈ done := by
  have hat : ∀ i : Nat, selected[i]?.map (pathBelow (Layout.of base).output) =
      (done ++ path :: rest)[i]? := fun i => by
    rw [← List.getElem?_map, ← h.paths_eq, hsplit]
  have hmiddle := hat done.length
  rw [List.getElem?_append_right (Nat.le_refl _), Nat.sub_self, List.getElem?_cons_zero,
    Option.map_eq_some_iff] at hmiddle
  obtain ⟨names, hnames, hpath⟩ := hmiddle
  refine ⟨names, hnames, hpath, fun i other hi hother => ?_⟩
  have hfirst := hat i
  rw [hother, List.getElem?_append_left hi] at hfirst
  exact List.mem_of_getElem? hfirst.symm

theorem Filled.fills {settings : Document} {drawn : Nat → RandomSource} {count : Nat} {after : FileSystem}
    (h : Filled top settings selected drawn count before after) {i : Nat} (hi : i < count)
    {names : Location} (hnames : selected[i]? = some names) :
    settings.Fills (contentAt before (sourceOf top names)) := by
  obtain ⟨content, body, resolved, hcontent, hbody, hresolved, -⟩ := h.filled hi hnames
  rw [contentAt, hcontent]
  exact Document.fills_of_fillContent (Document.fillContent_eq_ok_iff.2
    ⟨body, resolved, hbody, hresolved, rfl, rfl⟩)

/-- A build that has come to the files and cannot fill one of them has filled those before it, has
left all others as they are in the source tree, and fails with the reason why this one cannot be
filled. -/
theorem run_of_not_fillable {staged : Staged} {done rest : List Path} {path : Path}
    (hwf : session.files.WellFormed)
    (hlinks : ∀ location aim, session.files.tree.node? location ≠ some (.link aim))
    (hstage : (stage (.of base) options).perform session = (.ok staged, prepared))
    (hfiles : staged.files = done ++ path :: rest)
    (hdone : ∀ other ∈ done, Fillable prepared.files staged.settings other)
    (hpath : ¬Fillable prepared.files staged.settings path) :
    ∃ failure content, ∃ after furnished : Session, ∃ top selected drawn,
      (Build.run (.of base) options).perform session = (.error failure, after) ∧
      prepared.files.readContent path = .ok content ∧ staged.settings.Unfilled content failure ∧
      (furnish (.of base)).outcome session = (.ok (), furnished) ∧ furnished.files.LeadsTo base top ∧
      Selected options.recursive staged.settings.suffixes (Utf8.encode outputName) furnished.files.tree
        (top ++ [Utf8.encode sourceName]) selected ∧
      selected.Nodup ∧ staged.files = selected.map (pathBelow (Layout.of base).output) ∧
      drawn 0 = prepared.randomness ∧
      Filled top staged.settings selected drawn done.length furnished.files after.files := by
  obtain ⟨course, rfl, rfl, hcourse⟩ := exists_course hwf (rooted_of_furnish hwf hlinks) hstage
  rcases hrun : (Build.run (.of base) options).perform session with ⟨result, after⟩
  obtain ⟨drawn, count, hdrawn, -, hfilled, hend⟩ := hcourse.run hrun
  have hprepared := hcourse.prepared
  obtain ⟨failing, hfailing, hpathEq, hbefore⟩ := hprepared.exists_of_split hfiles
  have hread := hprepared.readContent (List.mem_of_getElem? hfailing)
  rw [hpathEq] at hread
  have hnot : ¬course.staged.settings.Fills
      (contentAt course.furnished.files (sourceOf _ failing)) := fun hfills =>
    hpath ⟨_, hread, hfills⟩
  have hle : count ≤ done.length := Nat.le_of_not_lt fun hlt => hnot (hfilled.fills hlt hfailing)
  rcases hend with ⟨rfl, -⟩ | ⟨failure, names, left, rfl, hnames, hfilling⟩
  · have hlt := (List.getElem?_eq_some_iff.1 hfailing).1
    omega
  have hunfilled := Document.unfilled_of_fillContent hfilling
  obtain hlt | rfl := Nat.lt_or_eq_of_le hle
  · obtain ⟨content, hread', hfills⟩ := hdone _ (hbefore count names hlt hnames)
    rw [hprepared.readContent (List.mem_of_getElem? hnames)] at hread'
    obtain rfl := Except.ok.inj hread'
    obtain ⟨filled, left', hok⟩ := Document.exists_fillContent hfills (drawn count)
    rw [hok] at hfilling
    cases hfilling
  obtain rfl := Option.some.inj (hnames.symm.trans hfailing)
  exact ⟨failure, _, after, _, _, course.selected, drawn, rfl, hread, hunfilled, hcourse.furnish,
    hcourse.rooted.leads, hcourse.selected, hprepared.nodup, hprepared.paths_eq, hdrawn, hfilled⟩

/-- The second file of the sample refers to a path without a value; the first one has been filled
before it. -/
theorem run_of_not_fillable_sample :
    ∃ (staged : Staged) (prepared after furnished : Session) (content : Content)
      (drawn : Nat → RandomSource),
    (stage (.of sampleBase) ⟨false, true, .perPlaceholder⟩).perform (sampleSession "$(mcp.q)") =
      (.ok staged, prepared) ∧
      staged.files = [.ofText "d/built/a".toList] ++ .ofText "d/built/b".toList :: [] ∧
      (Build.run (.of sampleBase) ⟨false, true, .perPlaceholder⟩).perform (sampleSession "$(mcp.q)") =
        (.error (.unknownPath "placeholder.data.q".toList), after) ∧
      prepared.files.readContent (.ofText "d/built/b".toList) = .ok content ∧
      staged.settings.Unfilled content (.unknownPath "placeholder.data.q".toList) ∧
      Filled [Utf8.encode ['d']] staged.settings
        [[Utf8.encode ['a']], [Utf8.encode ['b']]] drawn 1 furnished.files after.files ∧
      after.files.textAt (.ofText "d/built/a".toList) = .ok ['v'] ∧
      after.files.textAt (.ofText "d/built/b".toList) = .ok "$(mcp.q)".toList := by
  have hwf : (sampleSession "$(mcp.q)").files.WellFormed := by decide +kernel
  have hlinks : ∀ location aim, (sampleSession "$(mcp.q)").files.tree.node? location ≠ some (.link aim) :=
    FileTree.node?_ne_link (by decide +kernel)
  have hfiles : ((stage (.of sampleBase) ⟨false, true, .perPlaceholder⟩).perform
    (sampleSession "$(mcp.q)")).1.toOption.map
      (fun staged => (staged.files, staged.settings.suffixes)) =
        some ([.ofText "d/built/a".toList, .ofText "d/built/b".toList], []) := by decide +kernel
  have hfillable : ((stage (.of sampleBase) ⟨false, true, .perPlaceholder⟩).perform
      (sampleSession "$(mcp.q)")).1.toOption.map (fun staged =>
        let files := ((stage (.of sampleBase) ⟨false, true, .perPlaceholder⟩).perform
          (sampleSession "$(mcp.q)")).2.files
        (decide (Fillable files staged.settings (.ofText "d/built/a".toList)),
          decide (Fillable files staged.settings (.ofText "d/built/b".toList)))) = some (true, false) := by
    decide +kernel
  have hend : (((Build.run (.of sampleBase) ⟨false, true, .perPlaceholder⟩).perform
    (sampleSession "$(mcp.q)")).1,
      ((Build.run (.of sampleBase) ⟨false, true, .perPlaceholder⟩).perform
        (sampleSession "$(mcp.q)")).2.files.textAt (.ofText "d/built/a".toList),
      ((Build.run (.of sampleBase) ⟨false, true, .perPlaceholder⟩).perform
        (sampleSession "$(mcp.q)")).2.files.textAt (.ofText "d/built/b".toList)) =
      (.error (.unknownPath "placeholder.data.q".toList), .ok ['v'], .ok "$(mcp.q)".toList) := by
        decide +kernel
  rcases hstage : (stage (.of sampleBase) ⟨false, true, .perPlaceholder⟩).perform
    (sampleSession "$(mcp.q)") with
    ⟨failure | staged, prepared⟩
  · rw [hstage] at hfiles
    cases hfiles
  rw [hstage] at hfiles hfillable
  obtain ⟨hfirst, hsecond⟩ := Prod.mk.inj (Option.some.inj hfillable)
  obtain ⟨hsplit, hsuffixes⟩ := Prod.mk.inj (Option.some.inj hfiles)
  have hsplit : staged.files = [.ofText "d/built/a".toList] ++ .ofText "d/built/b".toList :: [] := hsplit
  obtain ⟨failure, content, after, furnished, top, selected, drawn, hrun, hread, hunfilled,
    hfurnish, hleads, hselected, -, -, -, hfilled⟩ := run_of_not_fillable hwf hlinks hstage hsplit
      (fun other hother => List.mem_singleton.1 hother ▸ of_decide_eq_true hfirst)
        (of_decide_eq_false hsecond)
  rw [hrun] at hend
  obtain ⟨hresult, htexts⟩ := Prod.mk.inj hend
  obtain ⟨hfilledText, hkeptText⟩ := Prod.mk.inj htexts
  obtain rfl := Except.error.inj hresult
  have hfurnished : ((furnish (.of sampleBase)).outcome (sampleSession "$(mcp.q)")).2.files.LeadsTo
    sampleBase [Utf8.encode ['d']] ∧ selectedBelow true [] (Utf8.encode outputName)
        ((furnish (.of sampleBase)).outcome (sampleSession "$(mcp.q)")).2.files.tree
          ([Utf8.encode ['d']] ++ [Utf8.encode sourceName]) =
              [[Utf8.encode ['a']], [Utf8.encode ['b']]] := by
    decide +kernel
  rw [hfurnish, ← hsuffixes] at hfurnished
  obtain rfl := hleads.unique hfurnished.1
  obtain rfl := (hselected.unique (selected_selectedBelow ..)).trans hfurnished.2
  exact ⟨staged, prepared, after, furnished, content, drawn, rfl, hsplit, hrun, hread, hunfilled,
    hfilled, hfilledText, hkeptText⟩

end Build

end ServerPack
