import ServerPack.Proofs.Build.Result
import ServerPack.Proofs.Build.Skeleton

/-!
Which secrets a run draws and what they are for. A random source is a sequence of secrets
(`RandomSource.secret`), and a run takes them one after the other. Whoever replaces the placeholders
of a body takes its turn: the settings file first, then each file that has been selected. In a turn
one secret is drawn for each path that asks for one, in the order of the paths
(`Turn.gets_of_resolveIn`), so that all requests of a run stand in one list and the secret for a
request is the one at its place (`accounted_of_run`).
-/

namespace ServerPack

namespace RandomSource

/-- The secret that a source gives after so many others. -/
def secret (source : RandomSource) (count : Nat) : Text :=
  (List.range secretLength).map fun i => character (source.draws (source.used + secretLength * count + i))

/-- The source when so many secrets have been drawn. -/
def skip (source : RandomSource) (count : Nat) : RandomSource :=
  { source with used := source.used + secretLength * count }

variable (source : RandomSource)

theorem skip_skip (count more : Nat) : (source.skip count).skip more = source.skip (count + more) := by
  simp [skip, Nat.mul_add, Nat.add_assoc]

theorem secret_skip (count more : Nat) :
    (source.skip count).secret more = source.secret (count + more) := by
  simp [secret, skip, Nat.mul_add, Nat.add_assoc]

@[simp] theorem length_secret (count : Nat) :
    (source.secret count).length = secretLength := by simp [secret]

/-- Secrets consist of ASCII letters and digits. -/
theorem isAlphanum_of_mem_secret {count : Nat} {c : Char} (h : c ∈ source.secret count) : c.isAlphanum := by
  obtain ⟨i, -, rfl⟩ := List.mem_map.1 h
  have hall : secretAlphabet.all Char.isAlphanum = true := by decide
  exact List.all_eq_true.1 hall _ (List.get_mem _ _)

end RandomSource

namespace Settings.Document

/-- A path leads to a request for a secret. -/
def AsksForSecret (document : Document) (path : Text) : Prop :=
  document.get (qualified path) = .ok (.string secretRequest)

variable {document : Document} {path : Text}

theorem value_eq_secret_iff : document.value path = .ok .secret ↔ document.AsksForSecret path := by
  rw [value, AsksForSecret]
  rcases document.get (qualified path) with failure | value
  · simp [bind, Except.bind]
  · cases value with
    | string text => by_cases hrequest : text = secretRequest <;> simp [bind, Except.bind, valueOf?,
      hrequest]
    | bool b => cases b <;> simp [bind, Except.bind, valueOf?]
    | null => simp [bind, Except.bind, valueOf?]
    | number spelling => simp [bind, Except.bind, valueOf?]
    | array items => simp [bind, Except.bind, valueOf?]
    | object members => simp [bind, Except.bind, valueOf?]

instance (document : Document) (path : Text) : Decidable (document.AsksForSecret path) :=
  decidable_of_iff _ value_eq_secret_iff

/-- A path that has a value and asks for no secret has a fixed one, and gets it without a draw. -/
theorem valueFrom_of_not_asks {randomness left : RandomSource} {value : Text}
    (hasks : ¬document.AsksForSecret path) (h : document.valueFrom path randomness = (.ok value, left)) :
    document.value path = .ok (.text value) ∧ left = randomness := by
  rw [← value_eq_secret_iff] at hasks
  rw [valueFrom] at h
  split at h
  · next hvalue =>
    cases h
    exact ⟨hvalue, rfl⟩
  · next hvalue => exact absurd hvalue hasks
  · cases h

theorem valueFrom_of_asks (hasks : document.AsksForSecret path) (randomness : RandomSource) :
    document.valueFrom path randomness = (.ok (randomness.secret 0), randomness.skip 1) := by
  rw [valueFrom, value_eq_secret_iff.2 hasks]
  rfl

end Settings.Document

/-! One turn. -/

/-- A body whose placeholders are replaced, and the settings that give their values. -/
structure Turn where
  settings : Settings.Document
  body : Text

namespace Turn

open Settings (Document)

/-- The paths of the body that ask for a secret, each once and in increasing order. -/
def asked (turn : Turn) : List Text :=
    (Placeholder.pathsIn turn.body).filter (turn.settings.AsksForSecret ·)

theorem mem_asked {turn : Turn} {path : Text} :
    path ∈ turn.asked ↔ path ∈ Placeholder.pathsIn turn.body ∧ turn.settings.AsksForSecret path := by
  rw [asked, List.mem_filter, decide_eq_true_iff]

theorem increasing_asked (turn : Turn) : turn.asked.Pairwise (· < ·) :=
  (Placeholder.increasing_pathsIn turn.body).filter _

/-- A path gets the secret at its place among those that ask for one, and any other path its fixed
value. -/
structure Gets (document : Document) (source : RandomSource) (asked : List Text)
    (entry : Resolved) : Prop where
  drawn {k : Nat} : asked[k]? = some entry.path → entry.value = source.secret k
  fixed : ¬document.AsksForSecret entry.path → document.value entry.path = .ok (.text entry.value)

/-- Paths that are resolved draw one secret for each of them that asks for one. -/
theorem gets_of_resolveFrom {document : Document} {paths : List (Text × List Form)}
    {source left : RandomSource} {resolved : List Resolved} (hnodup : (paths.map Prod.fst).Nodup)
    (h : document.resolveFrom paths source = (.ok resolved, left)) :
    let asked := (paths.map Prod.fst).filter (document.AsksForSecret ·)
    left = source.skip asked.length ∧ ∀ entry ∈ resolved, Gets document source asked entry := by
  induction paths generalizing source resolved with
  | nil =>
      cases h
      exact ⟨rfl, nofun⟩
  | cons first rest ih =>
      obtain ⟨path, forms⟩ := first
      obtain ⟨hpath, hrestNodup⟩ := List.nodup_cons.1 hnodup
      rw [Document.resolveFrom] at h
      rcases hfirst : document.valueFrom path source with ⟨failure | value, between⟩
      · rw [hfirst] at h
        cases h
      rcases hrest : document.resolveFrom rest between with ⟨failure | more, left'⟩ <;> rw [hfirst] at h <;>
        dsimp only at h <;> rw [hrest] at h <;> cases h
      obtain ⟨rfl, hmore⟩ := ih hrestNodup hrest
      have hother : ∀ entry ∈ more, entry.path ≠ path := by
        intro entry hentry heq
        refine hpath ?_
        rw [← Document.paths_of_resolveFrom hrest, List.map_map, ← heq]
        exact List.mem_map_of_mem (f := fun entry : Resolved => entry.path) hentry
      by_cases hasks : document.AsksForSecret path
      · rw [Document.valueFrom_of_asks hasks] at hfirst
        cases hfirst
        dsimp only
        rw [List.map_cons, List.filter_cons_of_pos (by simpa using hasks), List.length_cons]
        refine ⟨by rw [RandomSource.skip_skip, Nat.add_comm],
          List.forall_mem_cons.2 ⟨⟨fun {k} hk => ?_, absurd hasks⟩, ?_⟩⟩
        · cases k with
          | zero => rfl
          | succ k => exact absurd (List.mem_filter.1 (List.mem_of_getElem? hk)).1 hpath
        · refine fun entry hentry => ⟨fun {k} hk => ?_, (hmore entry hentry).fixed⟩
          cases k with
          | zero => exact absurd (Option.some.inj hk).symm (hother entry hentry)
          | succ k => rw [(hmore entry hentry).drawn hk, RandomSource.secret_skip, Nat.add_comm]
      · obtain ⟨hvalue, rfl⟩ := Document.valueFrom_of_not_asks hasks hfirst
        dsimp only
        rw [List.map_cons, List.filter_cons_of_neg (by simpa using hasks)]
        refine ⟨rfl, List.forall_mem_cons.2 ⟨⟨fun hk => ?_, fun _ => hvalue⟩, hmore⟩⟩
        exact absurd (List.mem_filter.1 (List.mem_of_getElem? hk)).1 hpath

/-- A turn draws one secret for each path that asks for one, in their order. -/
theorem gets_of_resolveIn {turn : Turn} {source left : RandomSource} {resolved : List Resolved}
    (h : turn.settings.resolveIn turn.body source = (.ok resolved, left)) :
    left = source.skip turn.asked.length ∧
    ∀ entry ∈ resolved, Gets turn.settings source turn.asked entry := by
  have hpaths : ((Placeholder.pathsIn turn.body).map fun path =>
    (path, Placeholder.formsIn turn.body path)).map Prod.fst = Placeholder.pathsIn turn.body := by
    rw [List.map_map]
    exact List.map_id _
  have hnodup : (Placeholder.pathsIn turn.body).Nodup := by
    refine (Placeholder.increasing_pathsIn turn.body).imp ?_
    rintro path _ hlt rfl
    exact Text.comparable.irrefl _ hlt
  have hgets := gets_of_resolveFrom (by rwa [hpaths]) h
  rwa [hpaths] at hgets

end Turn

/-! One turn after the other. -/

/-- The requests for secrets that turns have made, each as the number of the turn and the path: what
is left of a random source afterwards, and which of its secrets the paths have got. -/
structure Accounted (source left : RandomSource) (turns : List Turn) (resolved : Nat → List Resolved)
    (requests : List (Nat × Text)) : Prop where
  mem_iff {i : Nat} {path : Text} : (i, path) ∈ requests ↔ ∃ turn, turns[i]? = some turn ∧
    path ∈ Placeholder.pathsIn turn.body ∧ turn.settings.AsksForSecret path
  increasing : requests.Pairwise fun request later =>
    request.1 < later.1 ∨ request.1 = later.1 ∧ Utf8.encode request.2 < Utf8.encode later.2
  left_eq : left = source.skip requests.length
  paths {i : Nat} {turn : Turn} : turns[i]? = some turn →
    (resolved i).map (fun entry => (entry.path, entry.forms)) =
    (Placeholder.pathsIn turn.body).map fun path => (path, Placeholder.formsIn turn.body path)
  drawn {k i : Nat} {entry : Resolved} : requests[k]? = some (i, entry.path) → entry ∈ resolved i →
    entry.value = source.secret k
  fixed {i : Nat} {turn : Turn} {entry : Resolved} : turns[i]? = some turn → entry ∈ resolved i →
    ¬turn.settings.AsksForSecret entry.path → turn.settings.value entry.path = .ok (.text entry.value)

/-- The requests of a turn, and those of the turns after it. -/
def requestsWith (turn : Turn) (more : List (Nat × Text)) : List (Nat × Text) :=
  turn.asked.map (fun path => (0, path)) ++ more.map fun request => (request.1 + 1, request.2)

section

variable {turn : Turn} {more : List (Nat × Text)}

theorem mem_requestsWith {i : Nat} {path : Text} : (i, path) ∈ requestsWith turn more ↔
    (i = 0 ∧ path ∈ turn.asked) ∨ ∃ j, i = j + 1 ∧ (j, path) ∈ more := by
  simp only [requestsWith, List.mem_append, List.mem_map, Prod.mk.injEq, Prod.exists]
  constructor
  · rintro (⟨path, hpath, rfl, rfl⟩ | ⟨j, path, hmem, rfl, rfl⟩)
    · exact .inl ⟨rfl, hpath⟩
    · exact .inr ⟨j, rfl, hmem⟩
  · rintro (⟨rfl, hpath⟩ | ⟨j, rfl, hmem⟩)
    · exact .inl ⟨path, hpath, rfl, rfl⟩
    · exact .inr ⟨j, path, hmem, rfl, rfl⟩

/-- A request is one of the turn at its place, or it comes after all of them. -/
theorem getElem?_requestsWith {k i : Nat} {path : Text}
    (h : (requestsWith turn more)[k]? = some (i, path)) :
    (i = 0 ∧ turn.asked[k]? = some path) ∨
      ∃ j k', i = j + 1 ∧ k = turn.asked.length + k' ∧ more[k']? = some (j, path) := by
  by_cases hk : k < turn.asked.length
  · rw [requestsWith, List.getElem?_append_left (by simpa using hk), List.getElem?_map,
      Option.map_eq_some_iff] at h
    obtain ⟨path, hpath, heq⟩ := h
    obtain ⟨rfl, rfl⟩ := Prod.mk.inj heq
    exact .inl ⟨rfl, hpath⟩
  · rw [requestsWith, List.getElem?_append_right (by simpa using hk), List.getElem?_map,
      Option.map_eq_some_iff, List.length_map] at h
    obtain ⟨⟨j, path⟩, hpath, heq⟩ := h
    obtain ⟨rfl, rfl⟩ := Prod.mk.inj heq
    exact .inr ⟨j, _, rfl, (Nat.add_sub_cancel' (Nat.le_of_not_lt hk)).symm, hpath⟩

/-- Requests are made turn by turn, and in the order of the paths in each of them. -/
theorem increasing_requestsWith (h : more.Pairwise fun request later =>
      request.1 < later.1 ∨ request.1 = later.1 ∧ Utf8.encode request.2 < Utf8.encode later.2) :
    (requestsWith turn more).Pairwise fun request later =>
      request.1 < later.1 ∨ request.1 = later.1 ∧ Utf8.encode request.2 < Utf8.encode later.2 := by
  rw [requestsWith, List.pairwise_append, List.pairwise_map, List.pairwise_map]
  refine ⟨turn.increasing_asked.imp fun hlt => .inr ⟨rfl, Utf8.encode_lt_encode hlt⟩,
    h.imp fun hlater => ?_, ?_⟩
  · rcases hlater with hlt | ⟨heq, hlt⟩
    · exact .inl (Nat.succ_lt_succ hlt)
    · exact .inr ⟨congrArg (· + 1) heq, hlt⟩
  · rintro _ hrequest _ hlater
    obtain ⟨_, -, rfl⟩ := List.mem_map.1 hrequest
    obtain ⟨_, -, rfl⟩ := List.mem_map.1 hlater
    exact .inl (Nat.succ_pos _)

/-- A turn before turns that are accounted for. -/
theorem Accounted.cons {source between left : RandomSource} {rest : List Turn}
    {resolved : Nat → List Resolved}
    (hfirst : turn.settings.resolveIn turn.body source = (.ok (resolved 0), between))
    (h : Accounted between left rest (fun i => resolved (i + 1)) more) :
    Accounted source left (turn :: rest) resolved (requestsWith turn more) := by
  obtain ⟨rfl, hgets⟩ := Turn.gets_of_resolveIn hfirst
  constructor
  case mem_iff =>
    intro i path
    rw [mem_requestsWith]
    cases i with
    | zero =>
        rw [Turn.mem_asked]
        simp
    | succ i =>
        rw [List.getElem?_cons_succ, ← h.mem_iff]
        simp
  case increasing => exact increasing_requestsWith h.increasing
  case left_eq =>
    rw [requestsWith, List.length_append, List.length_map, List.length_map, ← RandomSource.skip_skip]
    exact h.left_eq
  case paths =>
    intro i turn' hturn
    cases i with
    | zero =>
        obtain rfl := Option.some.inj hturn
        exact Settings.Document.paths_of_resolveFrom hfirst
    | succ i => exact h.paths hturn
  case drawn =>
    intro k i entry hrequest hentry
    rcases getElem?_requestsWith hrequest with ⟨rfl, hpath⟩ | ⟨j, k', rfl, rfl, hpath⟩
    · exact (hgets entry hentry).drawn hpath
    · rw [h.drawn hpath hentry, RandomSource.secret_skip]
  case fixed =>
    intro i turn' entry hturn hentry
    cases i with
    | zero =>
        obtain rfl := Option.some.inj hturn
        exact (hgets entry hentry).fixed
    | succ i => exact h.fixed hturn hentry

end

/-- The requests of turns, turn by turn. -/
def requestsOf : List Turn → List (Nat × Text)
  | [] => []
  | turn :: rest => requestsWith turn (requestsOf rest)

/-- Turns that each find the randomness which the one before has left. -/
theorem accounted_requestsOf {turns : List Turn} {resolved : Nat → List Resolved}
    {drawn : Nat → RandomSource} (h : ∀ i turn, turns[i]? = some turn →
      turn.settings.resolveIn turn.body (drawn i) = (.ok (resolved i), drawn (i + 1))) :
    Accounted (drawn 0) (drawn turns.length) turns resolved (requestsOf turns) := by
  induction turns generalizing resolved drawn with
  | nil => exact ⟨by simp [requestsOf], .nil, rfl, by simp, by simp [requestsOf], by simp⟩
  | cons turn rest ih =>
      have hrest := @ih (fun i => resolved (i + 1)) (fun i => drawn (i + 1)) fun i turn hturn =>
        h (i + 1) turn hturn
      exact .cons (h 0 turn rfl) hrest

/-! A run. -/

namespace Build

variable {session prepared after : Session} {base : Path} {top : Location} {options : Options}

/-- The text of the file at a place, which is empty if it is no text. -/
def bodyAt (files : FileSystem) (location : Location) : Text :=
  (Utf8.decode? (contentAt files location).bytes).getD []

/-- What is resolved for one of several bodies, which each find the randomness drawn so far. -/
def resolvedAt (settings : Settings.Document) (bodies : List Text) (drawn : Nat → RandomSource)
    (i : Nat) : List Resolved :=
  (settings.resolveIn (bodies[i]?.getD []) (drawn i)).1.toOption.getD []

/-- What a file holds before and after its turn. -/
theorem Filled.turn {settings : Settings.Document} {selected : List Location} {drawn : Nat → RandomSource}
    {count : Nat} {before after : FileSystem}
    (h : Filled top settings selected drawn count before after) {i : Nat} {names : Location}
    (hi : i < count) (hnames : selected[i]? = some names) :
    let body := bodyAt before (sourceOf top names)
    let resolved := resolvedAt settings (selected.map fun names =>
      bodyAt before (sourceOf top names)) drawn i
    ∃ content content', before.tree.node? (sourceOf top names) = some (.file content) ∧
      Utf8.decode? content.bytes = some body ∧
      settings.resolveIn body (drawn i) = (.ok resolved, drawn (i + 1)) ∧
      after.tree.node? (outputOf top names) = some (.file content') ∧
      Utf8.decode? content'.bytes = some (Substitution.putAll
        (Placeholder.occurringIn body) resolved body) := by
  obtain ⟨content, body, resolved, hnode, hbody, hresolved, hafter⟩ := h.filled hi hnames
  have hcontent : contentAt before (sourceOf top names) = content := by rw [contentAt, hnode]
  obtain rfl : bodyAt before (sourceOf top names) = body := by
    rw [bodyAt, hcontent, hbody, Option.getD_some]
  have hentries : resolvedAt settings (selected.map fun names => bodyAt before (sourceOf top names))
      drawn i = resolved := by
    rw [resolvedAt, List.getElem?_map, hnames, Option.map_some, Option.getD_some, hresolved]
    rfl
  rw [hentries]
  refine ⟨content, _, hnode, hbody, hresolved, hafter, ?_⟩
  split
  · next hnone =>
    rw [(Settings.Document.eq_nil_iff_of_resolveIn hresolved).2 hnone]
    exact hbody
  · rw [Content.bytes, Utf8.decode?_encode]

/-- The turns of a build: the settings file has the first one, and the files have theirs after it
with these bodies. -/
def Course.turns (course : Course) (bodies : List Text) : List Turn :=
  ⟨course.document, course.raw⟩ :: bodies.map fun body => ⟨course.staged.settings, body⟩

/-- The texts of the files that a build has found, as they are in the source tree. -/
def Course.bodies (course : Course) (top : Location) : List Text :=
  course.selected.map fun names => bodyAt course.furnished.files (sourceOf top names)

/-- What is resolved turn by turn: for the settings file what the course says, and then file by
file. -/
def Course.resolved (course : Course) (bodies : List Text) (drawn : Nat → RandomSource) :
    Nat → List Resolved
  | 0 => course.own
  | i + 1 => resolvedAt course.staged.settings bodies drawn i

/-- The turns of a build that has filled all files are accounted for: the settings file finds the
randomness of the session, and each file what the turns before it have left. -/
theorem Course.Taken.accounted {course : Course} (h : course.Taken base top options session)
    {drawn : Nat → RandomSource} {files : FileSystem} (hdrawn : drawn 0 = course.prepared.randomness)
    (hfilled : Filled top course.staged.settings course.selected drawn course.selected.length
      course.furnished.files files) :
    Accounted session.randomness (drawn course.selected.length) (course.turns (course.bodies top))
      (course.resolved (course.bodies top) drawn) (requestsOf (course.turns (course.bodies top))) := by
  have hresolved : ∀ i turn, (course.turns (course.bodies top))[i]? = some turn →
      turn.settings.resolveIn turn.body (i.casesOn session.randomness drawn) =
        (.ok (course.resolved (course.bodies top) drawn i), drawn i) := by
    intro i turn hi
    cases i with
    | zero =>
        obtain rfl := Option.some.inj hi
        rw [hdrawn]
        exact h.own
    | succ i =>
        rw [Course.turns, Course.bodies, List.getElem?_cons_succ, List.map_map, List.getElem?_map,
          Option.map_eq_some_iff] at hi
        obtain ⟨names, hnames, rfl⟩ := hi
        obtain ⟨-, -, -, -, hturn, -⟩ := hfilled.turn (List.getElem?_eq_some_iff.1 hnames).1 hnames
        exact hturn
  have hlength : (course.turns (course.bodies top)).length = course.selected.length + 1 := by
    simp [Course.turns, Course.bodies]
  have haccounted := @accounted_requestsOf _ _ (fun i => i.casesOn session.randomness drawn) hresolved
  rw [hlength] at haccounted
  exact haccounted

/-- The texts of a file that has had its turn, by the path in the list of files. -/
theorem Course.Taken.texts {course : Course} (h : course.Taken base top options session) {names : Location}
    (hmem : names ∈ course.selected) {content content' : Content} {body text : Text}
    (hroot : after.files.Rooted base top)
    (hnode : course.furnished.files.tree.node? (sourceOf top names) = some (.file content))
    (hbody : Utf8.decode? content.bytes = some body)
    (hafter : after.files.tree.node? (outputOf top names) = some (.file content'))
    (htext : Utf8.decode? content'.bytes = some text) :
    course.prepared.files.textAt (pathBelow (Layout.of base).output names) = .ok body ∧
      after.files.textAt (pathBelow (Layout.of base).output names) = .ok text := by
  have hbefore := h.prepared.holdsFile hmem hnode
  obtain ⟨-, husable, -⟩ := h.prepared.file hmem
  have hheld : after.files.HoldsFile (pathBelow (Layout.of base).output names)
      (outputOf top names) content' :=
    FileSystem.lookup_below hroot plain_outputName hafter husable
  exact ⟨by rw [hbefore.textAt, hbody], by rw [hheld.textAt, htext]⟩

/-- A run that succeeds draws secrets for the paths in the settings file that ask for one, and then,
file by file, for those in the files that it has selected, which ask the settings it has read. It
draws no others. In each body every form of a path is replaced by the same value, which is the
secret at the place of its request or the fixed value of the path. -/
theorem accounted_of_run {report : Report} (hwf : session.files.WellFormed)
    (hfree : session.files.tree.LinkFree)
    (h : (run (.of base) options).perform session = (.ok report, after)) :
    (∀ k, (session.randomness.secret k).length = 16 ∧ ∀ c ∈ session.randomness.secret k, c.isAlphanum) ∧
    ∃ (course : Course) (bodies : List Text) (resolved : Nat → List Resolved),
      course.Taken base (session.files.home base) options session ∧ resolved 0 = course.own ∧
      Accounted session.randomness after.randomness (course.turns bodies) resolved
        (requestsOf (course.turns bodies)) ∧
      bodies.length = course.staged.files.length ∧
      ∀ i path, course.staged.files[i]? = some path → ∃ body, bodies[i]? = some body ∧
        course.prepared.files.textAt path = .ok body ∧
        after.files.textAt path = .ok (Substitution.putAll (Placeholder.occurringIn body)
          (resolved (i + 1)) body) := by
  refine ⟨fun k => ⟨RandomSource.length_secret _ _, fun _ => RandomSource.isAlphanum_of_mem_secret _⟩, ?_⟩
  obtain ⟨course, drawn, hcourse, hdrawn, hleft, hroot, hfilled, -⟩ :=
    exists_course_of_run hwf (rooted_of_furnish hwf hfree) h
  generalize session.files.home base = top at *
  refine ⟨course, course.bodies top, course.resolved (course.bodies top) drawn, hcourse, rfl,
    hleft ▸ hcourse.accounted hdrawn hfilled, ?_, fun i path hpath => ?_⟩
  · rw [hcourse.prepared.paths_eq, Course.bodies, List.length_map, List.length_map]
  rw [hcourse.prepared.paths_eq, List.getElem?_map, Option.map_eq_some_iff] at hpath
  obtain ⟨names, hnames, rfl⟩ := hpath
  obtain ⟨content, content', hnode, hbody, -, hafter, htext⟩ :=
    hfilled.turn (List.getElem?_eq_some_iff.1 hnames).1 hnames
  obtain ⟨hbefore, hend⟩ := hcourse.texts (List.mem_of_getElem? hnames) hroot hnode hbody hafter htext
  have hbodyAt : (course.bodies top)[i]? = some (bodyAt course.furnished.files (sourceOf top names)) := by
    rw [Course.bodies, List.getElem?_map, hnames]
    rfl
  exact ⟨_, hbodyAt, hbefore, hend⟩

/-- The settings of a data directory that ask for a secret and refer to it. -/
def secretsRaw : Text :=
  "\x7b\"placeholder\":\x7b\"data\":\x7b\"s\":\"$(velocity.secret)\",\"t\":\"$(mcp.s)\"\x7d\x7d\x7d".toList

/-- Two files that use both paths. The source gives `A` sixteen times, then `B` sixteen times, and
so on. -/
def secretsSession : Session :=
  { sampleSession "" with
    files := {
      tree :=
        let text (content : Text) : Node := .file (.plain (Utf8.encode content))
        let nodes : List (List String × Node) := [
          (["d"], .directory), (["d", "default"], .directory),
          (["d", "default", "a"], text "$(mcp.s)\"$(mcp.s)(number)\"".toList),
          (["d", "default", "b"], text "$(mcp.s)$(mcp.t)".toList),
          (["d", "build.setting.json"], text secretsRaw)]
        nodes.foldl (fun tree (names, node) =>
          tree.insert (names.map fun name => Utf8.encode name.toList) node) .empty
      current := [] }
    randomness := ⟨fun i => ⟨i / secretLength % 62, Nat.mod_lt _ (by decide)⟩, 0⟩ }

/-- The settings file and both files ask for one secret each. In the first file it takes the place
of both forms, and the second one gets the secret of the settings file besides, which has become
ordinary text there. -/
theorem accounted_of_run_secrets : ∃ (course : Course) (bodies : List Text) (resolved : Nat → List Resolved)
      (after : Session),
    (run (.of sampleBase) ⟨false, true, .once⟩).perform secretsSession = (.ok ⟨2, 2, 4, []⟩, after) ∧
      course.Taken sampleBase (secretsSession.files.home sampleBase) ⟨false, true, .once⟩ secretsSession ∧
      course.raw = secretsRaw ∧ bodies = ["$(mcp.s)\"$(mcp.s)(number)\"".toList,
        "$(mcp.s)$(mcp.t)".toList] ∧
      Accounted secretsSession.randomness after.randomness (course.turns bodies) resolved
        [(0, ['s']), (1, ['s']), (2, ['s'])] ∧
      after.files.textAt (.ofText "d/built/a".toList) = .ok (List.replicate 32 'B') ∧
      after.files.textAt (.ofText "d/built/b".toList) = .ok
        (List.replicate 16 'C' ++ List.replicate 16 'A') := by
  have hwf : secretsSession.files.WellFormed := by decide +kernel
  have hlinks : ∀ location aim, secretsSession.files.tree.node? location ≠ some (.link aim) :=
    FileTree.node?_ne_link (by decide +kernel)
  have hend : (((run (.of sampleBase) ⟨false, true, .once⟩).perform secretsSession).1,
      ((run (.of sampleBase) ⟨false, true, .once⟩).perform secretsSession).2.files.textAt
        (.ofText "d/built/a".toList),
      ((run (.of sampleBase) ⟨false, true, .once⟩).perform secretsSession).2.files.textAt
        (.ofText "d/built/b".toList)) =
      (.ok ⟨2, 2, 4, []⟩, .ok (List.replicate 32 'B'),
          .ok (List.replicate 16 'C' ++ List.replicate 16 'A')) := by
    decide +kernel
  rcases hrun : (run (.of sampleBase) ⟨false, true, .once⟩).perform secretsSession with ⟨result, after⟩
  rw [hrun] at hend
  obtain ⟨hresult, htexts⟩ := Prod.mk.inj hend
  obtain ⟨hfirst, hsecond⟩ := Prod.mk.inj htexts
  obtain rfl : result = .ok ⟨2, 2, 4, []⟩ := hresult
  obtain ⟨-, course, bodies, resolved, hcourse, -, haccounted, hlength, hbodies⟩ :=
    accounted_of_run hwf hlinks hrun
  have hraw : ((furnish (.of sampleBase)).outcome secretsSession).2.files.textAt
    (Layout.of sampleBase).settings = .ok secretsRaw := by decide +kernel
  rw [hcourse.furnish] at hraw
  obtain hraw : course.raw = secretsRaw := Except.ok.inj (hcourse.raw.symm.trans hraw)
  -- What is found when the files have been listed can be computed, so the bodies and their requests
  -- are known.
  have hstage : (((stage (.of sampleBase) ⟨false, true, .once⟩).perform
    secretsSession).1.toOption.map Staged.files,
      ((stage (.of sampleBase) ⟨false, true, .once⟩).perform secretsSession).2.files.textAt
        (.ofText "d/built/a".toList),
      ((stage (.of sampleBase) ⟨false, true, .once⟩).perform secretsSession).2.files.textAt
        (.ofText "d/built/b".toList)) =
      (some [.ofText "d/built/a".toList, .ofText "d/built/b".toList],
        .ok "$(mcp.s)\"$(mcp.s)(number)\"".toList, .ok "$(mcp.s)$(mcp.t)".toList) := by decide +kernel
  have hrequests : ((Settings.parse secretsRaw).toOption.bind fun document =>
      ((stage (.of sampleBase) ⟨false, true, .once⟩).perform secretsSession).1.toOption.map fun staged =>
        requestsOf (⟨document, secretsRaw⟩ ::
          ["$(mcp.s)\"$(mcp.s)(number)\"".toList, "$(mcp.s)$(mcp.t)".toList].map
            fun body => ⟨staged.settings, body⟩)) =
      some [(0, ['s']), (1, ['s']), (2, ['s'])] := by decide +kernel
  rw [hcourse.stage] at hstage hrequests
  rw [← hraw, hcourse.document] at hrequests
  obtain ⟨hfiles, hsources⟩ := Prod.mk.inj hstage
  obtain ⟨hfirstSource, hsecondSource⟩ := Prod.mk.inj hsources
  have hfiles : course.staged.files = [.ofText "d/built/a".toList, .ofText "d/built/b".toList] :=
    Option.some.inj hfiles
  rw [hfiles] at hlength hbodies
  obtain ⟨first, second, rfl⟩ := List.length_eq_two.1 hlength
  obtain ⟨_, hfirstBody, hread, -⟩ := hbodies 0 _ rfl
  obtain rfl := (Option.some.inj hfirstBody).trans (Except.ok.inj (hread.symm.trans hfirstSource))
  obtain ⟨_, hsecondBody, hread', -⟩ := hbodies 1 _ rfl
  obtain rfl := (Option.some.inj hsecondBody).trans (Except.ok.inj (hread'.symm.trans hsecondSource))
  have hrequests : requestsOf (course.turns
    ["$(mcp.s)\"$(mcp.s)(number)\"".toList, "$(mcp.s)$(mcp.t)".toList]) =
    [(0, ['s']), (1, ['s']), (2, ['s'])] := Option.some.inj hrequests
  rw [hrequests] at haccounted
  exact ⟨course, _, resolved, after, rfl, hcourse, hraw, rfl, haccounted, hfirst, hsecond⟩

end Build

end ServerPack
