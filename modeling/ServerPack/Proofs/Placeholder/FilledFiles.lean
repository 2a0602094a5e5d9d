import Mathlib.Data.List.Basic
import ServerPack.Proofs.Build.Stages
import ServerPack.Proofs.Placeholder.ByPath
import ServerPack.Proofs.Placeholder.FileSubstitution

/-!
Filling one file after the other. `fillContent` is what the placeholders in a content become: it
fails where the content is no text or a path has no value, and then with the first such path
(`fillContent_of_unfilled`); whether it fails does not depend on randomness. `fillAll` goes on
through a list of contents until the first failure. The loop of a build does the same to files that
can be found, each with an own location, and leaves everything else (`outcome_mapM_substituteFile`).
-/

namespace ServerPack

namespace Settings.Document

variable {document : Document}

/-- A path has a value. -/
def Knows (document : Document) (path : Text) : Prop := ∃ value, document.value path = .ok value

instance (document : Document) (path : Text) : Decidable (document.Knows path) :=
  match hvalue : document.value path with
  | .ok value => .isTrue ⟨value, hvalue⟩
  | .error _ => .isFalse fun ⟨_, h⟩ => nomatch hvalue.symm.trans h

theorem valueFrom_eq_ok_iff {path : Text} {randomness : RandomSource} :
    (∃ text, (document.valueFrom path randomness).1 = .ok text) ↔ document.Knows path := by
  rw [valueFrom, Knows]
  rcases document.value path with failure | _ | _ <;> simp

theorem valueFrom_of_error {path : Text} {failure : Failure} (h : document.value path = .error failure)
    (randomness : RandomSource) : document.valueFrom path randomness = (.error failure, randomness) := by
  rw [valueFrom, h]

/-- All paths are resolved if each of them has a value. -/
theorem exists_resolveFrom {paths : List (Text × List Form)} (h : ∀ entry ∈ paths, document.Knows entry.1)
    (randomness : RandomSource) :
    ∃ resolved randomness', document.resolveFrom paths randomness = (.ok resolved, randomness') := by
  induction paths generalizing randomness with
  | nil => exact ⟨[], randomness, rfl⟩
  | cons first rest ih =>
      obtain ⟨path, forms⟩ := first
      obtain ⟨value, hvalue⟩ := valueFrom_eq_ok_iff.2 (h _ List.mem_cons_self)
      obtain ⟨resolved, randomness', hrest⟩ :=
        ih (fun entry hentry => h entry (List.mem_cons_of_mem _ hentry))
          (document.valueFrom path randomness).2
      have hfirst : document.valueFrom path randomness =
          (.ok value, (document.valueFrom path randomness).2) :=
        Prod.ext hvalue rfl
      refine ⟨⟨path, forms, value⟩ :: resolved, randomness', ?_⟩
      rw [resolveFrom, hfirst]
      dsimp only
      rw [hrest]

/-- What has been resolved are the paths in their order, each of them once. -/
theorem paths_of_resolveFrom {paths : List (Text × List Form)} {randomness randomness' : RandomSource}
    {resolved : List Resolved} (h : document.resolveFrom paths randomness = (.ok resolved, randomness')) :
    resolved.map (fun entry => (entry.path, entry.forms)) = paths := by
  induction paths generalizing randomness resolved with
  | nil =>
      cases h
      rfl
  | cons first rest ih =>
      obtain ⟨path, forms⟩ := first
      rw [resolveFrom] at h
      rcases hfirst : document.valueFrom path randomness with ⟨failure | value, between⟩
      · rw [hfirst] at h
        cases h
      rcases hrest : document.resolveFrom rest between with ⟨failure | more, left⟩ <;> rw [hfirst] at h <;>
        dsimp only at h <;> rw [hrest] at h <;> cases h
      rw [List.map_cons, ih hrest]

/-- Resolving stops at the first path without a value. -/
theorem resolveFrom_of_error {known unknown : List (Text × List Form)} {path : Text} {forms : List Form}
    {failure : Failure} (hknown : ∀ entry ∈ known, document.Knows entry.1)
    (hpath : document.value path = .error failure) (randomness : RandomSource) :
    ∃ randomness', document.resolveFrom (known ++ (path, forms) :: unknown) randomness =
      (.error failure, randomness') := by
  induction known generalizing randomness with
  | nil =>
      refine ⟨randomness, ?_⟩
      rw [List.nil_append, resolveFrom, valueFrom_of_error hpath]
  | cons first rest ih =>
      obtain ⟨other, forms'⟩ := first
      obtain ⟨value, hvalue⟩ := valueFrom_eq_ok_iff.2 (hknown _ List.mem_cons_self)
      obtain ⟨randomness', hrest⟩ := ih (fun entry hentry => hknown entry (List.mem_cons_of_mem _ hentry))
        (document.valueFrom other randomness).2
      have hfirst : document.valueFrom other randomness =
          (.ok value, (document.valueFrom other randomness).2) :=
        Prod.ext hvalue rfl
      refine ⟨randomness', ?_⟩
      rw [List.cons_append, resolveFrom, hfirst]
      dsimp only
      rw [hrest]

/-- The paths that occur in a body, resolved in increasing order, each of them once. -/
def resolveIn (document : Document) (body : Text) (randomness : RandomSource) :
    Except Failure (List Resolved) × RandomSource :=
  document.resolveFrom ((Placeholder.pathsIn body).map fun path =>
    (path, Placeholder.formsIn body path)) randomness

/-- A body in which all paths have values is resolved. -/
theorem exists_resolveIn {body : Text} (h : ∀ path ∈ Placeholder.pathsIn body, document.Knows path)
    (randomness : RandomSource) :
    ∃ resolved randomness', document.resolveIn body randomness = (.ok resolved, randomness') := by
  refine exists_resolveFrom (fun entry hentry => ?_) randomness
  obtain ⟨path, hpath, rfl⟩ := List.mem_map.1 hentry
  exact h path hpath

/-- Each path of the body has been resolved, and nothing else has. -/
theorem mem_pathsIn_iff_of_resolveIn {body : Text} {randomness randomness' : RandomSource}
    {resolved : List Resolved}
    (h : document.resolveIn body randomness = (.ok resolved, randomness')) {path : Text} :
    path ∈ Placeholder.pathsIn body ↔ ∃ entry ∈ resolved, entry.path = path := by
  have hpaths := congrArg (List.map Prod.fst) (paths_of_resolveFrom h)
  rw [List.map_map, List.map_map] at hpaths
  rw [← List.map_id (Placeholder.pathsIn body)]
  exact (iff_of_eq (congrArg (path ∈ ·) hpaths.symm)).trans List.mem_map

theorem forms_of_resolveIn {body : Text} {randomness randomness' : RandomSource} {resolved : List Resolved}
    (h : document.resolveIn body randomness = (.ok resolved, randomness')) {entry : Resolved}
    (hentry : entry ∈ resolved) :
    entry.forms = Placeholder.formsIn body entry.path := by
  have hmem : (entry.path, entry.forms) ∈ resolved.map fun entry => (entry.path, entry.forms) :=
    List.mem_map.2 ⟨entry, hentry, rfl⟩
  rw [paths_of_resolveFrom h] at hmem
  obtain ⟨path, -, heq⟩ := List.mem_map.1 hmem
  obtain ⟨rfl, hforms⟩ := Prod.mk.inj heq
  exact hforms.symm

/-- What has been resolved for a body is put in literal by literal. -/
theorem fill_eq_putAll {body : Text} {randomness randomness' : RandomSource} {resolved : List Resolved}
    (h : document.resolveIn body randomness = (.ok resolved, randomness')) :
    fill resolved body = Substitution.putAll (Placeholder.occurringIn body) resolved body := by
  have hforms : ∀ entry ∈ resolved, entry.forms = Placeholder.formsAmong
      (Placeholder.occurringIn body) entry.path :=
    fun entry hentry => forms_of_resolveIn h hentry
  rw [fill, Substitution.putAll]
  exact List.foldl_ext _ _ _ fun text entry hentry => Resolved.replaceIn_eq_putIn (hforms entry hentry) text

theorem eq_nil_iff_of_resolveIn {body : Text} {randomness randomness' : RandomSource}
    {resolved : List Resolved} (h : document.resolveIn body randomness = (.ok resolved, randomness')) :
    resolved = [] ↔ Placeholder.occurringIn body = [] := by
  have hpaths := paths_of_resolveFrom h
  rw [← Placeholder.pathsIn_eq_nil_iff, ← List.map_eq_nil_iff, hpaths, List.map_eq_nil_iff]

/-- What a content becomes when the paths in it have been resolved and are replaced path by path:
the number of its placeholders and the new content. -/
def fillContent (document : Document) (content : Content) (randomness : RandomSource) :
    Except Failure (Nat × Content) × RandomSource :=
  match Utf8.decode? content.bytes with
  | none => (.error (.io .invalidUtf8), randomness)
  | some body =>
    match document.resolveIn body randomness with
    | (.ok resolved, randomness) =>
      (.ok ((Placeholder.occurringIn body).length,
        if Placeholder.occurringIn body = [] then content else .plain
          (Utf8.encode (fill resolved body))), randomness)
    | (.error failure, randomness) => (.error failure, randomness)

theorem fillContent_eq_ok_iff {content content' : Content} {count : Nat} {randomness left : RandomSource} :
    document.fillContent content randomness = (.ok (count, content'), left) ↔
      ∃ body resolved, Utf8.decode? content.bytes = some body ∧
        document.resolveIn body randomness = (.ok resolved, left) ∧
        count = (Placeholder.occurringIn body).length ∧
        content' = if Placeholder.occurringIn body = [] then content else .plain
          (Utf8.encode (fill resolved body)) := by
  rw [fillContent]
  constructor
  · intro h
    split at h
    · cases h
    · next body hbody =>
      rcases hresolved : document.resolveIn body randomness with ⟨failure | resolved, randomness'⟩ <;>
        rw [hresolved] at h <;> cases h
      exact ⟨body, resolved, hbody, hresolved, rfl, rfl⟩
  · rintro ⟨body, resolved, hbody, hresolved, rfl, rfl⟩
    rw [hbody]
    dsimp only
    rw [hresolved]

/-- What the contents of files become one after the other: those that could be filled, the failure
that ended it and the randomness that is left. -/
def fillAll (document : Document) : List Content → RandomSource →
    List (Nat × Content) × Option Failure × RandomSource
  | [], randomness => ([], none, randomness)
  | content :: rest, randomness =>
    match document.fillContent content randomness with
    | (.ok filled, randomness) =>
      match fillAll document rest randomness with
      | (more, failure?, randomness) => (filled :: more, failure?, randomness)
    | (.error failure, randomness) => ([], some failure, randomness)

/-- Each content is filled with the randomness that the one before it has left. -/
theorem exists_drawn {α : Type} {contentOf : α → Content} {chosen : List α} {randomness left : RandomSource}
    {filled : List (Nat × Content)} {failure? : Option Failure}
    (h : document.fillAll (chosen.map contentOf) randomness = (filled, failure?, left)) :
    ∃ drawn : Nat → RandomSource, drawn 0 = randomness ∧ filled.length ≤ chosen.length ∧
      (∀ i done, filled[i]? = some done → ∃ a, chosen[i]? = some a ∧
        document.fillContent (contentOf a) (drawn i) = (.ok done, drawn (i + 1))) ∧
      (failure? = none → filled.length = chosen.length ∧ left = drawn filled.length) ∧
      ∀ failure, failure? = some failure → ∃ a, chosen[filled.length]? = some a ∧
        document.fillContent (contentOf a) (drawn filled.length) = (.error failure, left) := by
  induction chosen generalizing randomness filled with
  | nil =>
      cases h
      exact ⟨fun _ => left, rfl, Nat.le_refl _, nofun, fun _ => ⟨rfl, rfl⟩, nofun⟩
  | cons a rest ih =>
      rw [List.map_cons, fillAll] at h
      rcases hfirst : document.fillContent (contentOf a) randomness with ⟨failure | done, between⟩
      · rw [hfirst] at h
        cases h
        refine ⟨fun _ => randomness, rfl, Nat.zero_le _, nofun, nofun, fun failure' hfailure =>
          ⟨a, rfl, ?_⟩⟩
        rw [hfirst, Option.some.inj hfailure]
      rcases hmore : document.fillAll (rest.map contentOf) between with ⟨more, failure', left'⟩
      rw [hfirst] at h
      dsimp only at h
      rw [hmore] at h
      cases h
      obtain ⟨drawn, hdrawn, hle, hfilled, hall, hend⟩ := ih hmore
      refine ⟨fun i => i.casesOn randomness drawn, rfl, Nat.succ_le_succ hle, fun i other hother => ?_,
        fun hnone => ⟨congrArg (· + 1) (hall hnone).1, (hall hnone).2⟩, hend⟩
      cases i with
      | zero =>
          obtain rfl := Option.some.inj hother
          exact ⟨a, rfl, hfirst.trans (by rw [← hdrawn])⟩
      | succ i => exact hfilled i other hother

/-- A content is a text in which every path has a value. -/
def Fills (document : Document) (content : Content) : Prop :=
  ∃ body, Utf8.decode? content.bytes = some body ∧ ∀ path ∈ Placeholder.pathsIn body, document.Knows path

instance (document : Document) (content : Content) : Decidable (document.Fills content) :=
  match hbody : Utf8.decode? content.bytes with
  | none => .isFalse fun ⟨_, h, _⟩ => nomatch hbody.symm.trans h
  | some body => decidable_of_iff (∀ path ∈ Placeholder.pathsIn body, document.Knows path)
      ⟨fun h => ⟨body, hbody, h⟩, fun ⟨_, hbody', h⟩ => Option.some.inj (hbody.symm.trans hbody') ▸ h⟩

/-- Why a content cannot be filled: it is no text, or this is the smallest of its paths that has no
value. -/
inductive Unfilled (document : Document) (content : Content) : Failure → Prop
  | notText : Utf8.decode? content.bytes = none → Unfilled document content (.io .invalidUtf8)
  | noValue {body path failure} : Utf8.decode? content.bytes = some body → path ∈ Placeholder.pathsIn body →
      document.value path = .error failure →
      (∀ other ∈ Placeholder.pathsIn body, other < path → document.Knows other) →
      Unfilled document content failure

theorem exists_fillContent {content : Content} (h : document.Fills content) (randomness : RandomSource) :
    ∃ filled randomness', document.fillContent content randomness = (.ok filled, randomness') := by
  obtain ⟨body, hbody, hknown⟩ := h
  obtain ⟨resolved, randomness', hresolved⟩ := exists_resolveIn hknown randomness
  exact ⟨_, randomness', fillContent_eq_ok_iff.2 ⟨body, resolved, hbody, hresolved, rfl, rfl⟩⟩

theorem fillContent_of_unfilled {content : Content} {failure : Failure}
    (h : document.Unfilled content failure) (randomness : RandomSource) :
    ∃ randomness', document.fillContent content randomness = (.error failure, randomness') := by
  cases h with
  | notText hbody =>
      rw [fillContent, hbody]
      exact ⟨randomness, rfl⟩
  | @noValue body path _ hbody hpath hvalue hsmaller =>
      obtain ⟨before, behind, hpaths⟩ := List.append_of_mem hpath
      have hincreasing := Placeholder.increasing_pathsIn body
      rw [hpaths, List.pairwise_append] at hincreasing
      have hknown : ∀ entry ∈ before.map fun path => (path, Placeholder.formsIn body path),
          document.Knows entry.1 := by
        intro entry hentry
        obtain ⟨other, hother, rfl⟩ := List.mem_map.1 hentry
        exact hsmaller other (hpaths ▸ List.mem_append_left _ hother)
          (hincreasing.2.2 other hother path List.mem_cons_self)
      rw [fillContent, hbody]
      dsimp only
      rw [resolveIn, hpaths, List.map_append, List.map_cons]
      obtain ⟨randomness', herror⟩ := resolveFrom_of_error hknown hvalue randomness
      rw [herror]
      exact ⟨randomness', rfl⟩

theorem exists_first_of_not_forall {α : Type} {p : α → Prop} {l : List α} (h : ¬∀ a ∈ l, p a) :
    ∃ before a behind, l = before ++ a :: behind ∧ (∀ b ∈ before, p b) ∧ ¬p a := by
  induction l with
  | nil => exact absurd nofun h
  | cons first rest ih =>
      by_cases hfirst : p first
      · have hrest : ¬∀ a ∈ rest, p a := fun hall => h (List.forall_mem_cons.2 ⟨hfirst, hall⟩)
        obtain ⟨before, a, behind, rfl, hbefore, ha⟩ := ih hrest
        exact ⟨first :: before, a, behind, rfl, List.forall_mem_cons.2 ⟨hfirst, hbefore⟩, ha⟩
      · exact ⟨[], first, rest, rfl, nofun, hfirst⟩

/-- What cannot be filled has a reason for it. -/
theorem exists_unfilled {content : Content} (h : ¬document.Fills content) :
    ∃ failure, document.Unfilled content failure := by
  cases hbody : Utf8.decode? content.bytes with
  | none => exact ⟨_, .notText hbody⟩
  | some body =>
      have hunknown : ¬∀ path ∈ Placeholder.pathsIn body, document.Knows path :=
        fun hall => h ⟨body, hbody, hall⟩
      obtain ⟨before, path, behind, hpaths, hknown, hpath⟩ := exists_first_of_not_forall hunknown
      cases hvalue : document.value path with
      | ok value => exact absurd ⟨value, hvalue⟩ hpath
      | error failure =>
          have hincreasing := Placeholder.increasing_pathsIn body
          rw [hpaths, List.pairwise_append] at hincreasing
          refine ⟨failure, .noValue hbody (hpaths ▸ by simp) hvalue fun other hother hlt => ?_⟩
          rw [hpaths] at hother
          rcases List.mem_append.1 hother with hother | hother
          · exact hknown other hother
          rcases List.mem_cons.1 hother with rfl | hother
          · exact absurd hlt (Text.comparable.irrefl _)
          · have hgt := (List.pairwise_cons.1 hincreasing.2.1).1 other hother
            exact absurd (Text.comparable.trans hlt hgt) (Text.comparable.irrefl _)

/-- Whose paths can be resolved can be filled. -/
theorem fills_of_fillContent {content : Content} {filled : Nat × Content} {randomness left : RandomSource}
    (h : document.fillContent content randomness = (.ok filled, left)) : document.Fills content := by
  refine Classical.byContradiction fun hnot => ?_
  obtain ⟨failure, hunfilled⟩ := exists_unfilled hnot
  obtain ⟨left', herror⟩ := fillContent_of_unfilled hunfilled randomness
  rw [herror] at h
  cases h

/-- What cannot be filled fails with the reason for it. -/
theorem unfilled_of_fillContent {content : Content} {failure : Failure} {randomness left : RandomSource}
    (h : document.fillContent content randomness = (.error failure, left)) :
    document.Unfilled content failure := by
  have hnot : ¬document.Fills content := by
    intro hfills
    obtain ⟨filled, left', hok⟩ := exists_fillContent hfills randomness
    rw [hok] at h
    cases h
  obtain ⟨failure', hunfilled⟩ := exists_unfilled hnot
  obtain ⟨left', herror⟩ := fillContent_of_unfilled hunfilled randomness
  rw [herror] at h
  cases h
  exact hunfilled

end Settings.Document

/-- The text of a settings document with its own placeholders replaced and the randomness that is
left. -/
def Settings.expandFrom (raw : Text) (randomness : RandomSource) : Except Failure Text × RandomSource :=
  match parse raw with
  | .error failure => (.error failure, randomness)
  | .ok document =>
    match document.resolveIn raw randomness with
    | (.ok resolved, randomness) => (.ok (fill resolved raw), randomness)
    | (.error failure, randomness) => (.error failure, randomness)

theorem Settings.exists_of_expandFrom {raw text : Text} {randomness left : RandomSource}
    (h : expandFrom raw randomness = (.ok text, left)) : ∃ document resolved, parse raw = .ok document ∧
      document.resolveIn raw randomness = (.ok resolved, left) ∧ text = fill resolved raw := by
  rw [expandFrom] at h
  split at h
  · cases h
  · next document hparse =>
    rcases hresolved : document.resolveIn raw randomness with ⟨failure | resolved, left'⟩ <;>
      rw [hresolved] at h <;> cases h
    exact ⟨document, resolved, hparse, hresolved, rfl⟩

open ServerPack.Action (outcome_bind)
open FileSystem (HoldsFile)

/-- Settings that a file holds are resolved against themselves. -/
theorem outcome_expand_eq_expandFrom (mode : WriteMode) {path : Path} {location : Location} {raw : Text}
    {session : Session} (h : session.files.HoldsFile path location (.plain (Utf8.encode raw))) :
    (Settings.expand (m := Action) mode (Build.persistTo path) raw).outcome session =
      match Settings.expandFrom raw session.randomness with
      | (.ok text, randomness) => (.ok text, { session.rewritten location text with randomness })
      | (.error failure, randomness) => (.error failure, { session.silent with randomness }) := by
  obtain ⟨hlocation, hnode⟩ := h.endsAt
  rw [outcome_expand mode h, Settings.expandFrom]
  cases Settings.parse raw with
  | error failure => rfl
  | ok document =>
      dsimp only
      rw [Substitution.substituted, Placeholder.byPath_occurringIn, Settings.Document.resolveIn]
      rcases document.resolveFrom _ _ with ⟨failure | resolved, randomness⟩
      · rfl
      · dsimp only
        split
        · next hnone =>
          rw [hnone, Session.rewritten, fill, List.foldl_nil, FileSystem.put_of_node? hlocation hnode]
          rfl
        · rfl

/-- What becomes of a file is what becomes of its content. -/
theorem outcome_substituteFile_eq_fillContent (mode : WriteMode) (document : Settings.Document)
    {path : Path} {location : Location} {content : Content} {session : Session}
    (h : session.files.HoldsFile path location content) :
    (Build.substituteFile mode document.resolve path).outcome session =
      match document.fillContent content session.randomness with
      | (.ok (count, filled), randomness) =>
        (.ok count, { session.silent with files := session.files.put location (.file filled), randomness })
      | (.error failure, randomness) => (.error failure, { session.silent with randomness }) := by
  obtain ⟨hlocation, hnode⟩ := h.endsAt
  rw [outcome_substituteFile mode document h, Settings.Document.fillContent]
  cases Utf8.decode? content.bytes with
  | none => rfl
  | some body =>
      dsimp only
      rw [Substitution.substituted, Placeholder.byPath_occurringIn, ← Settings.Document.resolveIn]
      rcases hresolved : document.resolveIn body session.randomness with ⟨failure | resolved, randomness⟩
      · rfl
      · simp only [Settings.Document.eq_nil_iff_of_resolveIn hresolved]
        split
        · rw [FileSystem.put_of_node? hlocation hnode]
          rfl
        · rfl

/-- The file system after files have been written one after the other. -/
def FileSystem.putFiles (files : FileSystem) : List (Location × Content) → FileSystem
  | [] => files
  | (location, content) :: rest => putFiles (files.put location (.file content)) rest

namespace FileSystem

variable {files : FileSystem} {written : List (Location × Content)} {location : Location}

theorem node?_putFiles_of_not_mem (hne : ∀ entry ∈ written, entry.1 ≠ [])
    (h : location ∉ written.map Prod.fst) :
    (files.putFiles written).tree.node? location = files.tree.node? location := by
  induction written generalizing files with
  | nil => rfl
  | cons first rest ih =>
      rw [List.map_cons, List.mem_cons, not_or] at h
      rw [putFiles, ih (fun entry hentry => hne entry (List.mem_cons_of_mem _ hentry)) h.2,
        node?_put (hne first List.mem_cons_self), if_neg h.1]

theorem node?_putFiles_of_mem (hne : ∀ entry ∈ written, entry.1 ≠ [])
    (hnodup : (written.map Prod.fst).Nodup) {content : Content} (h : (location, content) ∈ written) :
    (files.putFiles written).tree.node? location = some (.file content) := by
  induction written generalizing files with
  | nil => cases h
  | cons first rest ih =>
      obtain ⟨hfirst, hrest⟩ := List.nodup_cons.1 hnodup
      have hne' : ∀ entry ∈ rest, entry.1 ≠ [] :=
        fun entry hentry => hne entry (List.mem_cons_of_mem _ hentry)
      rcases List.mem_cons.1 h with rfl | h
      · rw [putFiles, node?_putFiles_of_not_mem hne' hfirst, node?_put_self (hne _ List.mem_cons_self)]
      · exact ih hne' hrest h

end FileSystem

/-- A file that a path leads to. -/
structure Listed where
  path : Path
  location : Location
  content : Content

/-- The result of the loop is the numbers of placeholders, or the failure that ended it. -/
def countsOr (filled : List (Nat × Content)) : Option Failure → Except Failure (List Nat)
  | none => .ok (filled.map Prod.fst)
  | some failure => .error failure

/-- The loop over the files fills their contents one after the other up to the first failure. -/
theorem outcome_mapM_substituteFile (mode : WriteMode) (document : Settings.Document) {listed : List Listed}
    {session : Session}
    (hheld : ∀ file ∈ listed, session.files.HoldsFile file.path file.location file.content)
    (hnodup : (listed.map Listed.location).Nodup) :
    ((listed.map Listed.path).mapM (Build.substituteFile mode document.resolve)).outcome session =
      match document.fillAll (listed.map Listed.content) session.randomness with
      | (filled, failure?, randomness) =>
        (countsOr filled failure?,
          { session.silent with
            files := session.files.putFiles ((listed.map Listed.location).zip
              (filled.map Prod.snd)), randomness }) := by
  have hquiet := fun path => Build.quiet_substituteFile mode (Settings.quiet_resolve document) path
  induction listed generalizing session with
  | nil => rfl
  | cons first rest ih =>
      obtain ⟨hfirst, hrest⟩ := List.nodup_cons.1 hnodup
      have hrestQuiet : ((rest.map Listed.path).mapM (Build.substituteFile mode document.resolve)).Quiet :=
        .mapM fun path _ => hquiet path
      rw [List.map_cons, List.mapM_cons, outcome_bind fun _ => .bind hrestQuiet fun _ => .pure _,
        outcome_substituteFile_eq_fillContent mode document (hheld first List.mem_cons_self), List.map_cons,
        Settings.Document.fillAll]
      rcases document.fillContent first.content session.randomness with ⟨failure | ⟨count, filled⟩,
        randomness⟩
      · rfl
      · dsimp only
        have hheld' : ∀ file ∈ rest, (session.files.put first.location (.file filled)).HoldsFile file.path
            file.location file.content := by
          intro file hfile
          have hother := (hheld file (List.mem_cons_of_mem _ hfile)).put filled
            (hheld first List.mem_cons_self)
          have hne : file.location ≠ first.location := fun heq => hfirst (heq ▸ List.mem_map_of_mem hfile)
          rwa [if_neg hne] at hother
        rw [outcome_bind fun _ => .pure _, ih hheld' hrest]
        dsimp only
        rcases document.fillAll (rest.map Listed.content) randomness with ⟨more, failure?, randomness'⟩
        cases failure? <;> rfl

end ServerPack
