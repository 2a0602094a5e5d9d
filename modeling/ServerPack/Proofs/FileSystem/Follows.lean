import ServerPack.FileSystem.Resolve

/-!
Where the names of a path lead, as a relation. `Follows` has one rule for each thing that a name can
meet and counts the links on the way, so that the function which follows names succeeds exactly
where the relation has a derivation with few enough links (`follow_eq_ok_iff`). Facts about paths
are then inductions on derivations.

Ways compose at directories (`Follows.append`, `Follows.split`), and names that stay where they are
can be left out (`Follows.of_trimmed_eq`).
-/

/-- The place where a way ends. -/
def ServerPack.Target.location : ServerPack.Target → ServerPack.Location
  | .present location _ | .vacant location => location

namespace ServerPack.FileTree

/-- A name that has to be looked up in a directory, and may be with these names behind it. -/
structure Sought (purpose : Purpose) (name : Name) (rest : List Name) : Prop where
  ne_nil : name ≠ []
  ne_dot : name ≠ Path.dot
  ne_dotDot : name ≠ Path.dotDot
  allowed : ¬(purpose = .writing ∧ rest = [[]])
  short : name.length ≤ Path.maxNameLength

/-- Names lead from a directory to a target, through some number of links. -/
inductive Follows (tree : FileTree) (purpose : Purpose) : Nat → Location → List Name → Target → Prop
  | here {directory} : Follows tree purpose 0 directory [] (.present directory .directory)
  | stay {links directory name rest target} : name = [] ∨ name = Path.dot →
      Follows tree purpose links directory rest target →
      Follows tree purpose links directory (name :: rest) target
  | up {links directory rest target} : Follows tree purpose links directory.dropLast rest target →
      Follows tree purpose links directory (Path.dotDot :: rest) target
  | vacant {directory name} : Sought purpose name [] → tree.node? (directory ++ [name]) = none →
      Follows tree purpose 0 directory [name] (.vacant (directory ++ [name]))
  | file {directory name content} : Sought purpose name [] →
      tree.node? (directory ++ [name]) = some (.file content) →
      Follows tree purpose 0 directory [name] (.present (directory ++ [name]) (.file content))
  | link {directory name aim} : Sought purpose name [] → purpose = .itself →
      tree.node? (directory ++ [name]) = some (.link aim) →
      Follows tree purpose 0 directory [name] (.present (directory ++ [name]) (.link aim))
  | enter {links directory name rest target} : Sought purpose name rest →
      tree.node? (directory ++ [name]) = some .directory →
      Follows tree purpose links (directory ++ [name]) rest target →
      Follows tree purpose links directory (name :: rest) target
  | through {links directory name rest aim target} : Sought purpose name rest →
      ¬(rest = [] ∧ purpose = .itself) → tree.node? (directory ++ [name]) = some (.link aim) →
      Follows tree purpose links (if aim.isAbsolute then [] else directory) (aim.steps ++ rest) target →
      Follows tree purpose (links + 1) directory (name :: rest) target

variable {tree : FileTree} {purpose : Purpose}

/-- Where the rest of a way leads that has come to a link. -/
def afterLink (tree : FileTree) (purpose : Purpose) : Nat → Location → List Name → Except IoFault Target
  | 0 => fun _ _ => .error .tooManyLinks
  | links + 1 => tree.follow purpose links

theorem follow_eq_followNames (links : Nat) (directory : Location) (names : List Name) :
    tree.follow purpose links directory names =
      tree.followNames purpose (tree.afterLink purpose links) directory names := by
  cases links <;> rfl

theorem ok_of_ite_eq_ok {ε α : Type} {p : Prop} [Decidable p] {a b : α} {e : ε}
    (h : (if p then Except.ok a else .error e) = .ok b) : p ∧ a = b := by
  split at h
  · next hp => exact ⟨hp, Except.ok.inj h⟩
  · cases h

/-- A name that is looked up goes by the node of that name. -/
theorem followNames_of_sought {through : Location → List Name → Except IoFault Target}
    {directory : Location} {name : Name} {rest : List Name} (hsought : Sought purpose name rest) :
    tree.followNames purpose through directory (name :: rest) =
      match tree.node? (directory ++ [name]) with
      | none => if rest = [] then .ok (.vacant (directory ++ [name])) else .error .notFound
      | some .directory => tree.followNames purpose through (directory ++ [name]) rest
      | some (.file content) =>
        if rest = [] then .ok (.present (directory ++ [name]) (.file content)) else .error .notADirectory
      | some (.link aim) =>
        if rest = [] ∧ purpose = .itself then .ok (.present (directory ++ [name]) (.link aim))
        else through (if aim.isAbsolute then [] else directory) (aim.steps ++ rest) := by
  rw [followNames, if_neg (not_or.2 ⟨hsought.ne_nil, hsought.ne_dot⟩), if_neg hsought.ne_dotDot,
    if_neg hsought.allowed, if_neg (Nat.not_lt.2 hsought.short)]
  cases hnode : tree.node? (directory ++ [name]) with
  | none => simp only [hnode, List.isEmpty_iff]
  | some node => cases node <;> simp only [hnode, List.isEmpty_iff]

/-- A name that leads on is one of those that are passed over or leads up, or it is looked up. -/
theorem sought_of_followNames {through : Location → List Name → Except IoFault Target}
    {directory : Location} {name : Name} {rest : List Name} {target : Target}
    (h : tree.followNames purpose through directory (name :: rest) = .ok target)
    (hstay : ¬(name = [] ∨ name = Path.dot)) (hup : name ≠ Path.dotDot) : Sought purpose name rest := by
  rw [followNames, if_neg hstay, if_neg hup] at h
  have hallowed : ¬(purpose = .writing ∧ rest = [[]]) := by
    intro hwriting
    rw [if_pos hwriting] at h
    cases h
  have hshort : ¬Path.maxNameLength < name.length := by
    intro hlong
    rw [if_neg hallowed, if_pos hlong] at h
    cases h
  exact ⟨fun h => hstay (.inl h), fun h => hstay (.inr h), hup, hallowed, Nat.le_of_not_lt hshort⟩

/-- A way that is found has a derivation, given derivations for what the links on it lead to. -/
theorem follows_of_followNames {through : Location → List Name → Except IoFault Target} {links : Nat}
    (hthrough : ∀ directory names target, through directory names = .ok target →
      ∃ used, used < links ∧ Follows tree purpose used directory names target)
    {directory : Location} {names : List Name} {target : Target}
    (h : tree.followNames purpose through directory names = .ok target) :
    ∃ used, used ≤ links ∧ Follows tree purpose used directory names target := by
  induction names generalizing directory with
  | nil =>
      rw [followNames] at h
      cases h
      exact ⟨0, Nat.zero_le _, .here⟩
  | cons name rest ih =>
      by_cases hstay : name = [] ∨ name = Path.dot
      · rw [followNames, if_pos hstay] at h
        obtain ⟨used, hused, hway⟩ := ih h
        exact ⟨used, hused, .stay hstay hway⟩
      by_cases hup : name = Path.dotDot
      · rw [followNames, if_neg hstay, if_pos hup] at h
        obtain ⟨used, hused, hway⟩ := ih h
        exact ⟨used, hused, hup ▸ .up hway⟩
      have hsought := sought_of_followNames h hstay hup
      rw [followNames_of_sought hsought] at h
      cases hnode : tree.node? (directory ++ [name]) with
      | none =>
          rw [hnode] at h
          obtain ⟨rfl, htarget⟩ := ok_of_ite_eq_ok h
          exact ⟨0, Nat.zero_le _, htarget ▸ .vacant hsought hnode⟩
      | some node =>
          rw [hnode] at h
          cases node with
          | directory =>
              obtain ⟨used, hused, hway⟩ := ih h
              exact ⟨used, hused, .enter hsought hnode hway⟩
          | file content =>
              obtain ⟨rfl, htarget⟩ := ok_of_ite_eq_ok h
              exact ⟨0, Nat.zero_le _, htarget ▸ .file hsought hnode⟩
          | link aim =>
              by_cases hlast : rest = [] ∧ purpose = .itself
              · simp only [if_pos hlast] at h
                cases h
                obtain ⟨rfl, hpurpose⟩ := hlast
                exact ⟨0, Nat.zero_le _, .link hsought hpurpose hnode⟩
              · simp only [if_neg hlast] at h
                obtain ⟨used, hused, hway⟩ := hthrough _ _ _ h
                exact ⟨used + 1, hused, .through hsought hlast hnode hway⟩

theorem exists_follows_of_follow {links : Nat} {directory : Location} {names : List Name} {target : Target}
    (h : tree.follow purpose links directory names = .ok target) :
    ∃ used, used ≤ links ∧ Follows tree purpose used directory names target := by
  induction links generalizing directory names target with
  | zero =>
      rw [follow_eq_followNames] at h
      exact follows_of_followNames (fun _ _ _ h => by cases h) h
  | succ links ih =>
      rw [follow_eq_followNames] at h
      refine follows_of_followNames (fun _ _ _ h => ?_) h
      obtain ⟨used, hused, hway⟩ := ih h
      exact ⟨used, Nat.lt_succ_of_le hused, hway⟩

theorem Follows.follow {used : Nat} {directory : Location} {names : List Name} {target : Target}
    (h : Follows tree purpose used directory names target) {links : Nat} (hlinks : used ≤ links) :
    tree.follow purpose links directory names = .ok target := by
  induction h generalizing links with
  | here => rw [follow_eq_followNames, followNames]
  | stay hstay _ ih =>
      rw [follow_eq_followNames, followNames, if_pos hstay, ← follow_eq_followNames]
      exact ih hlinks
  | up _ ih =>
      rw [follow_eq_followNames, followNames, if_neg (by decide), if_pos rfl, ← follow_eq_followNames]
      exact ih hlinks
  | vacant hsought hnode =>
      rw [follow_eq_followNames, followNames_of_sought hsought, hnode]
      rfl
  | file hsought hnode =>
      rw [follow_eq_followNames, followNames_of_sought hsought, hnode]
      rfl
  | link hsought hpurpose hnode =>
      rw [follow_eq_followNames, followNames_of_sought hsought, hnode]
      exact if_pos ⟨rfl, hpurpose⟩
  | enter hsought hnode _ ih =>
      rw [follow_eq_followNames, followNames_of_sought hsought, hnode]
      rw [← follow_eq_followNames]
      exact ih hlinks
  | through hsought hlast hnode _ ih =>
      obtain ⟨links, rfl⟩ := Nat.exists_eq_add_of_le' (Nat.one_le_of_lt hlinks)
      rw [follow_eq_followNames, followNames_of_sought hsought, hnode]
      simp only [if_neg hlast]
      exact ih (Nat.le_of_succ_le_succ hlinks)

/-- Following names succeeds exactly where few enough links are on a way to the target. -/
theorem follow_eq_ok_iff {links : Nat} {directory : Location} {names : List Name} {target : Target} :
    tree.follow purpose links directory names = .ok target ↔
      ∃ used, used ≤ links ∧ Follows tree purpose used directory names target :=
  ⟨exists_follows_of_follow, fun ⟨_, hused, h⟩ => h.follow hused⟩

/-- What a way leads to that ends at a location. -/
def targetAt (tree : FileTree) (location : Location) : Target :=
  match tree.node? location with
  | some node => .present location node
  | none => .vacant location

/-- The target is an entry of the tree, or a place for one, unless it is a directory. -/
def EndsAt (tree : FileTree) : Target → Prop
  | .present _ .directory => True
  | .present location node => location ≠ [] ∧ tree.node? location = some node
  | .vacant location => location ≠ [] ∧ tree.node? location = none

/-- A name may also be looked up with more names behind it. -/
theorem Sought.append {name : Name} {names rest : List Name} (h : Sought .target name names)
    (hrest : rest ≠ []) (hslash : purpose = .writing → rest ≠ [[]]) :
    Sought purpose name (names ++ rest) := by
  refine ⟨h.ne_nil, h.ne_dot, h.ne_dotDot, ?_, h.short⟩
  rintro ⟨hwriting, hlast⟩
  rcases List.append_eq_singleton_iff.1 hlast with ⟨-, hslashed⟩ | ⟨-, hnil⟩
  · exact hslash hwriting hslashed
  · exact hrest hnil

namespace Follows

variable {links : Nat} {directory : Location} {names : List Name} {target : Target}

theorem unique {links' : Nat} {target' : Target} (h : Follows tree purpose links directory names target)
    (h' : Follows tree purpose links' directory names target') : target = target' :=
  Except.ok.inj ((h.follow (Nat.le_max_left links links')).symm.trans
    (h'.follow (Nat.le_max_right links links')))

/-- A way to a directory can be followed further, if it does not just end with a slash at a name to
write. -/
theorem append {links' : Nat} {reached : Location} {rest : List Name}
    (h : Follows tree .target links directory names (.present reached .directory))
    (h' : Follows tree purpose links' reached rest target) (hrest : rest ≠ [])
    (hslash : purpose = .writing → rest ≠ [[]]) :
    Follows tree purpose (links + links') directory (names ++ rest) target := by
  generalize hend : Target.present reached .directory = target' at h
  induction h with
  | here =>
      cases hend
      rwa [Nat.zero_add]
  | stay hstay _ ih => exact .stay hstay (ih hend)
  | up _ ih => exact .up (ih hend)
  | vacant => cases hend
  | file => cases hend
  | link => cases hend
  | enter hs hnode _ ih => exact .enter (hs.append hrest hslash) hnode (ih hend)
  | through hs _ hnode _ ih =>
      rw [Nat.add_right_comm]
      have hway := ih hend
      rw [List.append_assoc] at hway
      exact .through (hs.append hrest hslash) (fun h => hrest (List.append_eq_nil_iff.1 h.1).2) hnode hway

/-- A way leads to a directory wherever it goes on. -/
theorem split {rest : List Name} (h : Follows tree purpose links directory (names ++ rest) target)
    (hrest : rest ≠ []) :
    ∃ links₁ links₂ reached, links = links₁ + links₂ ∧
      Follows tree .target links₁ directory names (.present reached .directory) ∧
      Follows tree purpose links₂ reached rest target := by
  have hsought : ∀ {name : Name} {all names : List Name}, Sought purpose name all →
      Sought .target name names := fun hs =>
    ⟨hs.ne_nil, hs.ne_dot, hs.ne_dotDot, fun h => (by decide : Purpose.target ≠ .writing) h.1, hs.short⟩
  generalize hall : names ++ rest = all at h
  induction h generalizing names with
  | here => exact absurd (List.append_eq_nil_iff.1 hall).2 hrest
  | stay hstay hway ih =>
      rcases List.append_eq_cons_iff.1 hall with ⟨rfl, rfl⟩ | ⟨names, rfl, rfl⟩
      · exact ⟨0, _, _, (Nat.zero_add _).symm, .here, .stay hstay hway⟩
      · obtain ⟨links₁, links₂, reached, hlinks, h₁, h₂⟩ := ih rfl
        exact ⟨links₁, links₂, reached, hlinks, .stay hstay h₁, h₂⟩
  | up hway ih =>
      rcases List.append_eq_cons_iff.1 hall with ⟨rfl, rfl⟩ | ⟨names, rfl, rfl⟩
      · exact ⟨0, _, _, (Nat.zero_add _).symm, .here, .up hway⟩
      · obtain ⟨links₁, links₂, reached, hlinks, h₁, h₂⟩ := ih rfl
        exact ⟨links₁, links₂, reached, hlinks, .up h₁, h₂⟩
  | vacant hs hnode =>
      rcases List.append_eq_cons_iff.1 hall with ⟨rfl, rfl⟩ | ⟨names, rfl, hnil⟩
      · exact ⟨0, _, _, rfl, .here, .vacant hs hnode⟩
      · exact absurd (List.append_eq_nil_iff.1 hnil.symm).2 hrest
  | file hs hnode =>
      rcases List.append_eq_cons_iff.1 hall with ⟨rfl, rfl⟩ | ⟨names, rfl, hnil⟩
      · exact ⟨0, _, _, rfl, .here, .file hs hnode⟩
      · exact absurd (List.append_eq_nil_iff.1 hnil.symm).2 hrest
  | link hs hpurpose hnode =>
      rcases List.append_eq_cons_iff.1 hall with ⟨rfl, rfl⟩ | ⟨names, rfl, hnil⟩
      · exact ⟨0, _, _, rfl, .here, .link hs hpurpose hnode⟩
      · exact absurd (List.append_eq_nil_iff.1 hnil.symm).2 hrest
  | enter hs hnode hway ih =>
      rcases List.append_eq_cons_iff.1 hall with ⟨rfl, rfl⟩ | ⟨names, rfl, rfl⟩
      · exact ⟨0, _, _, (Nat.zero_add _).symm, .here, .enter hs hnode hway⟩
      · obtain ⟨links₁, links₂, reached, hlinks, h₁, h₂⟩ := ih rfl
        exact ⟨links₁, links₂, reached, hlinks, .enter (hsought hs) hnode h₁, h₂⟩
  | @through _ _ _ _ aim _ hs hlast hnode hway ih =>
      rcases List.append_eq_cons_iff.1 hall with ⟨rfl, rfl⟩ | ⟨names, rfl, rfl⟩
      · exact ⟨0, _, _, (Nat.zero_add _).symm, .here, .through hs hlast hnode hway⟩
      · obtain ⟨links₁, links₂, reached, hlinks, h₁, h₂⟩ := ih (List.append_assoc aim.steps names rest)
        exact ⟨links₁ + 1, links₂, reached, by omega,
          .through (hsought hs) (fun h => (by decide : Purpose.target ≠ .itself) h.2) hnode h₁, h₂⟩

/-- A way that ends with a slash leads to a directory. -/
theorem directory_of_slash (h : Follows tree purpose links directory (names ++ [[]]) target) :
    ∃ reached, target = .present reached .directory := by
  obtain ⟨_, _, reached, -, -, hlast⟩ := h.split (by simp)
  cases hlast with
  | stay _ hway =>
      cases hway
      exact ⟨reached, rfl⟩
  | vacant hs => exact absurd rfl hs.ne_nil
  | file hs => exact absurd rfl hs.ne_nil
  | link hs => exact absurd rfl hs.ne_nil
  | enter hs => exact absurd rfl hs.ne_nil
  | through hs => exact absurd rfl hs.ne_nil

/-- A file that can be read through a way can be written through it. -/
theorem writing {location : Location} {content : Content}
    (h : Follows tree .target links directory names (.present location (.file content))) :
    Follows tree .writing links directory names (.present location (.file content)) := by
  have hsought : ∀ {name : Name} {rest : List Name}, Sought .target name rest → rest ≠ [[]] →
      Sought .writing name rest := fun hs hslash =>
    ⟨hs.ne_nil, hs.ne_dot, hs.ne_dotDot, fun h => hslash h.2, hs.short⟩
  generalize hend : Target.present location (.file content) = target at h ⊢
  induction h with
  | here => cases hend
  | stay hstay _ ih => exact .stay hstay (ih hend)
  | up _ ih => exact .up (ih hend)
  | vacant => cases hend
  | file hs hnode => exact .file (hsought hs (by simp)) hnode
  | link => cases hend
  | enter hs hnode hway ih =>
      refine .enter (hsought hs ?_) hnode (ih hend)
      rintro rfl
      obtain ⟨reached, hdirectory⟩ := (show Follows _ _ _ _ ([] ++ [[]]) _ from hway).directory_of_slash
      cases hend.trans hdirectory
  | through hs _ hnode hway ih =>
      refine .through (hsought hs ?_) (fun h => (by decide : Purpose.writing ≠ .itself) h.2) hnode (ih hend)
      rintro rfl
      obtain ⟨reached, hdirectory⟩ := hway.directory_of_slash
      cases hend.trans hdirectory

/-- A way that does not end at a link is also one to what can be read. -/
theorem reading (h : Follows tree purpose links directory names target)
    (hlink : ∀ location aim, target ≠ .present location (.link aim)) :
    Follows tree .target links directory names target := by
  have hsought : ∀ {name : Name} {rest : List Name}, Sought purpose name rest → Sought .target name rest :=
    fun hs => ⟨hs.ne_nil, hs.ne_dot, hs.ne_dotDot, fun h =>
      (by decide : Purpose.target ≠ .writing) h.1, hs.short⟩
  induction h with
  | here => exact .here
  | stay hstay _ ih => exact .stay hstay (ih hlink)
  | up _ ih => exact .up (ih hlink)
  | vacant hs hnode => exact .vacant (hsought hs) hnode
  | file hs hnode => exact .file (hsought hs) hnode
  | link => exact absurd rfl (hlink _ _)
  | enter hs hnode _ ih => exact .enter (hsought hs) hnode (ih hlink)
  | through hs _ hnode _ ih =>
      exact .through (hsought hs) (fun h => (by decide : Purpose.target ≠ .itself) h.2) hnode (ih hlink)

/-- Where a way ends, the tree has what the way leads to. -/
theorem endsAt (h : Follows tree purpose links directory names target) : tree.EndsAt target := by
  induction h with
  | here => trivial
  | vacant _ hnode => exact ⟨by simp, hnode⟩
  | file _ hnode => exact ⟨by simp, hnode⟩
  | link _ _ hnode => exact ⟨by simp, hnode⟩
  | stay _ _ ih => exact ih
  | up _ ih => exact ih
  | enter _ _ _ ih => exact ih
  | through _ _ _ _ ih => exact ih

/-- A way that does not end at a directory leads to whatever is at its end. -/
theorem eq_targetAt (h : Follows tree purpose links directory names target)
    (hdirectory : ∀ location, target ≠ .present location .directory) :
    target = tree.targetAt target.location := by
  have hend := h.endsAt
  cases target with
  | vacant location => rw [targetAt, Target.location, hend.2]
  | present location node =>
      cases node with
      | directory => exact absurd rfl (hdirectory location)
      | file content => rw [targetAt, Target.location, hend.2]
      | link aim => rw [targetAt, Target.location, hend.2]

/-- Only where a link itself is meant does a way end at a link. -/
theorem ne_link {location : Location} {aim : Path}
    (h : Follows tree purpose links directory names (.present location (.link aim))) :
    purpose = .itself := by
  generalize hend : Target.present location (.link aim) = target at h
  induction h with
  | link _ hpurpose => exact hpurpose
  | here => cases hend
  | vacant => cases hend
  | file => cases hend
  | stay _ _ ih => exact ih hend
  | up _ ih => exact ih hend
  | enter _ _ _ ih => exact ih hend
  | through _ _ _ _ ih => exact ih hend

/-- A way to a file ends with the name of an entry. -/
theorem last_of_file {init : List Name} {last : Name} {location : Location} {content : Content}
    (h : Follows tree purpose links directory (init ++ [last]) (.present location (.file content))) :
    last ≠ [] ∧ last ≠ Path.dot ∧ last ≠ Path.dotDot := by
  obtain ⟨_, _, _, -, -, hlast⟩ := h.split (by simp)
  cases hlast with
  | stay _ hway => cases hway
  | up hway => cases hway
  | file hs => exact ⟨hs.ne_nil, hs.ne_dot, hs.ne_dotDot⟩
  | enter hs => exact ⟨hs.ne_nil, hs.ne_dot, hs.ne_dotDot⟩
  | through hs => exact ⟨hs.ne_nil, hs.ne_dot, hs.ne_dotDot⟩

/-- What leads to a directory leads to something, also when a last link is not followed. -/
theorem itself {reached : Location}
    (h : Follows tree .target links directory names (.present reached .directory)) :
    ∃ links' location node, links' ≤ links ∧
      Follows tree .itself links' directory names (.present location node) := by
  have hsought : ∀ {name : Name} {rest : List Name}, Sought .target name rest →
      Sought .itself name rest := fun hs =>
    ⟨hs.ne_nil, hs.ne_dot, hs.ne_dotDot, fun h => (by decide : Purpose.itself ≠ .writing) h.1, hs.short⟩
  generalize hend : Target.present reached .directory = target at h
  induction h with
  | here => exact ⟨0, _, _, Nat.le_refl _, .here⟩
  | stay hstay _ ih =>
      obtain ⟨links', location, node, hlinks, hway⟩ := ih hend
      exact ⟨links', location, node, hlinks, .stay hstay hway⟩
  | up _ ih =>
      obtain ⟨links', location, node, hlinks, hway⟩ := ih hend
      exact ⟨links', location, node, hlinks, .up hway⟩
  | vacant => cases hend
  | file => cases hend
  | link => cases hend
  | enter hs hnode _ ih =>
      obtain ⟨links', location, node, hlinks, hway⟩ := ih hend
      exact ⟨links', location, node, hlinks, .enter (hsought hs) hnode hway⟩
  | @through _ _ _ rest _ _ hs _ hnode _ ih =>
      by_cases hrest : rest = []
      · subst hrest
        exact ⟨0, _, _, Nat.zero_le _, .link (hsought hs) rfl hnode⟩
      · obtain ⟨links', location, node, hlinks, hway⟩ := ih hend
        exact ⟨links' + 1, location, node, Nat.succ_le_succ hlinks,
          .through (hsought hs) (fun h => hrest h.1) hnode hway⟩

/-! Names that stay where they are. -/

end Follows

/-- The names that lead anywhere else. -/
def trimmed (names : List Name) : List Name := names.filter fun name => name ≠ [] ∧ name ≠ Path.dot

@[simp] theorem trimmed_append (names names' : List Name) :
    trimmed (names ++ names') = trimmed names ++ trimmed names' := List.filter_append ..

theorem trimmed_singleton {name : Name} (hne : name ≠ []) (hdot : name ≠ Path.dot) :
    trimmed [name] = [name] := by
  simp [trimmed, hne, hdot]

namespace Follows

variable {links : Nat} {directory : Location} {names : List Name} {target : Target}

theorem stays {rest : List Name} (hstays : ∀ name ∈ names, name = [] ∨ name = Path.dot)
    (h : Follows tree purpose links directory rest target) :
    Follows tree purpose links directory (names ++ rest) target := by
  induction names with
  | nil => exact h
  | cons name names ih =>
      exact .stay (hstays name List.mem_cons_self)
        (ih fun other hother => hstays other (List.mem_cons_of_mem _ hother))

/-- To a directory lead all names that differ only in those that stay where they are. -/
theorem of_trimmed_eq {names' : List Name} {reached : Location}
    (h : Follows tree .target links directory names (.present reached .directory))
    (heq : trimmed names' = trimmed names) :
    Follows tree .target links directory names' (.present reached .directory) := by
  have hstays : ∀ {stays : List Name},
      (∀ name ∈ stays, ¬decide (name ≠ [] ∧ name ≠ Path.dot) = true) →
      ∀ name ∈ stays, name = [] ∨ name = Path.dot := by
    intro stays h name hname
    have := h name hname
    simpa [Decidable.or_iff_not_imp_left] using this
  generalize hend : Target.present reached .directory = target at h ⊢
  induction h generalizing names' with
  | here =>
      rw [← List.append_nil names']
      exact stays (hstays (List.filter_eq_nil_iff.1 heq)) .here
  | stay hstay _ ih =>
      refine ih ?_ hend
      rw [heq, trimmed, List.filter_cons_of_neg (by rcases hstay with rfl | rfl <;> simp)]
      rfl
  | up _ ih =>
      rw [trimmed, trimmed, List.filter_cons_of_pos (by decide)] at heq
      obtain ⟨_, rest', rfl, hs, -, hrest⟩ := List.filter_eq_cons_iff.1 heq
      exact stays (hstays hs) (.up (ih hrest hend))
  | vacant => cases hend
  | file => cases hend
  | link => cases hend
  | enter hs hnode _ ih =>
      rw [trimmed, trimmed, List.filter_cons_of_pos (by simp [hs.ne_nil, hs.ne_dot])] at heq
      obtain ⟨_, rest', rfl, hstay, -, hrest⟩ := List.filter_eq_cons_iff.1 heq
      exact stays (hstays hstay) (.enter ⟨hs.ne_nil, hs.ne_dot, hs.ne_dotDot, by simp, hs.short⟩
        hnode (ih hrest hend))
  | through hs _ hnode _ ih =>
      rw [trimmed, trimmed, List.filter_cons_of_pos (by simp [hs.ne_nil, hs.ne_dot])] at heq
      obtain ⟨_, rest', rfl, hstay, -, hrest⟩ := List.filter_eq_cons_iff.1 heq
      refine stays (hstays hstay) (.through ⟨hs.ne_nil, hs.ne_dot, hs.ne_dotDot, by simp, hs.short⟩
        (by simp) hnode (ih ?_ hend))
      rw [trimmed_append, trimmed_append]
      exact congrArg _ hrest

end Follows

/-! Changes of the tree. -/

/-- A later tree: directories and links stay what they are, files stay files, and no link is new. -/
structure Sustains (tree tree' : FileTree) : Prop where
  directory {location} : tree.node? location = some .directory → tree'.node? location = some .directory
  file {location content} : tree.node? location = some (.file content) →
    ∃ content', tree'.node? location = some (.file content')
  link {location aim} : tree.node? location = some (.link aim) ↔ tree'.node? location = some (.link aim)

theorem Sustains.refl (tree : FileTree) : Sustains tree tree := ⟨id, fun h => ⟨_, h⟩, Iff.rfl⟩

theorem Sustains.trans {tree tree' tree'' : FileTree} (h : Sustains tree tree')
    (h' : Sustains tree' tree'') :
    Sustains tree tree'' where
  directory hnode := h'.directory (h.directory hnode)
  file hnode :=
    have ⟨_, hnode'⟩ := h.file hnode
    h'.file hnode'
  link := h.link.trans h'.link

/-- A directory can be put where there is nothing, and a file also in place of another one. -/
def Takes (tree : FileTree) (location : Location) : Node → Prop
  | .directory => tree.node? location = none
  | .file _ => tree.node? location = none ∨ ∃ content, tree.node? location = some (.file content)
  | .link _ => False

namespace Takes

variable {location : Location} {node : Node}

theorem not_directory (h : Takes tree location node) : tree.node? location ≠ some .directory := by
  cases node with
  | directory => exact fun hnode => nomatch hnode.symm.trans h
  | file content => rcases h with h | ⟨_, h⟩ <;> exact fun hnode => nomatch hnode.symm.trans h
  | link aim => exact h.elim

theorem not_link (h : Takes tree location node) {aim : Path} : tree.node? location ≠ some (.link aim) := by
  cases node with
  | directory => exact fun hnode => nomatch hnode.symm.trans h
  | file content => rcases h with h | ⟨_, h⟩ <;> exact fun hnode => nomatch hnode.symm.trans h
  | link aim => exact h.elim

theorem file (h : Takes tree location node) {content : Content}
    (hnode : tree.node? location = some (.file content)) :
    ∃ content, node = .file content := by
  cases node with
  | directory => exact nomatch hnode.symm.trans h
  | file content => exact ⟨content, rfl⟩
  | link aim => exact h.elim

end Takes

/-- The end of a way as it is in another tree. -/
def seenIn (tree : FileTree) : Target → Target
  | .present location .directory => .present location .directory
  | .present location _ | .vacant location => tree.targetAt location

theorem seenIn_eq_targetAt (tree : FileTree) {target : Target}
    (hdirectory : ∀ location, target ≠ .present location .directory) :
    tree.seenIn target = tree.targetAt target.location := by
  cases target with
  | vacant location => rfl
  | present location node =>
      cases node with
      | directory => exact absurd rfl (hdirectory location)
      | file content => rfl
      | link aim => rfl

namespace Follows

variable {links : Nat} {directory : Location} {names : List Name} {target : Target} {tree' : FileTree}

/-- In a later tree a way leads to the same place and to what is there then. -/
theorem sustained (hsustains : Sustains tree tree')
    (h : Follows tree purpose links directory names target) :
    Follows tree' purpose links directory names (tree'.seenIn target) := by
  induction h with
  | here => exact .here
  | stay hstay _ ih => exact .stay hstay ih
  | up _ ih => exact .up ih
  | @vacant directory name hs hnode =>
      rw [seenIn, targetAt]
      cases hnode' : tree'.node? (directory ++ [name]) with
      | none => exact .vacant hs hnode'
      | some node =>
          cases node with
          | directory => exact .enter hs hnode' .here
          | file content => exact .file hs hnode'
          | link aim => cases hnode.symm.trans (hsustains.link.2 hnode')
  | file hs hnode =>
      obtain ⟨content', hnode'⟩ := hsustains.file hnode
      rw [seenIn, targetAt, hnode']
      · exact .file hs hnode'
      · simp
  | link hs hpurpose hnode =>
      have hnode' := hsustains.link.1 hnode
      rw [seenIn, targetAt, hnode']
      · exact .link hs hpurpose hnode'
      · simp
  | enter hs hnode _ ih => exact .enter hs (hsustains.directory hnode) ih
  | through hs hlast hnode _ ih => exact .through hs hlast (hsustains.link.1 hnode) ih

/-- A way in a tree with less in it is one in the whole tree. -/
theorem of_subtree (hsub : ∀ location node, tree'.node? location = some node →
      tree.node? location = some node)
    {location : Location} {node : Node}
    (h : Follows tree' purpose links directory names (.present location node)) :
    Follows tree purpose links directory names (.present location node) := by
  generalize hend : Target.present location node = target at h ⊢
  induction h with
  | here => exact .here
  | stay hstay _ ih => exact .stay hstay (ih hend)
  | up _ ih => exact .up (ih hend)
  | vacant => cases hend
  | file hs hnode => exact .file hs (hsub _ _ hnode)
  | link hs hpurpose hnode => exact .link hs hpurpose (hsub _ _ hnode)
  | enter hs hnode _ ih => exact .enter hs (hsub _ _ hnode) (ih hend)
  | through hs hlast hnode _ ih => exact .through hs hlast (hsub _ _ hnode) (ih hend)

end Follows

end ServerPack.FileTree
