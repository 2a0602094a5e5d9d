import ServerPack.Placeholder.Substitution

/-!
The placeholders of a body by path. The set of placeholders is in increasing order
(`increasing_occurringIn`). Its grouping by path is therefore the distinct paths in increasing
order, each with those of the two forms in which it occurs, the number form first
(`byPath_occurringIn`). What is found in a body stands in it (`literal_infix_of_mem`). A path that
has been resolved is replaced literal by literal, the number form first
(`Resolved.replaceIn_eq_putIn`).
-/

namespace ServerPack

namespace Dictionary

/-- A strict order in which any two members can be compared. -/
structure Comparable (κ : Type) [LT κ] : Prop where
  irrefl (a : κ) : ¬a < a
  trans {a b c : κ} : a < b → b < c → a < c
  total (a b : κ) : a < b ∨ a = b ∨ b < a

variable {κ : Type} [LT κ] [DecidableLT κ] [DecidableEq κ]

theorem increasing_insertMember (hκ : Comparable κ) (a : κ) {l : List κ} (h : l.Pairwise (· < ·)) :
    (insertMember a l).Pairwise (· < ·) := by
  induction l with
  | nil => simp [insertMember]
  | cons b rest ih =>
      obtain ⟨hb, hrest⟩ := List.pairwise_cons.1 h
      rw [insertMember]
      split
      · next hlt => exact .cons (List.forall_mem_cons.2 ⟨hlt, fun c hc => hκ.trans hlt (hb c hc)⟩) h
      · split
        · exact h
        · next hnlt hne =>
          refine .cons (fun c hc => ?_) (ih hrest)
          rcases mem_insertMember.1 hc with rfl | hc
          · exact ((hκ.total _ b).resolve_left hnlt).resolve_left hne
          · exact hb c hc

theorem distinct_cons (a : κ) (l : List κ) : distinct (a :: l) = insertMember a (distinct l) := rfl

theorem increasing_distinct (hκ : Comparable κ) (l : List κ) : (distinct l).Pairwise (· < ·) := by
  induction l with
  | nil => exact .nil
  | cons a rest ih => exact increasing_insertMember hκ a ih

end Dictionary

theorem Text.comparable : Dictionary.Comparable Text where
  irrefl _ := Std.lt_irrefl
  trans := Std.lt_trans
  total a b := Std.lt_trichotomy a b

theorem Placeholder.comparable : Dictionary.Comparable Placeholder where
  irrefl a := by
    rintro (h | ⟨-, h⟩)
    · exact Text.comparable.irrefl _ h
    · exact absurd (h.1.symm.trans h.2) (by decide)
  trans {a b c} := by
    rintro (h | ⟨hpath, hform⟩) (h' | ⟨hpath', hform'⟩)
    · exact .inl (Text.comparable.trans h h')
    · exact .inl (hpath' ▸ h)
    · exact .inl (hpath ▸ h')
    · exact absurd (hform.2.symm.trans hform'.1) (by decide)
  total a b := by
    rcases Text.comparable.total a.path b.path with h | h | h
    · exact .inl (.inl h)
    · obtain ⟨path, form⟩ := a
      obtain ⟨path', form'⟩ := b
      obtain rfl : path = path' := h
      cases form <;> cases form'
      · exact .inr (.inl rfl)
      · exact .inl (.inr ⟨rfl, rfl, rfl⟩)
      · exact .inr (.inr (.inr ⟨rfl, rfl, rfl⟩))
      · exact .inr (.inl rfl)
    · exact .inr (.inr (.inl h))

namespace Placeholder

/-- The placeholders of a body are in increasing order. -/
theorem increasing_occurringIn (body : Text) : (occurringIn body).Pairwise (· < ·) :=
  Dictionary.increasing_distinct comparable _

/-- The paths of the placeholders of a body, each once and in increasing order. -/
def pathsIn (body : Text) : List Text := Dictionary.distinct ((occurringIn body).map path)

theorem increasing_pathsIn (body : Text) : (pathsIn body).Pairwise (· < ·) :=
  Dictionary.increasing_distinct Text.comparable _

/-- The forms in which a path occurs among placeholders, the number form first. -/
def formsAmong (placeholders : List Placeholder) (path : Text) : List Form :=
  [.number, .text].filter fun form => ⟨path, form⟩ ∈ placeholders

theorem formsAmong_cons_of_ne {first : Placeholder} {rest : List Placeholder} {path : Text}
    (h : path ≠ first.path) :
    formsAmong (first :: rest) path = formsAmong rest path := by
  refine List.filter_congr fun form _ => ?_
  have hne : (⟨path, form⟩ : Placeholder) ≠ first := fun heq => h (congrArg Placeholder.path heq)
  simp [hne]

/-- Of an increasing list the first placeholder has the first form of its path. -/
theorem formsAmong_cons_self {first : Placeholder} {rest : List Placeholder}
    (h : ∀ other ∈ rest, first < other) :
    formsAmong (first :: rest) first.path = first.form :: formsAmong rest first.path := by
  obtain ⟨path, form⟩ := first
  have hself : (⟨path, form⟩ : Placeholder) ∉ rest := fun hmem => comparable.irrefl _ (h _ hmem)
  cases form with
  | number =>
      by_cases htext : (⟨path, .text⟩ : Placeholder) ∈ rest <;> simp [formsAmong, List.filter, hself, htext]
  | text =>
      have hnumber : (⟨path, .number⟩ : Placeholder) ∉ rest := by
        intro hmem
        rcases h _ hmem with hlt | ⟨-, hlt, -⟩
        · exact Text.comparable.irrefl _ hlt
        · cases hlt
      simp [formsAmong, hself, hnumber]

theorem map_formsAmong_cons {first : Placeholder} {rest : List Placeholder} {paths : List Text}
    (hnot : first.path ∉ paths) :
    (paths.map fun path => (path, formsAmong (first :: rest) path)) = paths.map fun path =>
      (path, formsAmong rest path) := by
  refine List.map_congr_left fun path hpath => ?_
  rw [formsAmong_cons_of_ne fun heq => hnot (heq ▸ hpath)]

/-- No path of later placeholders comes before that of the first one. -/
theorem not_lt_of_mem_distinct {first : Placeholder} {rest : List Placeholder}
    (hfirst : ∀ other ∈ rest, first < other) {path : Text}
    (hpath : path ∈ Dictionary.distinct (rest.map Placeholder.path)) : ¬path < first.path := by
  intro hlt
  obtain ⟨other, hother, rfl⟩ := List.mem_map.1 (Dictionary.mem_distinct.1 hpath)
  rcases hfirst other hother with hlt' | ⟨heq, -⟩
  · exact Text.comparable.irrefl _ (Text.comparable.trans hlt hlt')
  · exact Text.comparable.irrefl _ (heq ▸ hlt)

theorem formsAmong_eq_nil {placeholders : List Placeholder} {path : Text}
    (h : path ∉ Dictionary.distinct (placeholders.map Placeholder.path)) :
    formsAmong placeholders path = [] := by
  refine List.filter_eq_nil_iff.2 fun form _ hmem => h (Dictionary.mem_distinct.2 ?_)
  exact List.mem_map.2 ⟨_, of_decide_eq_true hmem, rfl⟩

/-- Placeholders in increasing order are grouped by their distinct paths. -/
theorem byPath_of_increasing {placeholders : List Placeholder} (h : placeholders.Pairwise (· < ·)) :
    byPath placeholders =
      (Dictionary.distinct (placeholders.map Placeholder.path)).map fun path =>
        (path, formsAmong placeholders path) := by
  induction placeholders with
  | nil => rfl
  | cons first rest ih =>
      obtain ⟨hfirst, hrest⟩ := List.pairwise_cons.1 h
      have hincreasing := Dictionary.increasing_distinct Text.comparable (rest.map Placeholder.path)
      have hle := fun path => @not_lt_of_mem_distinct first rest hfirst path
      have hforms := formsAmong_cons_self hfirst
      have hnone := @formsAmong_eq_nil rest first.path
      rw [byPath, ih hrest, List.map_cons, Dictionary.distinct_cons]
      cases hdistinct : Dictionary.distinct (rest.map Placeholder.path) with
      | nil =>
          rw [hdistinct] at hnone
          simp only [Dictionary.insertMember, List.map_cons, List.map_nil, hforms, hnone List.not_mem_nil]
      | cons smallest more =>
          rw [hdistinct] at hincreasing hle hnone
          obtain ⟨hsmallest, hmore⟩ := List.pairwise_cons.1 hincreasing
          simp only [List.map_cons, Dictionary.insertMember]
          by_cases heq : smallest = first.path
          · subst heq
            have hnot : first.path ∉ more := fun hmem => Text.comparable.irrefl _ (hsmallest _ hmem)
            rw [if_pos rfl, if_neg (Text.comparable.irrefl _), if_pos rfl, List.map_cons, hforms,
              map_formsAmong_cons hnot]
          · have hlt : first.path < smallest :=
              (Text.comparable.total _ _).elim id fun h =>
                absurd h (not_or.2 ⟨Ne.symm heq, hle smallest List.mem_cons_self⟩)
            have hnot : first.path ∉ smallest :: more := by
              rw [List.mem_cons, not_or]
              exact ⟨Ne.symm heq, fun hmem => Text.comparable.irrefl _
                (Text.comparable.trans hlt (hsmallest _ hmem))⟩
            rw [if_neg heq, if_pos hlt, List.map_cons, hforms, hnone hnot, map_formsAmong_cons hnot]
            rfl

/-- The forms in which a path occurs in a body, the number form first. -/
def formsIn (body : Text) (path : Text) : List Form := formsAmong (occurringIn body) path

theorem byPath_occurringIn (body : Text) :
    byPath (occurringIn body) = (pathsIn body).map fun path => (path, formsIn body path) :=
  byPath_of_increasing (increasing_occurringIn body)

theorem mem_pathsIn {body path : Text} : path ∈ pathsIn body ↔ ∃ form, ⟨path, form⟩ ∈ occurringIn body := by
  rw [pathsIn, Dictionary.mem_distinct, List.mem_map]
  constructor
  · rintro ⟨⟨_, form⟩, hmem, rfl⟩
    exact ⟨form, hmem⟩
  · rintro ⟨form, hmem⟩
    exact ⟨_, hmem, rfl⟩

theorem pathsIn_eq_nil_iff {body : Text} : pathsIn body = [] ↔ occurringIn body = [] := by
  constructor
  · intro hpaths
    refine List.eq_nil_iff_forall_not_mem.2 fun placeholder hmem => ?_
    have hpath : placeholder.path ∈ pathsIn body := mem_pathsIn.2 ⟨placeholder.form, hmem⟩
    rw [hpaths] at hpath
    cases hpath
  · intro hnone
    rw [pathsIn, hnone]
    rfl

end Placeholder

namespace Form

theorem literal_prefix_of_pathAt? {form : Form} {text path : Text} (h : form.pathAt? text = some path) :
    Placeholder.literal ⟨path, form⟩ <+: text := by
  rw [pathAt?] at h
  split at h
  · next hopening =>
    obtain ⟨rest, rfl⟩ := List.isPrefixOf_iff_prefix.1 hopening
    rw [List.drop_left] at h
    dsimp only at h
    split at h
    · next hclosing =>
      cases h
      obtain ⟨more, hmore⟩ := List.isPrefixOf_iff_prefix.1 hclosing.2
      refine ⟨more, ?_⟩
      rw [Placeholder.literal, List.append_assoc, List.append_assoc, hmore, List.takeWhile_append_dropWhile]
    · cases h
  · cases h

theorem literal_infix_of_mem_occurrencesFrom {form : Form} {start skip : Nat} {text : Text}
    {occurrence : Occurrence} (h : occurrence ∈ form.occurrencesFrom start skip text) :
    Placeholder.literal ⟨occurrence.path, form⟩ <:+: text := by
  induction text generalizing start skip with
  | nil => cases h
  | cons c rest ih =>
      cases skip with
      | succ skip => exact (ih h).trans (List.suffix_cons c rest).isInfix
      | zero =>
          rw [occurrencesFrom] at h
          split at h
          · next path hpath =>
            rcases List.mem_cons.1 h with rfl | h
            · exact (literal_prefix_of_pathAt? hpath).isInfix
            · exact (ih h).trans (List.suffix_cons c rest).isInfix
          · exact (ih h).trans (List.suffix_cons c rest).isInfix

end Form

/-- The literal of each placeholder that is found in a body stands in it. -/
theorem Placeholder.literal_infix_of_mem {placeholder : Placeholder} {body : Text}
    (h : placeholder ∈ occurringIn body) : placeholder.literal <:+: body := by
  rw [occurringIn, Dictionary.mem_distinct, List.mem_append, List.mem_map, List.mem_map] at h
  rcases h with ⟨occurrence, hmem, rfl⟩ | ⟨occurrence, hmem, rfl⟩
  · exact Form.literal_infix_of_mem_occurrencesFrom hmem
  · exact Form.literal_infix_of_mem_occurrencesFrom (List.mem_filter.1 hmem).1

/-! Values in place of placeholders. -/

namespace Substitution

/-- A body with the value of a path put in: for the number form first and for the text form then, if
the set has them. -/
def putIn (placeholders : List Placeholder) (body : Text) (answer : Text × Text) : Text :=
  let numbered :=
    if ⟨answer.1, .number⟩ ∈ placeholders then
      Text.replaceAll (Placeholder.literal ⟨answer.1, .number⟩) answer.2 body
    else body
  if ⟨answer.1, .text⟩ ∈ placeholders then
    Text.replaceAll (Placeholder.literal ⟨answer.1, .text⟩) answer.2 numbered
  else numbered

/-- A body with the values of resolved paths put in, path by path. -/
def putAll (placeholders : List Placeholder) (resolved : List Resolved) (body : Text) : Text :=
  resolved.foldl (fun text entry => putIn placeholders text (entry.path, entry.value)) body

end Substitution

/-- A path that has been resolved for a set of placeholders is replaced in the forms that the set
has of it. -/
theorem Resolved.replaceIn_eq_putIn {placeholders : List Placeholder} {entry : Resolved}
    (h : entry.forms = Placeholder.formsAmong placeholders entry.path) (body : Text) :
    entry.replaceIn body = Substitution.putIn placeholders body (entry.path, entry.value) := by
  rw [replaceIn, h]
  by_cases hnumber : ⟨entry.path, .number⟩ ∈ placeholders <;> by_cases htext :
    ⟨entry.path, .text⟩ ∈ placeholders <;>
    simp [Placeholder.formsAmong, Substitution.putIn, hnumber, htext]

end ServerPack
