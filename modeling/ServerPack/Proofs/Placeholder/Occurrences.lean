import Mathlib.Data.List.Basic
import ServerPack.Proofs.FileSystem.PathNames
import ServerPack.Proofs.Placeholder.SeparatedBody
import ServerPack.Proofs.Text.Utf8

/-!
Where placeholders are found. No path contains a closing parenthesis, so a body is looked at as the
stretches between these. In a stretch only the first opening of a form counts, and the path is what
is left of the stretch (`Form.OpensIn`); whether there is a placeholder then depends on the next two
stretches (`Form.ClosedBy`). A number form ends with a quote that cannot begin another one
(`QuoteTaken`). The occurrences of the forms are those that are written so
(`mem_text_occurrences_iff`, `mem_number_occurrences_iff`), and with the text forms inside number
forms left out they are the placeholders of the body (`occurringIn_iff_written`).
-/

namespace ServerPack

namespace Text

theorem join_cons {α : Type} (separator : α) (piece : List α) (pieces : List (List α)) :
    join separator (piece :: pieces) = piece ++ pieces.flatMap (separator :: ·) := by
  induction pieces generalizing piece with
  | nil => simp [join]
  | cons next more ih =>
      rw [join, ih, List.flatMap_cons, List.cons_append]
      simp

/-- What stands in front of the first separator and what stands behind it. -/
theorem append_cons_inj {α : Type} [DecidableEq α] {separator : α} {piece piece' l l' : List α}
    (h : separator ∉ piece) (h' : separator ∉ piece')
    (heq : piece ++ separator :: l = piece' ++ separator :: l') : piece = piece' ∧ l = l' := by
  have hsplit := congrArg (split separator) heq
  rw [split_append, split_append, split_eq_singleton h, split_eq_singleton h'] at hsplit
  obtain rfl := (List.cons_eq_cons.1 hsplit).1
  exact ⟨rfl, List.tail_eq_of_cons_eq (List.append_cancel_left heq)⟩

/-- A text without separators goes on the last piece of what stands in front of it. -/
theorem exists_split_append {separator : Char} {tail : Text} (htail : separator ∉ tail) (l : Text) :
    ∃ init last, split separator (l ++ tail) = init ++ [last ++ tail] := by
  induction l with
  | nil => exact ⟨[], [], split_eq_singleton htail⟩
  | cons c l ih =>
      obtain ⟨init, last, hsplit⟩ := ih
      rw [List.cons_append, split, hsplit]
      by_cases hc : c = separator
      · exact ⟨[] :: init, last, if_pos hc⟩
      · rw [if_neg hc]
        cases init with
        | nil => exact ⟨[], c :: last, rfl⟩
        | cons piece init => exact ⟨(c :: piece) :: init, last, rfl⟩

/-- A text without separators in front of one ends a piece. -/
theorem exists_drop_split {separator : Char} {tail : Text} (htail : separator ∉ tail) (front rest : Text) :
    ∃ k last, (split separator (front ++ tail ++ separator :: rest)).drop k =
      (last ++ tail) :: split separator rest := by
  obtain ⟨init, last, hsplit⟩ := exists_split_append htail front
  refine ⟨init.length, last, ?_⟩
  rw [split_append, hsplit, List.append_assoc, List.drop_left]
  rfl

end Text

namespace Form

variable {form : Form} {stretch free before behind path rest : Text} {after : List Text}

/-! Openings in a stretch. -/

/-- The opening of a form stands for the first time behind `before` in a stretch, and what is left
of the stretch is a path. -/
structure OpensIn (form : Form) (stretch before path : Text) : Prop where
  eq : stretch = before ++ form.opening ++ path
  ne_nil : path ≠ []
  first {other rest : Text} : stretch = other ++ form.opening ++ rest → before.length ≤ other.length

theorem OpensIn.unique {before' path' : Text} (h : form.OpensIn stretch before path)
    (h' : form.OpensIn stretch before' path') : before = before' ∧ path = path' := by
  have hlength : before.length = before'.length := Nat.le_antisymm (h.first h'.eq) (h'.first h.eq)
  have heq := h.eq.symm.trans h'.eq
  obtain ⟨hbefore, hpath⟩ := List.append_inj heq (by simp [hlength])
  exact ⟨List.append_inj_left' hbefore rfl, hpath⟩

/-- Where there is an opening in front of a path, there is a first one. -/
theorem exists_opensIn (h : stretch = before ++ form.opening ++ path) (hne : path ≠ []) :
    ∃ before path, form.OpensIn stretch before path := by
  induction hlength : before.length using Nat.strongRecOn generalizing before path with
  | ind length ih =>
      by_cases hfirst : ∀ {other rest : Text}, stretch = other ++ form.opening ++ rest →
        before.length ≤ other.length
      · exact ⟨before, path, h, hne, hfirst⟩
      · simp only [not_forall, Nat.not_le] at hfirst
        obtain ⟨other, rest, hother, hshorter⟩ := hfirst
        refine ih other.length (hlength ▸ hshorter) hother ?_ rfl
        rintro rfl
        have hsame := congrArg List.length (h.symm.trans hother)
        have hpath := List.length_pos_iff.2 hne
        simp only [List.length_append, List.length_nil] at hsame
        omega

theorem OpensIn.closing (h : form.OpensIn stretch before path) (hparen : ')' ∉ stretch) : ')' ∉ path := by
  rw [h.eq, List.mem_append, not_or] at hparen
  exact hparen.2

/-! What is found in a stretch. -/

/-- What follows a stretch closes the form that is open in it: any stretch the text form, and the
number form one that is the mark of numbers, up to its parenthesis, and another one that begins with
a quote. -/
def ClosedBy : Form → List Text → Prop
  | .text, after => after ≠ []
  | .number, after => ∃ rest more, after = "(number".toList :: ('"' :: rest) :: more

theorem closing_text : Form.text.closing = [')'] := by decide

theorem closing_number : Form.number.closing = ')' :: ("(number".toList ++ [')', '"']) := by decide

theorem closing_prefix_iff (hparen : ∀ stretch ∈ after, ')' ∉ stretch) :
    form.closing <+: after.flatMap (')' :: ·) ↔ form.ClosedBy after := by
  cases form with
  | text =>
      cases after with
      | nil => simp [ClosedBy, closing_text]
      | cons next more => simp [ClosedBy, closing_text]
  | number =>
      have hmarks : ')' ∉ "(number".toList := by decide
      constructor
      · rintro ⟨rest, hrest⟩
        rw [closing_number] at hrest
        rcases after with _ | ⟨mark, _ | ⟨last, more⟩⟩
        · cases hrest
        · have hmem : ')' ∈ mark := by
            simp only [List.cons_append, List.flatMap_cons, List.flatMap_nil, List.append_nil,
              List.cons.injEq, true_and] at hrest
            simp [← hrest]
          exact absurd hmem (hparen mark List.mem_cons_self)
        · simp only [List.cons_append, List.append_assoc, List.flatMap_cons, List.cons.injEq,
            true_and] at hrest
          obtain ⟨rfl, hlast⟩ := Text.append_cons_inj hmarks (hparen mark List.mem_cons_self) hrest
          cases last with
          | nil => cases more <;> simp at hlast
          | cons c last =>
              obtain rfl : c = '"' := (List.cons_eq_cons.1 hlast).1.symm
              exact ⟨last, more, rfl⟩
      · rintro ⟨rest, more, rfl⟩
        exact ⟨rest ++ more.flatMap (')' :: ·), by simp [closing_number]⟩

/-- A form with which a stretch begins takes the whole stretch and is closed by what follows. -/
theorem eq_of_pathAt? (hparen : ')' ∉ stretch)
    (h : form.pathAt? (stretch ++ after.flatMap (')' :: ·)) = some path) :
    stretch = form.opening ++ path ∧ form.closing <+: after.flatMap (')' :: ·) := by
  obtain ⟨closing, hclosing⟩ : ∃ closing, form.closing = ')' :: closing := by cases form <;> exact ⟨_, rfl⟩
  have hopening : ')' ∉ form.opening := by cases form <;> decide
  obtain ⟨-, hpath, rest, hrest⟩ := pathAt?_eq_some_iff.1 h
  have hfront : ')' ∉ form.opening ++ path := by simp [hopening, hpath]
  rw [Placeholder.literal] at hrest
  dsimp only at hrest
  rw [hclosing, List.append_assoc, List.cons_append] at hrest
  cases after with
  | nil =>
      refine absurd ?_ hparen
      rw [List.flatMap_nil, List.append_nil] at hrest
      simp [← hrest]
  | cons next more =>
      rw [List.flatMap_cons, List.cons_append] at hrest
      obtain ⟨rfl, hbehind⟩ := Text.append_cons_inj hfront hparen hrest
      exact ⟨rfl, rest, by rw [hclosing, List.cons_append, hbehind, List.flatMap_cons, List.cons_append]⟩

theorem silent_of_forall {lead : Text}
    (h : ∀ front c back, lead = front ++ c :: back → form.pathAt? (c :: (back ++ rest)) = none) :
    form.Silent lead rest := by
  induction lead with
  | nil => trivial
  | cons c lead ih =>
      exact ⟨h [] c lead rfl, ih fun front c' back heq => h (c :: front) c' back (by rw [heq]; rfl)⟩

/-- In front of the first opening in a stretch nothing is found. -/
theorem OpensIn.silent (h : form.OpensIn stretch before path) (hparen : ')' ∉ stretch) (after : List Text) :
    form.Silent before (form.opening ++ path ++ after.flatMap (')' :: ·)) := by
  refine silent_of_forall fun front c back heq => Option.eq_none_iff_forall_ne_some.2 fun found hfound => ?_
  have hstretch : stretch = front ++ (c :: back ++ (form.opening ++ path)) := by
    rw [h.eq, heq]
    simp only [List.append_assoc]
  rw [← List.append_assoc, ← List.cons_append] at hfound
  obtain ⟨hopens, -⟩ := eq_of_pathAt? (fun hmem => hparen (hstretch ▸ List.mem_append_right _ hmem)) hfound
  have hle := h.first (hstretch.trans ((congrArg (front ++ ·) hopens).trans (List.append_assoc ..).symm))
  rw [heq, List.length_append, List.length_cons] at hle
  omega

/-- Nothing is found in a stretch in which nothing is opened that is closed. -/
theorem silent_of_not_closed (hparen : ')' ∉ stretch)
    (h : ∀ before path, form.OpensIn stretch before path → ¬form.closing <+: after.flatMap (')' :: ·)) :
    form.Silent stretch (after.flatMap (')' :: ·)) := by
  refine silent_of_forall fun front c back heq => Option.eq_none_iff_forall_ne_some.2 fun found hfound => ?_
  rw [← List.cons_append] at hfound
  obtain ⟨hne, -, -⟩ := pathAt?_eq_some_iff.1 hfound
  obtain ⟨hopens, hclosed⟩ := eq_of_pathAt? (fun hmem => hparen (heq ▸ List.mem_append_right _ hmem)) hfound
  obtain ⟨before, path, hfirst⟩ := exists_opensIn (heq.trans (by rw [hopens, List.append_assoc])) hne
  exact h before path hfirst hclosed

end Form

/-! Forms in the stretches of a body. -/

/-- The number of characters in front of a stretch. -/
def place (stretches : List Text) (k : Nat) : Nat := ((stretches.take k).flatMap (· ++ [')'])).length

/-- A form is written in a stretch, the beginning of which does not count: it opens there for the
first time behind `before`, and what follows the stretch closes it. -/
def Form.Written (form : Form) (stretches : List Text) (k : Nat) (uncounted before path : Text) : Prop :=
  ∃ free front after, stretches.drop k = (uncounted ++ free) :: after ∧ before = uncounted ++ front ∧
    form.OpensIn free front path ∧ form.ClosedBy after

/-- What does not count of a stretch: the quote with which it begins, if that is taken. -/
def Uncounted (taken : Prop) (lead : Text) : Prop := taken ∧ lead = ['"'] ∨ ¬taken ∧ lead = []

/-- The quote with which a stretch begins belongs to a number form that is written two stretches
before. -/
def QuoteTaken (stretches : List Text) : Nat → Prop
  | 0 | 1 => False
  | k + 2 => ∃ lead before path, Uncounted (QuoteTaken stretches k) lead ∧
      Form.number.Written stretches k lead before path

/-- A number form is written in a stretch behind `before`. -/
def NumberWritten (stretches : List Text) (k : Nat) (before path : Text) : Prop :=
  ∃ lead, Uncounted (QuoteTaken stretches k) lead ∧ Form.number.Written stretches k lead before path

/-- A text form is written in a stretch behind `before`. -/
def TextWritten (stretches : List Text) (k : Nat) (before path : Text) : Prop :=
  Form.text.Written stretches k [] before path

/-- The occurrence of a form in a stretch behind `before`. -/
def Occurrence.inStretch (form : Form) (stretches : List Text) (k : Nat) (before path : Text) :
    Occurrence :=
  ⟨path, place stretches k + before.length, place stretches k + before.length + form.width path⟩

variable {form : Form} {stretches after : List Text} {stretch lead free before path rest : Text} {k : Nat}

theorem uncounted_unique {taken : Prop} {lead' : Text} (h : Uncounted taken lead)
    (h' : Uncounted taken lead') :
    lead = lead' := by
  rcases h with ⟨htaken, rfl⟩ | ⟨htaken, rfl⟩ <;> rcases h' with ⟨htaken', rfl⟩ | ⟨htaken', rfl⟩
  · rfl
  · exact absurd htaken htaken'
  · exact absurd htaken' htaken
  · rfl

theorem quoteTaken_iff : QuoteTaken stretches (k + 2) ↔
    ∃ before path, NumberWritten stretches k before path := by
  rw [QuoteTaken]
  exact ⟨fun ⟨lead, before, path, h⟩ => ⟨before, path, lead, h⟩, fun ⟨before, path, lead, h⟩ =>
    ⟨lead, before, path, h⟩⟩

theorem drop_succ (hdrop : stretches.drop k = stretch :: after) : stretches.drop (k + 1) = after := by
  rw [← List.tail_drop, hdrop, List.tail_cons]

theorem place_succ (hdrop : stretches.drop k = stretch :: after) :
    place stretches (k + 1) = place stretches k + stretch.length + 1 := by
  have hget : stretches[k]? = some stretch := by
    have hhead := congrArg List.head? hdrop
    rwa [List.head?_drop] at hhead
  rw [place, List.take_add_one, hget]
  simp [place, Nat.add_assoc]

theorem mem_of_drop (hdrop : stretches.drop k = stretch :: after) : ∀ other ∈ stretch :: after,
    other ∈ stretches :=
  fun _ hother => List.mem_of_mem_drop (hdrop ▸ hother)

theorem Form.Written.unique {before' path' : Text} (h : form.Written stretches k lead before path)
    (h' : form.Written stretches k lead before' path') : before = before' ∧ path = path' := by
  obtain ⟨free, front, after, hdrop, rfl, hopens, -⟩ := h
  obtain ⟨free', front', after', hdrop', rfl, hopens', -⟩ := h'
  obtain ⟨hlead, -⟩ := List.cons_eq_cons.1 (hdrop.symm.trans hdrop')
  obtain rfl := List.append_cancel_left hlead
  obtain ⟨rfl, rfl⟩ := hopens.unique hopens'
  exact ⟨rfl, rfl⟩

theorem NumberWritten.unique {before' path' : Text} (h : NumberWritten stretches k before path)
    (h' : NumberWritten stretches k before' path') : before = before' ∧ path = path' := by
  obtain ⟨lead, hlead, hwritten⟩ := h
  obtain ⟨lead', hlead', hwritten'⟩ := h'
  obtain rfl := uncounted_unique hlead hlead'
  exact hwritten.unique hwritten'

section Steps

variable (hparen : ∀ stretch ∈ stretches, ')' ∉ stretch)
  (hdrop : stretches.drop k = (lead ++ free) :: after)

include hdrop

theorem written_iff : form.Written stretches k lead before path ↔
    ∃ front, before = lead ++ front ∧ form.OpensIn free front path ∧ form.ClosedBy after := by
  constructor
  · rintro ⟨free', front, after', hdrop', rfl, hopens, hclosed⟩
    obtain ⟨hstretch, rfl⟩ := List.cons_eq_cons.1 (hdrop.symm.trans hdrop')
    obtain rfl := List.append_cancel_left hstretch
    exact ⟨front, rfl, hopens, hclosed⟩
  · rintro ⟨front, rfl, hopens, hclosed⟩
    exact ⟨free, front, after, hdrop, rfl, hopens, hclosed⟩

include hparen

theorem free_closing : ')' ∉ free := fun hmem =>
  hparen _ (mem_of_drop hdrop _ List.mem_cons_self) (List.mem_append_right _ hmem)

/-- What is written in a stretch is found there, and the search goes on behind it. -/
theorem occurrencesFrom_of_opensIn {front : Text} (hopens : form.OpensIn free front path)
    (hrest : after.flatMap (')' :: ·) = form.closing ++ rest) :
    form.occurrencesFrom (place stretches k + lead.length) 0 (free ++ after.flatMap (')' :: ·)) =
      .inStretch form stretches k (lead ++ front) path ::
        form.occurrencesFrom (place stretches k + (lead ++ front).length + form.width path) 0 rest := by
  have hfree := free_closing hparen hdrop
  have hsilent := hopens.silent hfree after
  have hliteral : form.opening ++ path ++ after.flatMap (')' :: ·) = Placeholder.literal
      ⟨path, form⟩ ++ rest := by
    rw [hrest, Placeholder.literal]
    simp only [List.append_assoc]
  rw [hliteral] at hsilent
  have hbody : free ++ after.flatMap (')' :: ·) = front ++ (Placeholder.literal ⟨path, form⟩ ++ rest) := by
    rw [← hliteral, hopens.eq]
    simp only [List.append_assoc]
  rw [hbody, Form.occurrencesFrom_silent hsilent, Form.occurrencesFrom_literal hopens.ne_nil
    (hopens.closing hfree), Occurrence.inStretch, List.length_append, Nat.add_assoc]

/-- A stretch in which nothing is written is passed. -/
theorem occurrencesFrom_of_not_written (hnot : ∀ before path,
      ¬form.Written stretches k lead before path) (start : Nat) :
    form.occurrencesFrom start 0 (free ++ after.flatMap (')' :: ·)) =
      form.occurrencesFrom (start + free.length) 0 (after.flatMap (')' :: ·)) := by
  refine Form.occurrencesFrom_silent (Form.silent_of_not_closed (free_closing hparen hdrop) ?_) start
  intro front path hopens hclosing
  have hafter : ∀ stretch ∈ after, ')' ∉ stretch := fun stretch hstretch =>
    hparen _ (mem_of_drop hdrop _ (List.mem_cons_of_mem _ hstretch))
  exact hnot _ _ ((written_iff hdrop).2 ⟨front, rfl, hopens, (Form.closing_prefix_iff hafter).1 hclosing⟩)

omit hparen in
/-- A form that is opened in a stretch closes where the next stretch begins. -/
theorem place_succ_of_opensIn {front : Text} (hopens : form.OpensIn free front path) :
    place stretches (k + 1) = place stretches k +
      (lead ++ front).length + form.opening.length + path.length + 1 := by
  rw [place_succ hdrop, hopens.eq]
  simp only [List.length_append]
  omega

end Steps

/-- A text form takes the rest of its stretch with the parenthesis behind it. -/
theorem stop_text {front : Text} (hdrop : stretches.drop k = (lead ++ free) :: after)
    (hopens : Form.text.OpensIn free front path) :
    place stretches k + (lead ++ front).length + Form.text.width path = place stretches (k + 1) := by
  rw [place_succ_of_opensIn hdrop hopens, Form.width, Form.closing_text, List.length_singleton]
  omega

/-- A number form takes the rest of its stretch, the next one and a quote. -/
theorem stop_number {front : Text} (hdrop : stretches.drop k = (lead ++ free) :: "(number".toList :: after)
    (hopens : Form.number.OpensIn free front path) :
    place stretches k + (lead ++ front).length + Form.number.width path = place stretches (k + 2) + 1 := by
  have hclosing : Form.number.closing.length = 1 + "(number".toList.length + 2 := by decide
  rw [place_succ (drop_succ hdrop), place_succ_of_opensIn hdrop hopens, Form.width, hclosing]
  omega

theorem occurrencesFrom_closing (form : Form) (start : Nat) (rest : Text) :
    form.occurrencesFrom start 0 (')' :: rest) = form.occurrencesFrom (start + 1) 0 rest := by
  have hsilent : form.Silent [')'] rest := by
    cases form with
    | text => exact ⟨Form.pathAt?_text_of_ne (by decide) _, trivial⟩
    | number => exact ⟨Form.pathAt?_number_of_ne (by decide) _, trivial⟩
  exact Form.occurrencesFrom_silent hsilent start

/-- An occurrence is that of a form which is written in a stretch, from a given one on. -/
def FoundFrom (form : Form) (written : Nat → Text → Text → Prop) (stretches : List Text) (k : Nat)
    (occurrence : Occurrence) : Prop :=
  ∃ j before path, k ≤ j ∧ written j before path ∧ occurrence = .inStretch form stretches j before path

theorem foundFrom_iff {written : Nat → Text → Text → Prop} {occurrence : Occurrence} :
    FoundFrom form written stretches k occurrence ↔
      (∃ before path, written k before path ∧ occurrence = .inStretch form stretches k before path) ∨
        FoundFrom form written stretches (k + 1) occurrence := by
  constructor
  · rintro ⟨j, before, path, hle, hwritten, rfl⟩
    rcases Nat.eq_or_lt_of_le hle with rfl | hlt
    · exact .inl ⟨before, path, hwritten, rfl⟩
    · exact .inr ⟨j, before, path, hlt, hwritten, rfl⟩
  · rintro (⟨before, path, hwritten, rfl⟩ | ⟨j, before, path, hlt, hwritten, rfl⟩)
    · exact ⟨k, before, path, Nat.le_refl k, hwritten, rfl⟩
    · exact ⟨j, before, path, Nat.le_of_lt hlt, hwritten, rfl⟩

theorem foundFrom_zero_iff {written : Nat → Text → Text → Prop} {occurrence : Occurrence} :
    FoundFrom form written stretches 0 occurrence ↔
      ∃ k before path, written k before path ∧ occurrence = .inStretch form stretches k before path :=
  ⟨fun ⟨k, before, path, _, h⟩ => ⟨k, before, path, h⟩, fun ⟨k, before, path, h⟩ =>
    ⟨k, before, path, k.zero_le, h⟩⟩

theorem not_foundFrom_of_length_le {written : Nat → Text → Text → Prop} {occurrence : Occurrence}
    (hwritten : ∀ {j before path}, written j before path → j < stretches.length)
    (hk : stretches.length ≤ k) :
    ¬FoundFrom form written stretches k occurrence := by
  rintro ⟨j, before, path, hle, hj, -⟩
  exact absurd (hwritten hj) (by omega)

theorem Form.Written.lt_length (h : form.Written stretches k lead before path) : k < stretches.length := by
  obtain ⟨free, front, after, hdrop, -⟩ := h
  refine Nat.lt_of_not_le fun hle => ?_
  rw [List.drop_of_length_le hle] at hdrop
  cases hdrop

/-- The occurrence in a stretch in which a form is written is the one of this form. -/
theorem foundFrom_iff_of_written {written : Nat → Text → Text → Prop} {occurrence : Occurrence}
    (hunique : ∀ {before' path'}, written k before' path' → before' = before ∧ path' = path)
    (hwritten : written k before path) :
    FoundFrom form written stretches k occurrence ↔
      occurrence = .inStretch form stretches k before path ∨
      FoundFrom form written stretches (k + 1) occurrence := by
  rw [foundFrom_iff]
  refine or_congr_left ⟨?_, fun heq => ⟨before, path, hwritten, heq⟩⟩
  rintro ⟨before', path', hwritten', rfl⟩
  obtain ⟨rfl, rfl⟩ := hunique hwritten'
  rfl

theorem foundFrom_iff_of_not_written {written : Nat → Text → Text → Prop} {occurrence : Occurrence}
    (hnot : ∀ before path, ¬written k before path) :
    FoundFrom form written stretches k occurrence ↔
    FoundFrom form written stretches (k + 1) occurrence := by
  rw [foundFrom_iff, or_iff_right]
  exact fun ⟨before, path, hwritten, _⟩ => hnot before path hwritten

/-- The occurrences of the text form from a stretch on are the text forms written there. -/
theorem mem_text_occurrencesFrom_iff (hparen : ∀ stretch ∈ stretches, ')' ∉ stretch)
    {occurrence : Occurrence} (hdrop : stretches.drop k = stretch :: after) :
    occurrence ∈ Form.text.occurrencesFrom (place stretches k) 0 (stretch ++ after.flatMap (')' :: ·)) ↔
      FoundFrom .text (TextWritten stretches) stretches k occurrence := by
  induction after generalizing stretch k with
  | nil =>
      have hnot : ∀ before path, ¬Form.text.Written stretches k [] before path :=
          fun before path hwritten =>
        have ⟨_, _, _, hclosed⟩ := (written_iff hdrop).1 hwritten
        hclosed rfl
      rw [occurrencesFrom_of_not_written hparen hdrop hnot, foundFrom_iff_of_not_written hnot]
      refine iff_of_false List.not_mem_nil (not_foundFrom_of_length_le Form.Written.lt_length ?_)
      exact List.drop_eq_nil_iff.1 (drop_succ hdrop)
  | cons next more ih =>
      have hplace := place_succ hdrop
      by_cases hfound : ∃ before path, TextWritten stretches k before path
      · obtain ⟨before, path, hwritten⟩ := hfound
        obtain ⟨front, rfl, hopens, -⟩ := (written_iff hdrop).1 hwritten
        have hrest : (next :: more).flatMap (')' :: ·) = Form.text.closing ++
            (next ++ more.flatMap (')' :: ·)) := by
          rw [Form.closing_text, List.flatMap_cons, List.cons_append, List.singleton_append]
        have hdrop' : stretches.drop k = ([] ++ stretch) :: next :: more := hdrop
        have hstep := occurrencesFrom_of_opensIn hparen hdrop' hopens hrest
        rw [stop_text hdrop' hopens] at hstep
        rw [foundFrom_iff_of_written (fun h => h.unique hwritten) hwritten, ← ih (drop_succ hdrop),
          ← List.mem_cons]
        exact hstep ▸ Iff.rfl
      · simp only [not_exists] at hfound
        rw [occurrencesFrom_of_not_written hparen hdrop hfound, foundFrom_iff_of_not_written hfound,
          ← ih (drop_succ hdrop), hplace, List.flatMap_cons, List.cons_append, occurrencesFrom_closing]

/-- Between a number form and its last quote none is written. -/
theorem not_numberWritten_mark (hdrop : stretches.drop k = "(number".toList :: after) (before path : Text) :
    ¬NumberWritten stretches k before path := by
  rintro ⟨lead, -, free, front, after', hdrop', rfl, hopens, -⟩
  have hmark := (List.cons_eq_cons.1 (hdrop.symm.trans hdrop')).1
  have hquote : '"' ∉ "(number".toList := by decide
  have hopening : '"' ∈ Form.number.opening := by decide
  rw [hmark, hopens.eq] at hquote
  simp [hopening] at hquote

/-- The occurrences of the number form from a stretch on are the number forms written there. -/
theorem mem_number_occurrencesFrom_iff (hparen : ∀ stretch ∈ stretches, ')' ∉ stretch)
    {occurrence : Occurrence} (hdrop : stretches.drop k = (lead ++ free) :: after)
    (hlead : Uncounted (QuoteTaken stretches k) lead) (hnext : ¬QuoteTaken stretches (k + 1)) :
    occurrence ∈ Form.number.occurrencesFrom (place stretches k + lead.length) 0
      (free ++ after.flatMap (')' :: ·)) ↔
      FoundFrom .number (NumberWritten stretches) stretches k occurrence := by
  induction hlength : after.length using Nat.strongRecOn generalizing k lead free after with
  | ind length ih =>
      by_cases hfound : ∃ before path, NumberWritten stretches k before path
      · obtain ⟨before, path, hwritten⟩ := hfound
        obtain ⟨lead', hlead', hform⟩ := id hwritten
        obtain rfl := uncounted_unique hlead hlead'
        obtain ⟨front, rfl, hopens, rest, more, rfl⟩ := (written_iff hdrop).1 hform
        have hdropMark := drop_succ hdrop
        have hdropQuote : stretches.drop (k + 2) = (['"'] ++ rest) :: more := drop_succ hdropMark
        have hmark := not_numberWritten_mark hdropMark
        have hrest : ("(number".toList :: ('"' :: rest) :: more).flatMap (')' :: ·) =
            Form.number.closing ++ (rest ++ more.flatMap (')' :: ·)) := by
          rw [Form.closing_number, List.flatMap_cons, List.flatMap_cons]
          simp only [List.cons_append, List.append_assoc, List.nil_append]
        have hstep := occurrencesFrom_of_opensIn hparen hdrop hopens hrest
        rw [stop_number hdrop hopens] at hstep
        have hshorter : more.length < length := by
          simp only [← hlength, List.length_cons]
          omega
        have hih := ih more.length hshorter hdropQuote
          (.inl ⟨quoteTaken_iff.2 ⟨_, _, hwritten⟩, rfl⟩) (fun htaken => ?_) rfl
        · rw [foundFrom_iff_of_written (fun h => h.unique hwritten) hwritten,
            foundFrom_iff_of_not_written hmark, ← hih, ← List.mem_cons, hstep]
          exact Iff.rfl
        · obtain ⟨before, path, h⟩ := quoteTaken_iff.1 htaken
          exact hmark before path h
      · simp only [not_exists] at hfound
        have hform : ∀ before path, ¬Form.number.Written stretches k lead before path :=
          fun before path hwritten => hfound before path ⟨lead, hlead, hwritten⟩
        rw [occurrencesFrom_of_not_written hparen hdrop hform, foundFrom_iff_of_not_written hfound]
        cases after with
        | nil =>
            refine iff_of_false List.not_mem_nil (not_foundFrom_of_length_le ?_
              (List.drop_eq_nil_iff.1 (drop_succ hdrop)))
            exact fun ⟨_, _, hwritten⟩ => hwritten.lt_length
        | cons next more =>
            have hdropNext : stretches.drop (k + 1) = ([] ++ next) :: more := drop_succ hdrop
            have hplace : place stretches k + lead.length + free.length + 1 = place stretches (k + 1) := by
              rw [place_succ hdrop, List.length_append, Nat.add_assoc (place stretches k)]
            rw [List.flatMap_cons, List.cons_append, occurrencesFrom_closing, hplace]
            refine ih more.length (by simp [← hlength]) hdropNext (.inr ⟨hnext, rfl⟩) (fun htaken => ?_) rfl
            obtain ⟨before, path, h⟩ := quoteTaken_iff.1 htaken
            exact hfound before path h

/-! Text forms in number forms. -/

theorem place_le {j : Nat} (h : j ≤ k) : place stretches j ≤ place stretches k := by
  obtain ⟨n, rfl⟩ := Nat.exists_eq_add_of_le h
  rw [place, place, List.take_add, List.flatMap_append, List.length_append]
  exact Nat.le_add_right ..

theorem TextWritten.exists_opensIn (h : TextWritten stretches k before path) : ∃ stretch after,
    stretches.drop k = stretch :: after ∧ Form.text.OpensIn stretch before path := by
  obtain ⟨stretch, front, after, hdrop, rfl, hopens, -⟩ := h
  exact ⟨stretch, after, hdrop, hopens⟩

theorem TextWritten.stop (h : TextWritten stretches k before path) :
    (Occurrence.inStretch .text stretches k before path).stop = place stretches (k + 1) := by
  obtain ⟨stretch, front, after, hdrop, rfl, hopens, -⟩ := h
  exact stop_text hdrop hopens

theorem NumberWritten.exists_eq (h : NumberWritten stretches k before path) : ∃ stretch rest more,
    stretches.drop k = stretch :: "(number".toList :: ('"' :: rest) :: more ∧
      stretch = before ++ Form.number.opening ++ path := by
  obtain ⟨lead, -, free, front, after, hdrop, rfl, hopens, rest, more, rfl⟩ := h
  refine ⟨_, rest, more, hdrop, ?_⟩
  rw [hopens.eq]
  simp only [List.append_assoc]

theorem NumberWritten.stop (h : NumberWritten stretches k before path) :
    (Occurrence.inStretch .number stretches k before path).stop = place stretches (k + 2) + 1 := by
  obtain ⟨lead, -, free, front, after, hdrop, rfl, hopens, rest, more, rfl⟩ := h
  exact stop_number hdrop hopens

/-- The text form in a stretch is in the number form there if it begins with it. -/
theorem eq_append_quote {before' path' : Text} (htext : Form.text.OpensIn stretch before path)
    (hnumber : stretch = before' ++ Form.number.opening ++ path') (hle : before'.length ≤ before.length) :
    before = before' ++ ['"'] := by
  have hopening : Form.number.opening = ['"'] ++ Form.text.opening := by decide
  have hbehind : stretch = before' ++ ['"'] ++ Form.text.opening ++ path' := by
    rw [hnumber, hopening, List.append_assoc before' ['"']]
  have hfirst := htext.first hbehind
  rw [List.length_append, List.length_singleton] at hfirst
  have heq := htext.eq.symm.trans hbehind
  rw [List.append_assoc, List.append_assoc (before' ++ ['"'])] at heq
  rcases Nat.eq_or_lt_of_le hle with hsame | hlt
  · -- the text form would begin with the quote
    rw [List.append_assoc] at heq
    have hbegins := (List.append_inj heq hsame.symm).2
    have hdollar : ∃ opening, Form.text.opening = '$' :: opening := ⟨_, rfl⟩
    obtain ⟨opening, hdollar⟩ := hdollar
    rw [hdollar] at hbegins
    exact absurd (List.cons_eq_cons.1 hbegins).1 (by decide)
  · exact (List.append_inj heq (by simp only [List.length_append, List.length_singleton]; omega)).1

theorem inside_iff {j : Nat} {before' path' : Text} (htext : TextWritten stretches k before path)
    (hnumber : NumberWritten stretches j before' path') :
    (Occurrence.inStretch .text stretches k before path).inside
      (.inStretch .number stretches j before' path') ↔
      j = k ∧ before = before' ++ ['"'] := by
  obtain ⟨stretch, after, hdrop, hopens⟩ := htext.exists_opensIn
  obtain ⟨stretch', rest, more, hdrop', hstretch'⟩ := hnumber.exists_eq
  have hmark := drop_succ hdrop'
  rw [Occurrence.inside, Bool.and_eq_true, decide_eq_true_iff, decide_eq_true_iff, htext.stop, hnumber.stop,
    Occurrence.inStretch, Occurrence.inStretch]
  dsimp only
  constructor
  · rintro ⟨hstart, hstop⟩
    rcases Nat.lt_trichotomy j k with hlt | rfl | hlt
    · -- the mark of numbers has no text form in it, and behind the last quote the number form has ended
      exfalso
      rcases Nat.eq_or_lt_of_le hlt with rfl | hlt
      · obtain ⟨rfl, -⟩ := List.cons_eq_cons.1 (hdrop.symm.trans hmark)
        have hdollar : '$' ∉ "(number".toList := by decide
        have hopening : '$' ∈ Form.text.opening := by decide
        rw [hopens.eq] at hdollar
        simp [hopening] at hdollar
      · have hlast : place stretches (j + 2 + 1) = place stretches (j + 2) + (rest.length + 1) + 1 :=
          place_succ (drop_succ hmark)
        have hle : place stretches (j + 2 + 1) ≤ place stretches (k + 1) := place_le (Nat.succ_le_succ hlt)
        omega
    · obtain ⟨rfl, -⟩ := List.cons_eq_cons.1 (hdrop.symm.trans hdrop')
      exact ⟨rfl, eq_append_quote hopens hstretch' (Nat.le_of_add_le_add_left hstart)⟩
    · -- the text form begins in front of the stretch of the number form
      exfalso
      have hle : place stretches (k + 1) ≤ place stretches j := place_le hlt
      rw [place_succ hdrop, hopens.eq] at hle
      simp only [List.length_append] at hle
      omega
  · rintro ⟨rfl, rfl⟩
    have hle : place stretches (j + 1) ≤ place stretches (j + 2) := place_le (Nat.le_succ _)
    rw [List.length_append]
    omega

/-! What is found in a body. -/

section Bodies

variable (body : Text)

/-- A body is its first stretch and those behind it, each after a closing parenthesis. -/
theorem exists_stretches : ∃ stretch after, Text.split ')' body = stretch :: after ∧
    body = stretch ++ after.flatMap (')' :: ·) := by
  obtain ⟨stretch, after, hsplit⟩ := List.exists_cons_of_ne_nil (Text.split_ne_nil ')' body)
  refine ⟨stretch, after, hsplit, ?_⟩
  rw [← Text.join_cons, ← hsplit, Text.join_split]

theorem mem_text_occurrences_iff {occurrence : Occurrence} : occurrence ∈ Form.text.occurrences body ↔
    ∃ k before path, TextWritten (Text.split ')' body) k before path ∧
      occurrence = .inStretch .text (Text.split ')' body) k before path := by
  obtain ⟨stretch, after, hsplit, hbody⟩ := exists_stretches body
  rw [← foundFrom_zero_iff, ← mem_text_occurrencesFrom_iff (fun _ => Text.not_mem_of_mem_split)
    (show (Text.split ')' body).drop 0 = stretch :: after from hsplit), ← hbody]
  exact Iff.rfl

theorem mem_number_occurrences_iff {occurrence : Occurrence} : occurrence ∈ Form.number.occurrences body ↔
    ∃ k before path, NumberWritten (Text.split ')' body) k before path ∧
      occurrence = .inStretch .number (Text.split ')' body) k before path := by
  obtain ⟨stretch, after, hsplit, hbody⟩ := exists_stretches body
  rw [← foundFrom_zero_iff, ← mem_number_occurrencesFrom_iff (fun _ => Text.not_mem_of_mem_split)
    (show (Text.split ')' body).drop 0 = ([] ++ stretch) :: after from hsplit) (.inr ⟨id, rfl⟩) id, ← hbody]
  exact Iff.rfl

namespace Placeholder

variable {path : Text}

theorem number_mem_occurringIn_iff :
    (⟨path, .number⟩ : Placeholder) ∈ occurringIn body ↔
    ∃ k before, NumberWritten (Text.split ')' body) k before path := by
  simp only [occurringIn, Dictionary.mem_distinct, List.mem_append, List.mem_map,
    Placeholder.mk.injEq, and_true,
    reduceCtorEq, and_false, exists_false, or_false, mem_number_occurrences_iff]
  constructor
  · rintro ⟨_, ⟨k, before, _, hwritten, rfl⟩, rfl⟩
    exact ⟨k, before, hwritten⟩
  · rintro ⟨k, before, hwritten⟩
    exact ⟨_, ⟨k, before, path, hwritten, rfl⟩, rfl⟩

theorem text_mem_occurringIn_iff : (⟨path, .text⟩ : Placeholder) ∈ occurringIn body ↔
    ∃ k before, TextWritten (Text.split ')' body) k before path ∧
      ∀ before' path', NumberWritten (Text.split ')' body) k before' path' → before ≠ before' ++ ['"'] := by
  simp only [occurringIn, Dictionary.mem_distinct, List.mem_append, List.mem_map,
    Placeholder.mk.injEq, and_true,
    reduceCtorEq, and_false, exists_false, false_or, List.mem_filter, mem_text_occurrences_iff,
      Bool.not_eq_true',
    List.any_eq_false, mem_number_occurrences_iff]
  constructor
  · rintro ⟨_, ⟨⟨k, before, _, hwritten, rfl⟩, houtside⟩, rfl⟩
    refine ⟨k, before, hwritten, fun before' path' hnumber heq => ?_⟩
    exact houtside _ ⟨k, before', path', hnumber, rfl⟩ ((inside_iff hwritten hnumber).2 ⟨rfl, heq⟩)
  · rintro ⟨k, before, hwritten, houtside⟩
    refine ⟨_, ⟨⟨k, before, path, hwritten, rfl⟩, ?_⟩, rfl⟩
    rintro _ ⟨j, before', path', hnumber, rfl⟩ hinside
    obtain ⟨rfl, heq⟩ := (inside_iff hwritten hnumber).1 hinside
    exact houtside before' path' hnumber heq

/-- The placeholders of a body, by what stands between its closing parentheses: the occurrences of a
form are where it is written, and the placeholders are those of the number form together with those
of the text form that are in no number form, ordered by the bytes of their paths and, for one path,
with the number form first. -/
theorem occurringIn_iff_written :
    (∀ occurrence, occurrence ∈ Form.text.occurrences body ↔
      ∃ k before path, TextWritten (Text.split ')' body) k before path ∧
        occurrence = .inStretch .text (Text.split ')' body) k before path) ∧
    (∀ occurrence, occurrence ∈ Form.number.occurrences body ↔
      ∃ k before path, NumberWritten (Text.split ')' body) k before path ∧
        occurrence = .inStretch .number (Text.split ')' body) k before path) ∧
    (∀ path, ⟨path, .number⟩ ∈ occurringIn body ↔
      ∃ k before, NumberWritten (Text.split ')' body) k before path) ∧
    (∀ path, ⟨path, .text⟩ ∈ occurringIn body ↔
      ∃ k before, TextWritten (Text.split ')' body) k before path ∧
        ∀ before' path', NumberWritten (Text.split ')' body) k before' path' → before ≠ before' ++ ['"']) ∧
    (occurringIn body).Pairwise fun a b =>
      Utf8.encode a.path < Utf8.encode b.path ∨ a.path = b.path ∧ a.form = .number ∧ b.form = .text := by
  refine ⟨fun _ => mem_text_occurrences_iff body, fun _ => mem_number_occurrences_iff body,
    fun _ => number_mem_occurringIn_iff body, fun _ => text_mem_occurringIn_iff body, ?_⟩
  exact (increasing_occurringIn body).imp fun hlt => hlt.imp_left Utf8.encode_lt_encode

end Placeholder

end Bodies

end ServerPack
