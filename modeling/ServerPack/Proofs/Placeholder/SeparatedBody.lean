import ServerPack.Proofs.Placeholder.ByPath
import ServerPack.Text.Replace

/-!
Bodies in which references stand apart from each other. A body is put together from characters and
references to paths (`Segment.render`). It is separated if a reference begins wherever one seems to
begin and no reference is followed by a parenthesis (`Segment.Separated`). Then a form is found
where a reference in this form is a part, and the placeholders of the body are its references
(`mem_occurringIn_render_iff`).
-/

namespace ServerPack

namespace Form

variable {form : Form} {path text : Text}

/-! Placeholders at a place. -/

theorem pathAt?_eq_some_iff :
    form.pathAt? text = some path ↔ path ≠ [] ∧ ')' ∉ path ∧ Placeholder.literal ⟨path, form⟩ <+: text := by
  obtain ⟨closing, hclosing⟩ : ∃ closing, form.closing = ')' :: closing := by cases form <;> exact ⟨_, rfl⟩
  constructor
  · intro h
    have hliteral := literal_prefix_of_pathAt? h
    rw [pathAt?] at h
    split at h
    · dsimp only at h
      split at h
      · next hne =>
        cases h
        exact ⟨hne.1, fun hmem => by simpa using List.all_eq_true.1 List.all_takeWhile _ hmem, hliteral⟩
      · cases h
    · cases h
  · rintro ⟨hne, hparen, rest, rfl⟩
    have hall : ∀ c ∈ path, (decide (c ≠ ')')) = true := fun c hc => decide_eq_true fun heq =>
      hparen (heq ▸ hc)
    have hbody : Placeholder.literal ⟨path, form⟩ ++ rest = form.opening ++
        (path ++ (form.closing ++ rest)) := by
      rw [Placeholder.literal, List.append_assoc, List.append_assoc]
    have htake : (path ++ (form.closing ++ rest)).takeWhile (· ≠ ')') = path := by
      rw [hclosing, List.takeWhile_append_of_pos hall]
      simp
    have hdrop : (path ++ (form.closing ++ rest)).dropWhile (· ≠ ')') = form.closing ++ rest := by
      rw [hclosing, List.dropWhile_append_of_pos hall]
      simp
    rw [pathAt?, hbody, if_pos (List.isPrefixOf_iff_prefix.2 (List.prefix_append ..)), List.drop_left]
    dsimp only
    rw [htake, hdrop, if_pos ⟨hne, List.isPrefixOf_iff_prefix.2 (List.prefix_append ..)⟩]

theorem length_literal (form : Form) (path : Text) :
    (Placeholder.literal ⟨path, form⟩).length = form.width path := by
  rw [Placeholder.literal, List.length_append, List.length_append]
  rfl

theorem width_number (path : Text) :
    Form.number.width path = 1 + Form.text.width path + "(number)\"".toList.length := by
  have hopening : Form.number.opening.length = 1 + Form.text.opening.length := by decide
  have hclosing : Form.number.closing.length =
    Form.text.closing.length + "(number)\"".toList.length := by decide
  rw [width, width, hopening, hclosing]
  omega

theorem width_pos (form : Form) (path : Text) : 0 < form.width path := by
  have hclosing : 0 < form.closing.length := by cases form <;> decide
  exact Nat.lt_of_lt_of_le hclosing (Nat.le_add_left ..)

/-- A text form begins with a dollar sign, a parenthesis and an `m`. -/
theorem literal_text (path : Text) :
    Placeholder.literal ⟨path, .text⟩ = '$' :: (['(', 'm', 'c', 'p', '.'] ++ path ++ [')']) := by
  rw [Placeholder.literal]
  rfl

/-- A number form is a text form between a quote and the mark of numbers. -/
theorem literal_number (path : Text) : Placeholder.literal ⟨path, .number⟩ =
    '"' :: (Placeholder.literal ⟨path, .text⟩ ++ "(number)\"".toList) := by
  have hopening : Form.number.opening = '"' :: Form.text.opening := by decide
  have hclosing : Form.number.closing = Form.text.closing ++ "(number)\"".toList := by decide
  rw [Placeholder.literal, Placeholder.literal, hopening, hclosing]
  simp only [List.cons_append, List.append_assoc]

theorem literal_ne_nil (placeholder : Placeholder) : placeholder.literal ≠ [] := by
  obtain ⟨path, form⟩ := placeholder
  cases form with
  | text => exact literal_text path ▸ List.cons_ne_nil _ _
  | number => exact literal_number path ▸ List.cons_ne_nil _ _

theorem quote_not_mem_literal {path : Text} (hpath : '"' ∉ path) :
    '"' ∉ Placeholder.literal ⟨path, .text⟩ := by
  simp [literal_text, hpath]

/-- A text that does not begin with a dollar sign begins with no text form. -/
theorem pathAt?_text_of_ne {c : Char} (h : c ≠ '$') (rest : Text) :
    Form.text.pathAt? (c :: rest) = none := by
  refine Option.eq_none_iff_forall_ne_some.2 fun path hpath => h ?_
  obtain ⟨-, -, hbegins⟩ := pathAt?_eq_some_iff.1 hpath
  exact (List.cons_prefix_cons.1 (literal_text path ▸ hbegins)).1.symm

/-- Nor does one in which no parenthesis and `m` follow the dollar sign. -/
theorem pathAt?_text_of_not_opening {rest : Text} (h : ¬['(', 'm'] <+: rest) :
    Form.text.pathAt? ('$' :: rest) = none := by
  refine Option.eq_none_iff_forall_ne_some.2 fun path hpath => h ?_
  obtain ⟨-, -, more, hbegins⟩ := pathAt?_eq_some_iff.1 hpath
  rw [literal_text] at hbegins
  exact ⟨_, (List.cons_eq_cons.1 hbegins).2⟩

theorem pathAt?_number_eq_some_iff {c : Char} {rest : Text} : Form.number.pathAt? (c :: rest) = some path ↔
    c = '"' ∧ Form.text.pathAt? rest = some path ∧
    Placeholder.literal ⟨path, .text⟩ ++ "(number)\"".toList <+: rest := by
  rw [pathAt?_eq_some_iff, pathAt?_eq_some_iff, literal_number, List.cons_prefix_cons]
  constructor
  · rintro ⟨hne, hparen, rfl, hbegins⟩
    exact ⟨rfl, ⟨hne, hparen, (List.prefix_append ..).trans hbegins⟩, hbegins⟩
  · rintro ⟨rfl, ⟨hne, hparen, -⟩, hbegins⟩
    exact ⟨hne, hparen, rfl, hbegins⟩

theorem pathAt?_number_of_ne {c : Char} (h : c ≠ '"') (rest : Text) :
    Form.number.pathAt? (c :: rest) = none :=
  Option.eq_none_iff_forall_ne_some.2 fun _ hpath => h (pathAt?_number_eq_some_iff.1 hpath).1

theorem pathAt?_number_of_text {c : Char} {rest : Text} (h : Form.text.pathAt? rest = none) :
    Form.number.pathAt? (c :: rest) = none :=
  Option.eq_none_iff_forall_ne_some.2 fun path hpath => by
    have htext := (pathAt?_number_eq_some_iff.1 hpath).2.1
    rw [h] at htext
    cases htext

/-! Texts in which no placeholder begins. -/

/-- In front of a text no placeholder of this form begins. -/
def Silent (form : Form) : (lead rest : Text) → Prop
  | [], _ => True
  | c :: lead, rest => form.pathAt? (c :: (lead ++ rest)) = none ∧ Silent form lead rest

theorem silent_append {lead lead' rest : Text} (h : form.Silent lead (lead' ++ rest))
    (h' : form.Silent lead' rest) :
    form.Silent (lead ++ lead') rest := by
  induction lead with
  | nil => exact h'
  | cons c lead ih => exact ⟨(congrArg (fun rest => form.pathAt? (c :: rest))
    (List.append_assoc ..)).trans h.1, ih h.2⟩

theorem silent_text {lead : Text} (h : '$' ∉ lead) (rest : Text) : Form.text.Silent lead rest := by
  induction lead with
  | nil => trivial
  | cons c lead ih =>
      obtain ⟨hc, hlead⟩ := not_or.1 (mt List.mem_cons.2 h)
      exact ⟨pathAt?_text_of_ne (Ne.symm hc) _, ih hlead⟩

/-- Where no dollar sign is followed by a parenthesis no placeholder begins. -/
theorem silent_of_not_infix {lead : Text} (h : ¬['$', '('] <:+: lead) (rest : Text) :
    form.Silent (lead ++ [')']) rest := by
  have htext : ∀ {lead : Text}, ¬['$', '('] <:+: lead →
      Form.text.pathAt? (lead ++ [')'] ++ rest) = none := by
    intro lead h
    rcases lead with _ | ⟨c, lead⟩
    · exact pathAt?_text_of_ne (by decide) _
    by_cases hc : c = '$'
    · subst hc
      refine pathAt?_text_of_not_opening ?_
      rcases lead with _ | ⟨c, lead⟩
      · simp
      · intro hbegins
        obtain rfl : c = '(' := (List.cons_prefix_cons.1 hbegins).1.symm
        exact h ⟨[], lead, rfl⟩
    · exact pathAt?_text_of_ne hc _
  induction lead with
  | nil => exact ⟨by cases form <;> rfl, trivial⟩
  | cons c lead ih =>
      have hlead : ¬['$', '('] <:+: lead :=
        fun hwithin => h (hwithin.trans (List.suffix_cons c lead).isInfix)
      refine ⟨?_, ih hlead⟩
      cases form with
      | text => exact htext h
      | number => exact pathAt?_number_of_text (htext hlead)

theorem silent_number {lead : Text} (h : '"' ∉ lead) (rest : Text) : Form.number.Silent lead rest := by
  induction lead with
  | nil => trivial
  | cons c lead ih =>
      obtain ⟨hc, hlead⟩ := not_or.1 (mt List.mem_cons.2 h)
      exact ⟨pathAt?_number_of_ne (Ne.symm hc) _, ih hlead⟩

theorem occurrencesFrom_skip (form : Form) {start skip : Nat} {text : Text} (h : skip ≤ text.length) :
    form.occurrencesFrom start skip text = form.occurrencesFrom (start + skip) 0 (text.drop skip) := by
  induction text generalizing start skip with
  | nil =>
      obtain rfl : skip = 0 := by simpa using h
      rfl
  | cons c rest ih =>
      cases skip with
      | zero => rfl
      | succ skip =>
          rw [occurrencesFrom, ih (Nat.le_of_succ_le_succ h), Nat.add_right_comm]
          rfl

theorem occurrencesFrom_silent {lead rest : Text} (h : form.Silent lead rest) (start : Nat) :
    form.occurrencesFrom start 0 (lead ++ rest) = form.occurrencesFrom (start + lead.length) 0 rest := by
  induction lead generalizing start with
  | nil => rfl
  | cons c lead ih =>
      rw [List.cons_append, occurrencesFrom, h.1]
      dsimp only
      rw [ih h.2, List.length_cons, Nat.add_right_comm, Nat.add_assoc]

theorem occurrencesFrom_literal (hne : path ≠ []) (hparen : ')' ∉ path) (start : Nat) (rest : Text) :
    form.occurrencesFrom start 0 (Placeholder.literal ⟨path, form⟩ ++ rest) =
      ⟨path, start, start + form.width path⟩ :: form.occurrencesFrom (start + form.width path) 0 rest := by
  have hpath : form.pathAt? (Placeholder.literal ⟨path, form⟩ ++ rest) = some path :=
    pathAt?_eq_some_iff.2 ⟨hne, hparen, List.prefix_append ..⟩
  have hlength := length_literal form path
  obtain ⟨c, more, hliteral⟩ : ∃ c more, Placeholder.literal ⟨path, form⟩ = c :: more := by
    cases form <;> exact ⟨_, _, rfl⟩
  rw [hliteral] at hpath hlength ⊢
  have hmore : more.length = form.width path - 1 := by rw [← hlength]; rfl
  have hpositive : 0 < form.width path := by rw [← hlength]; exact Nat.succ_pos _
  rw [List.cons_append] at hpath ⊢
  rw [occurrencesFrom, hpath]
  dsimp only
  rw [occurrencesFrom_skip form (by rw [List.length_append, hmore]; exact Nat.le_add_right ..),
    ← hmore, List.drop_left, hmore, Nat.add_assoc, Nat.add_sub_cancel' hpositive]

end Form

/-- A part of a body: a character that stands for itself, or a reference to a path. -/
inductive Segment where
  | char (c : Char)
  | reference (form : Form) (path : Text)
  deriving DecidableEq

namespace Segment

/-- How a part is written. -/
def text : Segment → Text
  | .char c => [c]
  | .reference form path => Placeholder.literal ⟨path, form⟩

/-- The body that consists of parts. -/
def render (segments : List Segment) : Text := segments.flatMap text

theorem render_cons (segment : Segment) (rest : List Segment) :
    render (segment :: rest) = segment.text ++ render rest :=
  rfl

theorem render_append (segments more : List Segment) :
    render (segments ++ more) = render segments ++ render more :=
  List.flatMap_append

/-- A path that can be read off again from a reference to it. -/
structure IsPath (path : Text) : Prop where
  ne_nil : path ≠ []
  closing : ')' ∉ path
  opening : ¬['$', '('] <:+: path

/-- No parenthesis is opened at the beginning. -/
def Clear : List Segment → Prop
  | .char c :: _ => c ≠ '('
  | .reference _ _ :: _ | [] => True

/-- References stand apart: no parenthesis follows them, and where no reference begins either no
parenthesis follows a dollar sign or something else than an `m` follows that. -/
inductive Separated : List Segment → Prop
  | nil : Separated []
  | char {c rest} (hdollar : c = '$' → Clear rest) (hrest : Separated rest) : Separated (.char c :: rest)
  | foreign {c rest} (hc : c ≠ 'm') (hrest : Separated (.char '(' :: .char c :: rest)) :
      Separated (.char '$' :: .char '(' :: .char c :: rest)
  | reference {form path rest} (hpath : IsPath path) (hbehind : Clear rest) (hrest : Separated rest) :
      Separated (.reference form path :: rest)

variable {form : Form} {path : Text} {segments rest : List Segment}

theorem Separated.tail {segment : Segment} (h : Separated (segment :: rest)) : Separated rest := by
  cases h <;> assumption

theorem Clear.not_begins (h : Clear segments) : ¬['('] <+: render segments := by
  rintro ⟨more, hmore⟩
  rcases segments with _ | ⟨c | ⟨form, path⟩, rest⟩
  · cases hmore
  · exact h (List.cons_eq_cons.1 hmore).1.symm
  · cases form with
    | text => cases (List.cons_eq_cons.1 hmore).1
    | number => cases (List.cons_eq_cons.1 hmore).1

/-- What follows a reference does not make a number form of it. -/
theorem Clear.not_number (h : Clear segments) : ¬"(number)\"".toList <+: render segments := fun hbegins =>
  h.not_begins ((by decide : ['('] <+: "(number)\"".toList).trans hbegins)

theorem pathAt?_reference (hpath : IsPath path) (more : Text) :
    form.pathAt? (Placeholder.literal ⟨path, form⟩ ++ more) = some path :=
  Form.pathAt?_eq_some_iff.2 ⟨hpath.ne_nil, hpath.closing, List.prefix_append ..⟩

theorem pathAt?_text_char {c : Char} (h : Separated (.char c :: rest)) :
    Form.text.pathAt? (c :: render rest) = none := by
  by_cases hc : c = '$'
  · subst hc
    refine Form.pathAt?_text_of_not_opening ?_
    cases h with
    | char hdollar _ =>
        intro hbegins
        exact (hdollar rfl).not_begins ((by decide : ['('] <+: ['(', 'm']).trans hbegins)
    | foreign hc _ =>
        intro hbegins
        exact hc (List.cons_prefix_cons.1 (List.cons_prefix_cons.1 hbegins).2).1.symm
  · exact Form.pathAt?_text_of_ne hc _

/-- A number form begins only where it is a part. -/
theorem pathAt?_number_cons (h : Separated rest) (c : Char) :
    Form.number.pathAt? (c :: render rest) = none := by
  refine Option.eq_none_iff_forall_ne_some.2 fun path hnumber => ?_
  obtain ⟨-, htext, hbegins⟩ := Form.pathAt?_number_eq_some_iff.1 hnumber
  rcases rest with _ | ⟨c | ⟨_ | _, other⟩, rest⟩
  · cases htext
  · cases (pathAt?_text_char h).symm.trans htext
  · cases (Form.pathAt?_text_of_ne (by decide) _).symm.trans htext
  · cases h with
    | reference hother hbehind _ =>
        obtain rfl := Option.some.inj ((pathAt?_reference hother _).symm.trans htext)
        exact hbehind.not_number ((List.prefix_append_right_inj _).1 hbegins)

theorem pathAt?_char {c : Char} (h : Separated (.char c :: rest)) :
    form.pathAt? (c :: render rest) = none := by
  cases form with
  | text => exact pathAt?_text_char h
  | number => exact pathAt?_number_cons h.tail c

/-- Behind its dollar sign a reference is silent. -/
theorem IsPath.silent (h : IsPath path) (rest : Text) :
    form.Silent (['(', 'm', 'c', 'p', '.'] ++ path ++ [')']) rest :=
  Form.silent_of_not_infix (by simp [List.infix_cons_iff, h.opening]) rest

/-! Finding references. -/

/-- The occurrences of one form in a part that begins at a place. -/
def found (form : Form) (start : Nat) : Segment → List Occurrence
  | .char _ => []
  | .reference .text path =>
    match form with
    | .text => [⟨path, start, start + Form.text.width path⟩]
    | .number => []
  | .reference .number path =>
    match form with
    | .text => [⟨path, start + 1, start + 1 + Form.text.width path⟩]
    | .number => [⟨path, start, start + Form.number.width path⟩]

/-- The occurrences of one form in parts of which the first begins at a place. -/
def foundIn (form : Form) : Nat → List Segment → List Occurrence
  | _, [] => []
  | start, segment :: rest => segment.found form start ++ foundIn form (start + segment.text.length) rest

theorem foundIn_append (form : Form) (start : Nat) (segments more : List Segment) :
    foundIn form start (segments ++ more) =
      foundIn form start segments ++ foundIn form (start + (render segments).length) more := by
  induction segments generalizing start with
  | nil => rfl
  | cons segment rest ih =>
      rw [List.cons_append, foundIn, foundIn, ih, render_cons, List.length_append, Nat.add_assoc,
        List.append_assoc]

/-- The occurrences in a body that is separated are those of its references. -/
theorem occurrencesFrom_render (h : Separated segments) (form : Form) (start : Nat) :
    form.occurrencesFrom start 0 (render segments) = foundIn form start segments := by
  induction segments generalizing start with
  | nil => rfl
  | cons segment rest ih =>
      rw [foundIn, ← ih h.tail, render_cons]
      cases segment with
      | char c =>
          have hsilent : form.Silent [c] (render rest) := ⟨pathAt?_char h, trivial⟩
          exact Form.occurrencesFrom_silent hsilent start
      | reference form' path =>
          have hpath : IsPath path := by
            cases h
            assumption
          have hliteral := @Form.occurrencesFrom_literal form path hpath.ne_nil hpath.closing
          have hlength := Form.length_literal
          cases form' with
          | text =>
              cases form with
              | text => rw [text, hliteral, hlength]; rfl
              | number =>
                  refine Form.occurrencesFrom_silent ?_ start
                  rw [text, Form.literal_text]
                  exact ⟨Form.pathAt?_number_of_ne (by decide) _, hpath.silent _⟩
          | number =>
              cases form with
              | number => rw [text, hliteral, hlength]; rfl
              | text =>
                  have hquote : Form.text.Silent ['"']
                      (Placeholder.literal ⟨path, .text⟩ ++ ("(number)\"".toList ++ render rest)) :=
                    Form.silent_text (by decide) _
                  have hmark : Form.text.Silent "(number)\"".toList (render rest) :=
                    Form.silent_text (by decide) _
                  have hbody : (Segment.reference .number path).text ++ render rest =
                      ['"'] ++ (Placeholder.literal ⟨path, .text⟩ ++
                          ("(number)\"".toList ++ render rest)) := by
                    rw [text, Form.literal_number]
                    simp only [List.cons_append, List.append_assoc, List.nil_append]
                  rw [hbody, Form.occurrencesFrom_silent hquote, hliteral,
                    Form.occurrencesFrom_silent hmark, text, hlength,
                    Form.width_number, ← Nat.add_assoc, ← Nat.add_assoc]
                  rfl

theorem bounds_of_mem_found {segment : Segment} {start : Nat} {occurrence : Occurrence}
    (h : occurrence ∈ segment.found form start) : start ≤ occurrence.start ∧
    occurrence.start < occurrence.stop ∧
      occurrence.stop ≤ start + segment.text.length := by
  have hlength := Form.length_literal
  have hwidth := Form.width_pos
  rcases segment with c | ⟨_ | _, path⟩ <;> cases form
  · cases h
  · cases h
  · obtain rfl := List.mem_singleton.1 h
    have hpositive := hwidth .number path
    exact ⟨Nat.le_refl _, by dsimp only; omega, Nat.le_of_eq (by rw [text, hlength])⟩
  · obtain rfl := List.mem_singleton.1 h
    have hpositive := hwidth .text path
    have hnumber := Form.width_number path
    rw [text, hlength, hnumber]
    dsimp only
    omega
  · cases h
  · obtain rfl := List.mem_singleton.1 h
    have hpositive := hwidth .text path
    exact ⟨Nat.le_refl _, by dsimp only; omega, Nat.le_of_eq (by rw [text, hlength])⟩

theorem bounds_of_mem_foundIn {start : Nat} {occurrence : Occurrence}
    (h : occurrence ∈ foundIn form start segments) :
    start ≤ occurrence.start ∧ occurrence.start < occurrence.stop ∧
      occurrence.stop ≤ start + (render segments).length := by
  induction segments generalizing start with
  | nil => cases h
  | cons segment rest ih =>
      rw [render_cons, List.length_append]
      rcases List.mem_append.1 h with h | h
      · have hbounds := bounds_of_mem_found h
        omega
      · have hbounds := ih h
        omega

theorem exists_of_mem_foundIn {start : Nat} {occurrence : Occurrence}
    (h : occurrence ∈ foundIn form start segments) :
    ∃ before segment after, segments = before ++ segment :: after ∧
      occurrence ∈ segment.found form (start + (render before).length) := by
  induction segments generalizing start with
  | nil => cases h
  | cons segment rest ih =>
      rcases List.mem_append.1 h with h | h
      · exact ⟨[], segment, rest, rfl, h⟩
      · obtain ⟨before, other, after, rfl, hfound⟩ := ih h
        refine ⟨segment :: before, other, after, rfl, ?_⟩
        rw [render_cons, List.length_append, ← Nat.add_assoc]
        exact hfound

theorem mem_foundIn {start : Nat} {before after : List Segment} {segment : Segment}
    {occurrence : Occurrence} (h : occurrence ∈ segment.found form (start + (render before).length)) :
    occurrence ∈ foundIn form start (before ++ segment :: after) := by
  rw [foundIn_append, foundIn]
  exact List.mem_append_right _ (List.mem_append_left _ h)

/-- The text form inside a reference of the number form lies inside an occurrence of that form. -/
theorem any_inside_of_number (before after : List Segment) (path : Text) {occurrence : Occurrence}
    (h : occurrence ∈ (reference .number path).found .text (0 + (render before).length)) :
    (foundIn .number 0 (before ++ .reference .number path :: after)).any occurrence.inside = true := by
  obtain rfl := List.mem_singleton.1 h
  refine List.any_eq_true.2 ⟨_, mem_foundIn (List.mem_singleton.2 rfl), ?_⟩
  have hwidth := Form.width_number path
  simp only [Occurrence.inside, Bool.and_eq_true, decide_eq_true_eq]
  omega

/-- A reference of the text form lies inside no occurrence of the number form. -/
theorem not_any_inside_of_text (before after : List Segment) (path : Text) {occurrence : Occurrence}
    (h : occurrence ∈ (reference .text path).found .text (0 + (render before).length)) :
    (foundIn .number 0 (before ++ .reference .text path :: after)).any occurrence.inside = false := by
  obtain rfl := List.mem_singleton.1 h
  rw [List.any_eq_false]
  intro other hother hinside
  have hwidth := Form.width_pos .text path
  have hlength := Form.length_literal .text path
  simp only [Occurrence.inside, Bool.and_eq_true, decide_eq_true_eq] at hinside
  rw [foundIn_append, foundIn, List.mem_append, List.mem_append] at hother
  rcases hother with hother | hother | hother
  · have hbounds := bounds_of_mem_foundIn hother
    omega
  · cases hother
  · have hbounds := bounds_of_mem_foundIn hother
    rw [text, hlength] at hbounds
    omega

/-- The placeholders that are found in a separated body are its references. -/
theorem mem_occurringIn_render_iff (h : Separated segments) :
    ⟨path, form⟩ ∈ Placeholder.occurringIn (render segments) ↔ .reference form path ∈ segments := by
  have hnumbers : Form.number.occurrences (render segments) = foundIn .number 0 segments :=
    occurrencesFrom_render h .number 0
  have htexts : Form.text.occurrences (render segments) = foundIn .text 0 segments :=
    occurrencesFrom_render h .text 0
  rw [Placeholder.occurringIn, Dictionary.mem_distinct, List.mem_append, List.mem_map, List.mem_map,
    hnumbers, htexts]
  cases form with
  | number =>
      constructor
      · rintro (⟨occurrence, hfound, heq⟩ | ⟨_, -, heq⟩)
        · obtain ⟨before, segment, after, rfl, hpart⟩ := exists_of_mem_foundIn hfound
          rcases segment with c | ⟨_ | _, other⟩
          · cases hpart
          · obtain rfl := List.mem_singleton.1 hpart
            cases heq
            simp
          · cases hpart
        · cases heq
      · intro hmem
        obtain ⟨before, after, rfl⟩ := List.append_of_mem hmem
        exact .inl ⟨_, mem_foundIn (List.mem_singleton.2 rfl), rfl⟩
  | text =>
      constructor
      · rintro (⟨_, -, heq⟩ | ⟨occurrence, hfound, heq⟩)
        · cases heq
        · obtain ⟨hfound, hnumber⟩ := List.mem_filter.1 hfound
          obtain ⟨before, segment, after, rfl, hpart⟩ := exists_of_mem_foundIn hfound
          rcases segment with c | ⟨_ | _, other⟩
          · cases hpart
          · rw [any_inside_of_number before after other hpart] at hnumber
            cases hnumber
          · obtain rfl := List.mem_singleton.1 hpart
            cases heq
            simp
      · intro hmem
        obtain ⟨before, after, rfl⟩ := List.append_of_mem hmem
        have hpart := List.mem_singleton.2 (Eq.refl
          (⟨path, 0 + (render before).length, 0 + (render before).length + Form.text.width path⟩ :
            Occurrence))
        refine .inr ⟨_, List.mem_filter.2 ⟨mem_foundIn hpart, ?_⟩, rfl⟩
        rw [not_any_inside_of_text before after path hpart]
        rfl

end Segment

end ServerPack
