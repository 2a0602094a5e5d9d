import ServerPack.Proofs.Placeholder.SeparatedSubstitution

/-!
Replacing in a text that has a string in it. An occurrence of a pattern that does not reach over a
border lies on one side of it (`Text.replaceAll_append`). Only the quotes of a number form reach
over the quotes of a string, and these are where it begins and where it ends
(`Form.splits_before_quote`, `Form.splits_behind_quote`). So what stands around the string is
replaced as if the string were not there (`Framed.replaceAll`), and it keeps to the form that this
takes (`Framed.next`).
-/

namespace ServerPack

namespace Text

variable {pattern front rest : Text} (value : Text)

/-- No occurrence of a pattern reaches over the border of two texts. -/
def Splits (pattern front rest : Text) : Prop :=
  ∀ first second, pattern = first ++ second → first ≠ [] → second ≠ [] → first <:+ front → ¬second <+: rest

theorem replaceAll_append (hne : pattern ≠ []) (h : Splits pattern front rest) :
    replaceAll pattern value (front ++ rest) = replaceAll pattern value front ++
      replaceAll pattern value rest := by
  induction hlength : front.length using Nat.strongRecOn generalizing front with
  | ind length ih =>
      have hpositive := List.length_pos_iff.2 hne
      by_cases hbegins : pattern <+: front
      · obtain ⟨more, rfl⟩ := hbegins
        rw [List.length_append] at hlength
        have hmore : Splits pattern more rest := fun first second heq hfirst hsecond hends =>
          h first second heq hfirst hsecond (hends.trans (List.suffix_append pattern more))
        rw [List.append_assoc, replaceAll_pattern_append value hne, replaceAll_pattern_append value hne,
          ih more.length (by omega) hmore rfl, List.append_assoc]
      · cases front with
        | nil => rfl
        | cons c front =>
            have hbeyond : ¬pattern <+: c :: (front ++ rest) := by
              intro hover
              rcases List.prefix_or_prefix_of_prefix hover
                (List.prefix_append (c :: front) rest) with hshort | ⟨second, rfl⟩
              · exact hbegins hshort
              · have hrest : second <+: rest := (List.prefix_append_right_inj (c :: front)).1 hover
                have hsecond : second ≠ [] := by
                  rintro rfl
                  exact hbegins ⟨[], by rw [List.append_nil, List.append_nil]⟩
                exact h (c :: front) second rfl (List.cons_ne_nil c front) hsecond
                  (List.suffix_refl _) hrest
            have hfront : Splits pattern front rest := fun first second heq hfirst hsecond hends =>
              h first second heq hfirst hsecond (hends.trans (List.suffix_cons c front))
            rw [List.cons_append, replaceAll_cons_of_not value hbeyond,
              replaceAll_cons_of_not value hbegins,
              ih front.length (by simp [← hlength]) hfront rfl, List.cons_append]

/-- What stands in front of the last character, if this is not in it. -/
theorem eq_of_append_singleton {c : Char} {l first second : Text} (h : c ∉ l)
    (heq : l ++ [c] = first ++ c :: second) :
    first = l ∧ second = [] := by
  rcases List.eq_nil_or_concat second with rfl | ⟨more, d, rfl⟩
  · exact ⟨(List.append_inj' heq rfl).1.symm, rfl⟩
  · rw [List.concat_eq_append, ← List.cons_append, ← List.append_assoc] at heq
    have hl := (List.append_inj' heq rfl).1
    exact absurd (by simp [hl]) h

end Text

namespace Form

variable {form : Form} {path front rest : Text}

/-- What stands between the quotes of a number form. -/
def core (path : Text) : Text := Placeholder.literal ⟨path, .text⟩ ++ "(number)".toList

theorem literal_number_eq_core (path : Text) :
    Placeholder.literal ⟨path, .number⟩ = '"' :: (core path ++ ['"']) := by
  have hmark : "(number)\"".toList = "(number)".toList ++ ['"'] := by decide
  rw [literal_number, core, hmark, List.append_assoc]

theorem quote_not_mem_core (hpath : '"' ∉ path) : '"' ∉ core path := by
  have hmark : '"' ∉ "(number)".toList := by decide
  rw [core, List.mem_append, not_or]
  exact ⟨quote_not_mem_literal hpath, hmark⟩

/-- A pattern does not reach over a quote behind which a text begins if it is no number form that
ends with this quote. -/
theorem splits_before_quote (hpath : '"' ∉ path) (h : form = .number → ¬('"' :: core path <:+ front)) :
    Text.Splits (Placeholder.literal ⟨path, form⟩) front ('"' :: rest) := by
  intro first second heq hfirst hsecond hends hbegins
  obtain ⟨c, second, rfl⟩ := List.exists_cons_of_ne_nil hsecond
  obtain rfl : c = '"' := (List.cons_prefix_cons.1 hbegins).1
  cases form with
  | text => exact quote_not_mem_literal hpath (by simp [heq])
  | number =>
      obtain ⟨d, first, rfl⟩ := List.exists_cons_of_ne_nil hfirst
      rw [literal_number_eq_core, List.cons_append] at heq
      obtain ⟨rfl, hcore⟩ := List.cons_eq_cons.1 heq
      obtain ⟨rfl, -⟩ := Text.eq_of_append_singleton (quote_not_mem_core hpath) hcore
      exact h rfl hends

/-- A pattern does not reach over a quote in front of a text if it is no number form that begins
with this quote. -/
theorem splits_behind_quote (hpath : '"' ∉ path) (h : form = .number → ¬core path ++ ['"'] <+: rest) :
    Text.Splits (Placeholder.literal ⟨path, form⟩) ['"'] rest := by
  intro first second heq hfirst hsecond hends hbegins
  obtain rfl : first = ['"'] := by
    rcases List.suffix_cons_iff.1 hends with hsame | hnil
    · exact hsame
    · exact absurd (List.suffix_nil.1 hnil) hfirst
  cases form with
  | text => exact quote_not_mem_literal hpath (by simp [heq])
  | number =>
      rw [literal_number_eq_core, List.singleton_append] at heq
      obtain ⟨-, rfl⟩ := List.cons_eq_cons.1 heq
      exact h rfl hbegins

end Form

/-! A string in a text. -/

/-- What may stand around a string: neither a closing parenthesis nor a quote in front of it, and
neither a dollar sign nor a quote behind it. -/
structure Framed (front rest : Text) : Prop where
  paren : ¬[')'] <:+ front
  quote : ¬['"'] <:+ front
  dollar : ¬['$'] <+: rest
  quote' : ¬['"'] <+: rest

namespace Framed

variable {front middle rest path : Text} {form : Form}

/-- The number form of a path neither begins nor ends at the quotes of a string. -/
structure ClearOfQuotes (path middle rest : Text) : Prop where
  begins : ¬Form.core path ++ ['"'] <+: middle ++ '"' :: rest
  ends : ¬('"' :: Form.core path <:+ middle)

/-- Patterns are replaced in a string and around it. -/
theorem replaceAll (h : Framed front rest) (hpath : '"' ∉ path)
    (hmiddle : form = .number → ClearOfQuotes path middle rest) (value : Text) :
    Text.replaceAll (Placeholder.literal ⟨path, form⟩) value (front ++ '"' :: (middle ++ '"' :: rest)) =
      Text.replaceAll (Placeholder.literal ⟨path, form⟩) value front ++
        '"' :: (Text.replaceAll (Placeholder.literal ⟨path, form⟩) value middle ++
          '"' :: Text.replaceAll (Placeholder.literal ⟨path, form⟩) value rest) := by
  have hne := Form.literal_ne_nil ⟨path, form⟩
  have hlast : ∃ core, Form.core path = core ++ [')'] :=
    ⟨Placeholder.literal ⟨path, .text⟩ ++ "(number".toList, by
      rw [Form.core, List.append_assoc]; exact congrArg _ (by decide)⟩
  have hfirst : ∃ core, Form.core path = '$' :: core := by
    rw [Form.core, Form.literal_text]
    exact ⟨_, rfl⟩
  obtain ⟨core, hcore⟩ := hlast
  obtain ⟨core', hcore'⟩ := hfirst
  have hquote : Text.replaceAll (Placeholder.literal ⟨path, form⟩) value ['"'] = ['"'] := by
    apply Text.replaceAll_eq_self
    intro hinfix
    have hlength := hinfix.length_le
    rw [Form.length_literal, Form.width] at hlength
    have hopening : 1 < form.opening.length := by cases form <;> decide
    simp only [List.length_singleton] at hlength
    omega
  have hfront : Text.Splits (Placeholder.literal ⟨path, form⟩) front ('"' :: (middle ++ '"' :: rest)) := by
    apply Form.splits_before_quote hpath
    intro _ hends
    rw [hcore, ← List.cons_append] at hends
    exact h.paren ((List.suffix_append _ _).trans hends)
  have hopens : Text.Splits (Placeholder.literal ⟨path, form⟩) ['"'] (middle ++ '"' :: rest) :=
    Form.splits_behind_quote hpath fun hform => (hmiddle hform).begins
  have hcloses : Text.Splits (Placeholder.literal ⟨path, form⟩) middle ('"' :: rest) :=
    Form.splits_before_quote hpath fun hform => (hmiddle hform).ends
  have hrest : Text.Splits (Placeholder.literal ⟨path, form⟩) ['"'] rest := by
    apply Form.splits_behind_quote hpath
    intro _ hbegins
    rw [hcore', List.cons_append] at hbegins
    exact h.dollar ((List.cons_prefix_cons.2 ⟨rfl, List.nil_prefix⟩).trans hbegins)
  have hborder : ∀ {text}, Text.Splits (Placeholder.literal ⟨path, form⟩) ['"'] text →
      Text.replaceAll (Placeholder.literal ⟨path, form⟩) value ('"' :: text) =
        '"' :: Text.replaceAll (Placeholder.literal ⟨path, form⟩) value text := fun hsplits =>
    (Text.replaceAll_append value hne hsplits).trans (congrArg (· ++ _) hquote)
  rw [Text.replaceAll_append value hne hfront, hborder hopens,
    Text.replaceAll_append value hne hcloses, hborder hrest]

/-- In front of the string the last character stays. -/
theorem replaceAll_front (h : Framed front rest) (path value : Text) (form : Form) {first : Text} {c : Char}
    (hfront : front = first ++ [c]) : Text.replaceAll (Placeholder.literal ⟨path, form⟩) value front =
      Text.replaceAll (Placeholder.literal ⟨path, form⟩) value first ++ [c] := by
  obtain ⟨init, d, hlast, hd⟩ : ∃ init d, Placeholder.literal ⟨path, form⟩ = init ++ [d] ∧
      (d = ')' ∨ d = '"') := by
    cases form with
    | text => exact ⟨_, _, rfl, .inl rfl⟩
    | number => exact ⟨'"' :: Form.core path, _, Form.literal_number_eq_core path, .inr rfl⟩
  have hne : d ≠ c := by
    rintro rfl
    rcases hd with rfl | rfl
    · exact h.paren ⟨first, hfront.symm⟩
    · exact h.quote ⟨first, hfront.symm⟩
  have hends : ∀ begins, Placeholder.literal ⟨path, form⟩ ≠ begins ++ [c] := fun begins heq =>
    hne (List.cons_eq_cons.1 (List.append_inj' (hlast.symm.trans heq) rfl).2).1
  have hsplits : Text.Splits (Placeholder.literal ⟨path, form⟩) first [c] := by
    intro begins second heq _ hsecond _ hprefix
    rcases List.prefix_cons_iff.1 hprefix with hnil | ⟨more, rfl, hmore⟩
    · exact hsecond hnil
    · obtain rfl := List.prefix_nil.1 hmore
      exact hends begins heq
  have hlone : ¬Placeholder.literal ⟨path, form⟩ <+: [c] := by
    intro hprefix
    rcases List.prefix_cons_iff.1 hprefix with hnil | ⟨more, heq, hmore⟩
    · exact Form.literal_ne_nil _ hnil
    · obtain rfl := List.prefix_nil.1 hmore
      exact hends [] heq
  rw [hfront, Text.replaceAll_append value (Form.literal_ne_nil _) hsplits,
    Text.replaceAll_cons_of_not value hlone]
  rfl

/-- Behind the string the first character stays. -/
theorem replaceAll_rest (h : Framed front rest) (path value : Text) (form : Form) {more : Text} {c : Char}
    (hrest : rest = c :: more) : Text.replaceAll (Placeholder.literal ⟨path, form⟩) value rest =
      c :: Text.replaceAll (Placeholder.literal ⟨path, form⟩) value more := by
  have hbegins : ¬Placeholder.literal ⟨path, form⟩ <+: c :: more := by
    intro hbegins
    cases form with
    | text =>
        rw [Form.literal_text, List.cons_prefix_cons] at hbegins
        exact h.dollar ⟨more, by rw [hrest, hbegins.1]; rfl⟩
    | number =>
        rw [Form.literal_number, List.cons_prefix_cons] at hbegins
        exact h.quote' ⟨more, by rw [hrest, hbegins.1]; rfl⟩
  rw [hrest, Text.replaceAll_cons_of_not value hbegins]

/-- Around the string the text keeps to what may stand there. -/
theorem next (h : Framed front rest) (path value : Text) (form : Form) :
    Framed (Text.replaceAll (Placeholder.literal ⟨path, form⟩) value front)
      (Text.replaceAll (Placeholder.literal ⟨path, form⟩) value rest) := by
  have hfront : ∀ c, ¬[c] <:+ front → ¬[c] <:+ Text.replaceAll
      (Placeholder.literal ⟨path, form⟩) value front := by
    intro c hc
    rcases List.eq_nil_or_concat front with hnil | ⟨first, d, hlast⟩
    · subst hnil
      exact hc
    · rw [List.concat_eq_append] at hlast
      rw [h.replaceAll_front path value form hlast]
      intro hends
      apply hc
      rw [hlast]
      obtain ⟨init, heq⟩ := hends
      exact ⟨first, congrArg (first ++ ·) (List.append_inj' heq rfl).2⟩
  have hrest : ∀ c, ¬[c] <+: rest → ¬[c] <+: Text.replaceAll
      (Placeholder.literal ⟨path, form⟩) value rest := by
    intro c hc
    cases hfirst : rest with
    | nil =>
        rw [hfirst] at hc
        exact hc
    | cons d more =>
        rw [← hfirst, h.replaceAll_rest path value form hfirst]
        intro hbegins
        rw [hfirst, List.cons_prefix_cons] at hc
        exact hc ⟨(List.cons_prefix_cons.1 hbegins).1, List.nil_prefix⟩
  exact ⟨hfront _ h.paren, hfront _ h.quote, hrest _ h.dollar, hrest _ h.quote'⟩

end Framed

end ServerPack
