import ServerPack.Proofs.Settings.ResolvedTree

/-!
What stands next to a string that is a value. Outside of strings there is no parenthesis, and a
string follows no other string, so in front of such a string stands neither a closing parenthesis
nor a quote (`OpensValue.last_ne`), and behind it neither a dollar sign nor a quote
(`OpensValue.head_ne`).
-/

namespace ServerPack

open Json.Scanner (between decoded?)

namespace Json

namespace Scanner

variable {scanner : Scanner} {text : Text}

/-- In a text without stray tokens the scanner is outside of strings or inside one. -/
theorem outside_or_inside_of_feed (h : scanner.outside ∨ scanner.inside)
    (hstray : .stray ∉ (scanner.feed text).1) :
    (scanner.feed text).2.outside ∨ (scanner.feed text).2.inside := by
  induction text generalizing scanner with
  | nil => exact h
  | cons c rest ih =>
      rw [feed, List.mem_append, not_or] at hstray
      obtain ⟨hc, hrest⟩ := hstray
      apply ih ?_ hrest
      rcases h with houtside | hinside
      · rcases advance_outside houtside c with ⟨-, hstring⟩ | hstray | ⟨-, -, houtside'⟩
        · rw [hstring]
          exact .inr rfl
        · exact absurd hstray hc
        · exact .inl houtside'
      · rcases advance_inside hinside c with ⟨before, chars, rfl, rfl⟩ | hbreaks | hon
        · exact .inl rfl
        · have hstray := hbreaks []
          rw [behind_nil] at hstray
          exact absurd hstray hc
        · exact .inr hon.inside

/-- Outside of strings a closing parenthesis is out of place. -/
theorem stray_of_paren (h : scanner.outside) : .stray ∈ (scanner.advance ')').1 := by
  cases scanner with
  | between => decide
  | number before stage spelling =>
      have hnext : stage.next ')' = none := by cases stage <;> rfl
      have hstart : start 0 ')' = ([⟨.stray, 0, 0⟩], .stopped) := by decide
      by_cases hbroken : (!stage.complete || (stage = .zero && Char.isDigit ')')) = true
      · simp only [advance, step, hnext, if_pos hbroken]
        exact List.mem_cons_self
      · simp only [advance, step, hnext, if_neg hbroken, hstart]
        exact List.mem_cons_of_mem _ List.mem_cons_self
  | literal before token rest =>
      cases rest with
      | nil => simp [outside] at h
      | cons expected more =>
          have hne : ')' ≠ expected := by
            rintro rfl
            simp [outside] at h
          simp only [advance, step, if_pos hne]
          exact List.mem_cons_self
  | string before chars => cases h
  | escape before chars => cases h
  | unicode before chars high missing value => cases h
  | pairBackslash before chars high => cases h
  | pairMark before chars high => cases h
  | stopped => cases h

/-- A literal of a path without quotes is the text of a whole string if it stands in front of a
quote. -/
theorem isSome_decoded?_literal {path rest : Text} (hquote : '"' ∉ path)
    (hstray : .stray ∉ (string 0 []).scan (Placeholder.literal ⟨path, .text⟩ ++ '"' :: rest)) :
    (decoded? (Placeholder.literal ⟨path, .text⟩)).isSome := by
  obtain ⟨source, rest', chars, heq, hsource⟩ := exists_end_of_string rfl rfl hstray
  have hbegins : Placeholder.literal ⟨path, .text⟩ <+: source ++ '"' :: rest' := ⟨'"' :: rest, heq⟩
  obtain ⟨more, rfl⟩ := prefix_of_prefix_quote hbegins (Form.quote_not_mem_literal hquote)
  cases more with
  | nil =>
      rw [List.append_nil] at hsource
      exact Option.isSome_iff_exists.2 (exists_decoded?_of_feed hsource)
  | cons c more =>
      -- the quote behind the literal would belong to an escape, but its last parenthesis is in none
      exfalso
      rw [List.append_assoc, List.append_cancel_left_eq, List.cons_append] at heq
      obtain rfl := (List.cons_eq_cons.1 heq).1
      have hsplit : Placeholder.literal ⟨path, .text⟩ ++ '"' :: more =
          ('$' :: (['(', 'm', 'c', 'p', '.'] ++ path)) ++ ')' :: '"' :: more := by simp [Form.literal_text]
      rw [hsplit, feed_append] at hsource
      obtain ⟨htokens, hstate⟩ := Prod.mk.inj hsource
      obtain ⟨hfirst, hlast⟩ := List.append_eq_nil_iff.1 htokens
      have hparen : Plain ')' := ⟨by decide, by decide, by decide⟩
      obtain ⟨before, first, hstring⟩ :=
        eq_string_of_feed_plain (@inside_of_feed (string 0 []) rfl _ hfirst) hparen (Prod.ext hlast hstate)
      rw [hstring] at hlast
      cases hlast

end Scanner

namespace Reader

variable {α : Type} {build : Builder α} {reader next : Reader α} {stack stack' : List (Frame α)}
  {expecting : Expecting} {text : Text} {value : α}

/-- Behind a value that is not the last comes a separator. -/
theorem expecting_of_complete (h : complete value stack = .reading stack' expecting) :
    expecting = .separator := by
  rcases stack with _ | ⟨_ | _, stack⟩ <;> cases h <;> rfl

/-- Right behind a string no value is taken. -/
theorem Goes.not_takesValue (h : Goes build reader (.string text) (.reading stack expecting)) :
    ¬expecting.takesValue := by
  generalize hnext : Reader.reading stack expecting = next at h
  cases h with
  | scalar _ _ =>
      rw [expecting_of_complete hnext.symm]
      decide
  | firstKey =>
      cases hnext
      split <;> decide
  | key =>
      cases hnext
      decide
  | numberText _ =>
      cases hnext
      exact Bool.false_ne_true

/-- Right behind a string that is a value no string can stand. -/
theorem not_goes_string (htakes : expecting.takesValue) {text' : Text}
    (h : Goes build (.reading stack expecting) (.string text) reader) :
    ¬Goes build reader (.string text') next := by
  intro h'
  cases h with
  | @scalar _ _ _ value _ _ =>
      generalize hcomplete : complete value stack = reader at h'
      cases reader with
      | done value => cases h'
      | reading stack' expecting' =>
          obtain rfl := expecting_of_complete hcomplete
          cases h'
          contradiction
  | firstKey => cases htakes
  | key => cases htakes
  | numberText _ => cases htakes

end Reader

end Json

namespace Settings

variable {front source rest : Text} {value : Json}

/-- A character that leads out of strings ends one, or stood outside of them. -/
theorem outside_or_end {front : Text} {c : Char} (hstray : .stray ∉ (between.feed (front ++ [c])).1)
    (hafter : (between.feed (front ++ [c])).2.inside = false) :
    (between.feed front).2.outside ∨ c = '"' ∧
    ∃ before chars, (between.feed front).2 = .string before chars := by
  rw [Json.Scanner.feed_append] at hafter
  rw [Json.Scanner.feed_append, List.mem_append, not_or] at hstray
  obtain ⟨hfront, hc⟩ := hstray
  rcases Json.Scanner.outside_or_inside_of_feed (.inl rfl) hfront with houtside | hinside
  · exact .inl houtside
  · rcases Json.Scanner.advance_inside hinside c with ⟨before, chars, hstring, hquote⟩ | hbreaks | hon
    · exact .inr ⟨hquote, before, chars, hstring⟩
    · have hstray := hbreaks []
      rw [Json.Scanner.behind_nil] at hstray
      exact absurd (List.mem_append_left _ hstray) hc
    · cases hon.inside.symm.trans hafter

/-- In front of a string that is a value stands no closing parenthesis and no quote. -/
theorem OpensValue.last_ne (h : OpensValue (front ++ ['"'])) (hstray : .stray ∉ (between.feed front).1) :
    ¬[')'] <:+ front ∧ ¬['"'] <:+ front := by
  have hbefore := h.before
  rw [List.dropLast_concat] at hbefore
  constructor
  · rintro ⟨first, rfl⟩
    rcases outside_or_end hstray hbefore with houtside | ⟨hquote, -⟩
    · rw [Json.Scanner.feed_append, List.mem_append, not_or] at hstray
      exact hstray.2 (List.mem_append_left _ (Json.Scanner.stray_of_paren houtside))
    · exact absurd hquote (by decide)
  · rintro ⟨first, rfl⟩
    rcases outside_or_end hstray hbefore with houtside | ⟨-, before, chars, hstring⟩
    · rw [Json.Scanner.feed_append] at hbefore hstray
      rcases Json.Scanner.advance_outside houtside '"' with ⟨-, hopens⟩ | hout | ⟨hne, -⟩
      · have hinside : ((between.feed first).2.feed ['"']).2.inside := by
          rw [Json.Scanner.feed, hopens]
          rfl
        cases hinside.symm.trans hbefore
      · exact hstray (List.mem_append_right _ (List.mem_append_left _ hout))
      · exact absurd rfl hne
    · obtain ⟨expecting, hexpecting, htakes⟩ := (Option.any_eq_true _ _).1 h.takes
      obtain ⟨stack, hruns⟩ := Json.Reader.exists_runs_of_expectingBehind? hexpecting
      have htokens : (between.feed (first ++ ['"'] ++ ['"'])).1 = (between.feed first).1 ++
          [.string chars.reverse] := by
        rw [List.append_assoc, Json.Scanner.feed_append, hstring]
        rfl
      rw [htokens, Json.Reader.runs_append_iff] at hruns
      obtain ⟨reader, -, hlast⟩ := hruns
      obtain ⟨next, hgoes, hnil⟩ := Json.Reader.runs_cons_iff.1 hlast
      cases hnil
      exact hgoes.not_takesValue htakes

/-- Up to the quote the scanner has just entered the string. -/
theorem OpensValue.feed (h : OpensValue (front ++ ['"']))
    (hstray : .stray ∉ (between.feed (front ++ ['"'])).1) :
    (between.feed (front ++ ['"'])).2 = .string 0 [] := by
  have hbefore := h.before
  rw [List.dropLast_concat] at hbefore
  rw [Json.Scanner.feed_append] at hstray ⊢
  obtain ⟨hfront, hquote⟩ := not_or.1 (mt List.mem_append.2 hstray)
  rcases Json.Scanner.outside_or_inside_of_feed (.inl rfl) hfront with houtside | hinside
  · rcases Json.Scanner.advance_outside houtside '"' with ⟨-, hopens⟩ | hout | ⟨hne, -⟩
    · exact hopens
    · exact absurd (List.mem_append_left _ hout) hquote
    · exact absurd rfl hne
  · cases hinside.symm.trans hbefore

/-- The tokens of a text in which a string is a value: the string stands between those in front of
it and those behind it. -/
theorem OpensValue.tokens_eq (h : OpensValue (front ++ ['"'])) {meant : Text}
    (hmeant : decoded? source = some meant) (hstray : .stray ∉ (between.feed (front ++ ['"'])).1) :
    Json.tokens (front ++ '"' :: (source ++ '"' :: rest)) =
      (between.feed (front ++ ['"'])).1 ++ .string meant :: between.scan rest := by
  rw [Json.tokens, Json.Scanner.scan, List.append_cons, Json.Scanner.feed_append, h.feed hstray,
    Json.Scanner.feed_string hmeant]
  simp only [Json.Scanner.scan, List.append_assoc, List.cons_append]

/-- Behind a string that is a value stands no dollar sign and no quote. -/
theorem OpensValue.head_ne (h : OpensValue (front ++ ['"'])) (hsource : (decoded? source).isSome)
    (hread : Json.read (front ++ '"' :: (source ++ '"' :: rest)) = .ok value) : ¬['$'] <+: rest ∧
    ¬['"'] <+: rest := by
  obtain ⟨meant, hmeant⟩ := Option.isSome_iff_exists.1 hsource
  have hruns := Json.read_eq_ok_iff.1 hread
  have hfront : .stray ∉ (between.feed (front ++ ['"'])).1 := by
    have hstray := hruns.not_stray
    rw [Json.tokens, Json.Scanner.scan, List.append_cons, Json.Scanner.feed_append] at hstray
    exact fun hmem => hstray (List.mem_append_left _ (List.mem_append_left _ hmem))
  rw [h.tokens_eq hmeant hfront, Json.Reader.runs_append_iff] at hruns
  obtain ⟨reader, hlead, hbehind⟩ := hruns
  obtain ⟨next, hgoes, hrest⟩ := Json.Reader.runs_cons_iff.1 hbehind
  obtain ⟨expecting, hexpecting, htakes⟩ := (Option.any_eq_true _ _).1 h.takes
  obtain ⟨stack, htaken⟩ := Json.Reader.exists_runs_of_expectingBehind? hexpecting
  obtain rfl := hlead.unique htaken
  constructor
  · rintro ⟨more, rfl⟩
    have hout : .stray ∈ between.scan ('$' :: more) :=
      List.mem_append_left _ (List.mem_append_left _ (by decide : .stray ∈ (between.advance '$').1))
    exact hrest.not_stray hout
  · rintro ⟨more, rfl⟩
    have hscan : between.scan ('"' :: more) = (Json.Scanner.string 0 []).scan more := rfl
    rw [List.singleton_append, hscan] at hrest
    obtain ⟨other, rest', chars, rfl, hother⟩ := Json.Scanner.exists_end_of_string rfl rfl hrest.not_stray
    obtain ⟨meant', hmeant'⟩ := Json.Scanner.exists_decoded?_of_feed hother
    rw [Json.Scanner.scan, Json.Scanner.feed_string hmeant', List.cons_append] at hrest
    obtain ⟨_, hgoes', -⟩ := Json.Reader.runs_cons_iff.1 hrest
    exact Json.Reader.not_goes_string htakes hgoes hgoes'

end Settings

end ServerPack
