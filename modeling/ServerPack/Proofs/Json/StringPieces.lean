import ServerPack.Proofs.Json.ReaderSteps
import ServerPack.Text.Replace

/-!
A text as its strings and what stands between them. Every text without stray tokens is woven from
pieces, each a string behind what stands in front of it (`exists_weave`). A pattern that begins with
a dollar sign and can stand in a string is replaced in one string after the other
(`replaceAll_weave`), and the reader goes on as before if only strings change that it takes as
values (`allAlike_weave`).
-/

namespace ServerPack.Text

variable {pattern : Text} (value : Text)

theorem replaceFrom_eq_replaceAll_drop (pattern value : Text) (skip : Nat) (body : Text) :
    replaceFrom pattern value skip body = replaceAll pattern value (body.drop skip) := by
  induction body generalizing skip with
  | nil => cases skip <;> rfl
  | cons c rest ih =>
      cases skip with
      | zero => rfl
      | succ skip => exact ih skip

theorem replaceAll_pattern_append (hne : pattern ≠ []) (rest : Text) :
    replaceAll pattern value (pattern ++ rest) = value ++ replaceAll pattern value rest := by
  obtain ⟨c, more, rfl⟩ := List.exists_cons_of_ne_nil hne
  have hbegins : (c :: more).isPrefixOf (c :: (more ++ rest)) = true :=
    List.isPrefixOf_iff_prefix.2 (List.prefix_append (c :: more) rest)
  rw [List.cons_append, replaceAll, replaceFrom, if_pos hbegins, replaceFrom_eq_replaceAll_drop]
  simp

theorem replaceAll_cons_of_not {c : Char} {rest : Text} (h : ¬pattern <+: c :: rest) :
    replaceAll pattern value (c :: rest) = c :: replaceAll pattern value rest := by
  rw [replaceAll, replaceFrom, if_neg (mt List.isPrefixOf_iff_prefix.1 h)]
  rfl

/-- In front of the first character of the pattern nothing is replaced. -/
theorem replaceAll_append_of_not_mem {c : Char} {more lead : Text} (h : c ∉ lead) (rest : Text) :
    replaceAll (c :: more) value (lead ++ rest) = lead ++ replaceAll (c :: more) value rest := by
  induction lead with
  | nil => rfl
  | cons first lead ih =>
      obtain ⟨hfirst, hlead⟩ := not_or.1 (mt List.mem_cons.2 h)
      have hnot : ¬(c :: more) <+: first :: (lead ++ rest) :=
        fun hbegins => hfirst (List.cons_prefix_cons.1 hbegins).1
      rw [List.cons_append, replaceAll_cons_of_not value hnot, ih hlead, List.cons_append]

theorem replaceAll_eq_self {body : Text} (h : ¬pattern <:+: body) :
    replaceAll pattern value body = body := by
  induction body with
  | nil => rfl
  | cons c rest ih =>
      have hrest : ¬pattern <:+: rest := fun hoccurs => h (hoccurs.trans (List.suffix_cons c rest).isInfix)
      rw [replaceAll_cons_of_not value fun hbegins => h hbegins.isInfix, ih hrest]

end ServerPack.Text

namespace ServerPack.Json

open Scanner (decoded?)

/-- A string as it is written, without its quotes, and what stands between it and the string
before. -/
structure Piece where
  lead : Text
  source : Text

namespace Piece

/-- The string stands between quotes, and neither a quote nor a dollar sign stands before it. -/
structure Proper (piece : Piece) : Prop where
  quote : '"' ∉ piece.lead
  dollar : '$' ∉ piece.lead
  source : (decoded? piece.source).isSome

/-- The piece with another text in its string. -/
def rewrite (f : Text → Text) (piece : Piece) : Piece := ⟨piece.lead, f piece.source⟩

end Piece

/-- The text that consists of pieces and what stands behind the last of them. -/
def weave : List Piece → Text → Text
  | [], tail => tail
  | piece :: rest, tail => piece.lead ++ '"' :: (piece.source ++ '"' :: weave rest tail)

/-- A text without stray tokens consists of proper pieces and an end without quotes and dollar
signs. -/
theorem exists_weave {scanner : Scanner} (houtside : scanner.outside) {text : Text}
    (h : .stray ∉ scanner.scan text) :
    ∃ pieces tail, text = weave pieces tail ∧ (∀ piece ∈ pieces, piece.Proper) ∧ '"' ∉ tail ∧
    '$' ∉ tail := by
  induction hlength : text.length using Nat.strongRecOn generalizing scanner text with
  | ind length ih =>
      cases text with
      | nil => exact ⟨[], [], rfl, by simp, by simp, by simp⟩
      | cons c rest =>
          rw [Scanner.scan, Scanner.feed, List.append_assoc, List.mem_append, not_or] at h
          obtain ⟨hc, hrest⟩ := h
          rcases Scanner.advance_outside houtside c with ⟨rfl, hstring⟩ | hstray | ⟨hquote, hdollar,
            houtside'⟩
          · rw [hstring] at hrest
            change .stray ∉ Scanner.scan _ _ at hrest
            obtain ⟨source, rest', chars, rfl, hsource⟩ := Scanner.exists_end_of_string rfl rfl hrest
            obtain ⟨value, hvalue⟩ := Scanner.exists_decoded?_of_feed hsource
            rw [Scanner.scan, Scanner.feed_string hvalue, List.cons_append, List.mem_cons, not_or] at hrest
            have hshorter : rest'.length < length := by simp at hlength; omega
            obtain ⟨pieces, tail, rfl, hproper, htail⟩ := @ih _ hshorter .between rfl rest' hrest.2 rfl
            exact ⟨⟨[], source⟩ :: pieces, tail, rfl,
              List.forall_mem_cons.2 ⟨⟨by simp, by simp, by simp [hvalue]⟩, hproper⟩, htail⟩
          · exact absurd hstray hc
          · obtain ⟨pieces, tail, rfl, hproper, htail⟩ :=
              ih rest.length (by simp at hlength; omega) houtside' hrest rfl
            cases pieces with
            | nil =>
                exact ⟨[], c :: tail, rfl, hproper, by simp [htail, Ne.symm hquote], by simp [htail,
                  Ne.symm hdollar]⟩
            | cons piece pieces =>
                obtain ⟨hpiece, hpieces⟩ := List.forall_mem_cons.1 hproper
                exact ⟨⟨c :: piece.lead, piece.source⟩ :: pieces, tail, rfl, List.forall_mem_cons.2
                  ⟨⟨by simp [hpiece.quote, Ne.symm hquote],
                    by simp [hpiece.dollar, Ne.symm hdollar], hpiece.source⟩, hpieces⟩, htail⟩

/-! Tokens. -/

open Scanner (between)

/-- Up to the quote in front of a string the scanner stays outside. -/
theorem feed_lead {scanner : Scanner} (houtside : scanner.outside) {lead : Text} (hquote : '"' ∉ lead)
    (h : .stray ∉ (scanner.feed (lead ++ ['"'])).1) : (scanner.feed (lead ++ ['"'])).2 = .string 0 [] := by
  induction lead generalizing scanner with
  | nil =>
      rcases Scanner.advance_outside houtside '"' with ⟨-, hstring⟩ | hstray | ⟨hne, -⟩
      · exact hstring
      · exact absurd (List.mem_append_left _ hstray) h
      · exact absurd rfl hne
  | cons c lead ih =>
      obtain ⟨hc, hlead⟩ := not_or.1 (mt List.mem_cons.2 hquote)
      obtain ⟨hfirst, hrest⟩ := not_or.1 (mt List.mem_append.2 h)
      rcases Scanner.advance_outside houtside c with ⟨heq, -⟩ | hstray | ⟨-, -, houtside'⟩
      · exact absurd heq.symm hc
      · exact absurd hstray hfirst
      · exact ih houtside' hlead hrest

/-- The tokens of a text that begins with a piece: those in front of its string, the string and
those behind it. -/
theorem feed_piece {scanner : Scanner} (houtside : scanner.outside) {piece : Piece}
    (hquote : '"' ∉ piece.lead) {value : Text} (hvalue : decoded? piece.source = some value)
    (h : .stray ∉ (scanner.feed (piece.lead ++ ['"'])).1) (rest : Text) :
    scanner.feed (piece.lead ++ '"' :: (piece.source ++ '"' :: rest)) =
      ((scanner.feed (piece.lead ++ ['"'])).1 ++ .string value :: (between.feed rest).1,
        (between.feed rest).2) := by
  rw [List.append_cons, Scanner.feed_append, feed_lead houtside hquote h, Scanner.feed_string hvalue]

theorem not_stray_lead {scanner : Scanner} {lead rest : Text}
    (h : .stray ∉ (scanner.feed (lead ++ '"' :: rest)).1) : .stray ∉ (scanner.feed (lead ++ ['"'])).1 := by
  rw [List.append_cons, Scanner.feed_append] at h
  exact fun hmem => h (List.mem_append_left _ hmem)

/-- Behind the quote in front of a string the scanner has just entered that string. -/
theorem feed_weave_lead {scanner : Scanner} (houtside : scanner.outside) {pieces : List Piece}
    (hproper : ∀ piece ∈ pieces, piece.Proper) {lead : Text} (hquote : '"' ∉ lead)
    (h : .stray ∉ (scanner.feed (weave pieces (lead ++ ['"']))).1) :
    (scanner.feed (weave pieces (lead ++ ['"']))).2 = .string 0 [] := by
  induction pieces generalizing scanner with
  | nil => exact feed_lead houtside hquote h
  | cons piece pieces ih =>
      obtain ⟨hpiece, hpieces⟩ := List.forall_mem_cons.1 hproper
      obtain ⟨value, hvalue⟩ := Option.isSome_iff_exists.1 hpiece.source
      have hfeed := feed_piece houtside hpiece.quote hvalue (not_stray_lead h)
        (weave pieces (lead ++ ['"']))
      rw [weave, hfeed] at h ⊢
      exact ih rfl hpieces fun hmem => h (List.mem_append_right _ (List.mem_cons_of_mem _ hmem))

/-- Where the reader expects a value inside a string, it takes that string as a value. -/
theorem takesValue_of_piece {before : List Piece} {piece : Piece} (hbefore : ∀ piece ∈ before, piece.Proper)
    (hpiece : piece.Proper) (hstray : .stray ∉ (between.feed (weave before (piece.lead ++ ['"']))).1)
    {first rest : Text} (hsource : piece.source = first ++ rest)
    (h : (Reader.expectingBehind? (between.feed
      (weave before (piece.lead ++ ['"']) ++ first)).1).any Expecting.takesValue)
    {next : Reader Json}
    (hnext : Reader.Runs .json (.reading [] .value)
      (between.feed (weave before (piece.lead ++ ['"']))).1 next) :
    ∃ stack expecting, next = .reading stack expecting ∧ expecting.takesValue := by
  obtain ⟨expecting, hexpecting, htakes⟩ := (Option.any_eq_true _ _).1 h
  obtain ⟨stack, hruns⟩ := Reader.exists_runs_of_expectingBehind? hexpecting
  obtain ⟨value, hvalue⟩ := Option.isSome_iff_exists.1 hpiece.source
  have hfeed := congrArg Prod.fst ((Scanner.decoded?_eq_some_iff []).1 hvalue)
  rw [hsource, Scanner.feed_append] at hfeed
  have hfirst : ((Scanner.string 0 []).feed first).1 = [] := (List.append_eq_nil_iff.1 hfeed).1
  rw [Scanner.feed_append, feed_weave_lead rfl hbefore hpiece.quote hstray, hfirst,
    List.append_nil] at hruns
  exact ⟨stack, expecting, hnext.unique hruns, htakes⟩

theorem weave_append (pieces : List Piece) (tail more : Text) :
    weave pieces (tail ++ more) = weave pieces tail ++ more := by
  induction pieces with
  | nil => rfl
  | cons piece pieces ih => simp only [weave, ih, List.append_assoc, List.cons_append]

theorem weave_weave (before : List Piece) (piece : Piece) (after : List Piece) (tail : Text) :
    weave (before ++ piece :: after) tail =
      weave before (piece.lead ++ ['"']) ++ (piece.source ++ '"' :: weave after tail) := by
  rw [← weave_append]
  induction before with
  | nil => simp only [List.nil_append, weave, List.append_assoc, List.cons_append]
  | cons first before ih => rw [List.cons_append, weave, ih, weave]

/-- Two texts do the same of which one has other strings than the other, but only where the reader
takes a value. -/
theorem allAlike_weave {f : Text → Text} {R : Json → Json → Prop} (hrefl : ∀ value, R value value)
    (hstring : ∀ text text', R (.string text) (.string text')) {pieces : List Piece} {tail : Text}
    (hproper : ∀ piece ∈ pieces, piece.Proper) (hproper' : ∀ piece ∈ pieces, (piece.rewrite f).Proper)
    {scanner : Scanner} (houtside : scanner.outside) (hstray : .stray ∉ scanner.scan (weave pieces tail))
    {reader : Reader Json} (hchange : ∀ before piece after, pieces = before ++ piece :: after →
      f piece.source ≠ piece.source → ∀ next,
        Reader.Runs .json reader (scanner.feed (weave before (piece.lead ++ ['"']))).1 next →
          ∃ stack expecting, next = .reading stack expecting ∧ expecting.takesValue) :
    Reader.AllAlike R .json .json reader (scanner.scan (weave pieces tail))
      (scanner.scan (weave (pieces.map (Piece.rewrite f)) tail)) := by
  have hself : ∀ value value', some value = some value' → R value value' := by
    rintro value _ ⟨⟩
    exact hrefl value
  have hsame : ∀ tokens reader, Reader.AllAlike R .json .json reader tokens tokens := fun tokens reader =>
    Reader.allAlike_self (fun _ _ _ _ hvalue hvalue' => hself _ _ (hvalue.symm.trans hvalue')) reader
  induction pieces generalizing scanner reader with
  | nil => exact hsame _ _
  | cons piece pieces ih =>
      obtain ⟨hpiece, hpieces⟩ := List.forall_mem_cons.1 hproper
      obtain ⟨hpiece', hpieces'⟩ := List.forall_mem_cons.1 hproper'
      obtain ⟨value, hvalue⟩ := Option.isSome_iff_exists.1 hpiece.source
      obtain ⟨value', hvalue'⟩ := Option.isSome_iff_exists.1 hpiece'.source
      have hlead : .stray ∉ (scanner.feed (piece.lead ++ ['"'])).1 :=
        not_stray_lead fun hmem => hstray (List.mem_append_left _ hmem)
      have hfeed := feed_piece houtside hpiece.quote hvalue hlead
      have hfeed' := @feed_piece _ houtside (piece.rewrite f) hpiece.quote _ hvalue' hlead
      rw [weave, Scanner.scan, hfeed, List.append_assoc, List.mem_append, not_or] at hstray
      rw [List.map_cons, weave, weave, Scanner.scan, Scanner.scan, hfeed, hfeed', List.append_assoc,
        List.append_assoc]
      refine .append (hsame _ _) fun next hnext => .cons ?_ fun next' hgoes => ?_
      · by_cases hsource : f piece.source = piece.source
        · obtain rfl : value' = value := by
            rw [Piece.rewrite, hsource, hvalue] at hvalue'
            exact (Option.some.inj hvalue').symm
          exact Reader.alike_self (fun _ _ hmade hmade' => hself _ _ (hmade.symm.trans hmade')) next
        · obtain ⟨stack, expecting, rfl, htakes⟩ := hchange [] piece pieces rfl hsource next hnext
          exact .scalar htakes rfl rfl (hstring _ _)
      · refine ih hpieces hpieces' rfl (fun hmem => hstray.2 (List.mem_cons_of_mem _ hmem))
          fun before piece' after heq hne next'' hruns => ?_
        refine hchange (piece :: before) piece' after (by rw [heq]; rfl) hne next'' ?_
        rw [weave, feed_piece houtside hpiece.quote hvalue hlead]
        exact Reader.runs_append_iff.2 ⟨next, hnext, .cons hgoes hruns⟩

/-- A text without a token has no string in it. -/
theorem not_quote_of_scan_eq_nil {text : Text} (h : between.scan text = []) : '"' ∉ text := by
  obtain ⟨pieces, tail, rfl, hproper, hquote, -⟩ := @exists_weave between rfl text (by simp [h])
  cases pieces with
  | nil => exact hquote
  | cons piece pieces =>
      have hpiece := hproper piece List.mem_cons_self
      obtain ⟨value, hvalue⟩ := Option.isSome_iff_exists.1 hpiece.source
      have hlead : (between.feed (piece.lead ++ ['"'])).1 = [] := by
        rw [weave, List.append_cons, Scanner.scan, Scanner.feed_append] at h
        exact (List.append_eq_nil_iff.1 (List.append_eq_nil_iff.1 h).1).1
      rw [weave, Scanner.scan, feed_piece rfl hpiece.quote hvalue (by simp [hlead]), hlead] at h
      cases h

/-- What can be read between quotes can stand inside a string. -/
theorem isSome_decoded?_of_read {text meant : Text}
    (h : read ('"' :: text ++ ['"']) = .ok (.string meant)) :
    (decoded? text).isSome := by
  have hruns : Reader.Runs .json (.reading [] .value) ((Scanner.string 0 []).scan (text ++ ['"']))
      (.done (.string meant)) := read_eq_ok_iff.1 h
  obtain ⟨source, rest, chars, htext, hsource⟩ := Scanner.exists_end_of_string rfl rfl hruns.not_stray
  obtain ⟨value, hvalue⟩ := Scanner.exists_decoded?_of_feed hsource
  rw [htext, Scanner.scan, Scanner.feed_string hvalue, List.cons_append, Reader.runs_cons_iff] at hruns
  obtain ⟨next, hgoes, hrest⟩ := hruns
  obtain rfl := hgoes.unique (.scalar rfl rfl)
  have hnone : between.scan rest = [] := by
    cases hscan : between.scan rest with
    | nil => rfl
    | cons token more =>
        change Reader.Runs .json _ (between.scan rest) _ at hrest
        rw [hscan, Reader.runs_cons_iff] at hrest
        obtain ⟨_, hgoes, -⟩ := hrest
        cases hgoes
  have hquote := not_quote_of_scan_eq_nil hnone
  rcases List.eq_nil_or_concat rest with rfl | ⟨more, c, rfl⟩
  · rw [(List.append_inj' htext rfl).1, hvalue]
    rfl
  · rw [List.concat_eq_append, ← List.cons_append, ← List.append_assoc] at htext
    obtain rfl := List.singleton_inj.1 (List.append_inj' htext rfl).2
    exact absurd (by simp) hquote

/-! Replacing. -/

section Replacing

variable {more value : Text}

/-- No occurrence of a pattern that can stand in a string reaches over the end of a string. -/
theorem not_prefix_of_string {scanner : Scanner} (hbare : scanner.bare = scanner) (hinside : scanner.inside)
    {source chars : Text} (hsource : scanner.feed source = ([], .string 0 chars))
    (hpattern : (decoded? ('$' :: more)).isSome) (h : ¬('$' :: more <+: source)) (rest : Text) :
    ¬('$' :: more <+: source ++ '"' :: rest) := by
  intro hbegins
  rcases List.prefix_or_prefix_of_prefix hbegins
    (List.prefix_append source ('"' :: rest)) with hshort | ⟨ending, hlong⟩
  · exact h hshort
  rw [← hlong, List.prefix_append_right_inj] at hbegins
  cases ending with
  | nil => exact h ⟨[], by rw [← hlong, List.append_nil, List.append_nil]⟩
  | cons c ending =>
      obtain rfl : c = '"' := (List.cons_prefix_cons.1 hbegins).1
      obtain ⟨before, first, rfl⟩ : ∃ before first, scanner = .string before first := by
        cases source with
        | nil => cases hlong
        | cons c source =>
            obtain rfl : c = '$' := (List.cons_eq_cons.1 hlong).1
            exact Scanner.eq_string_of_feed_dollar hinside hsource
      cases hbare
      obtain ⟨decoded, hdecoded⟩ := Option.isSome_iff_exists.1 hpattern
      have hfeed := (Scanner.decoded?_eq_some_iff first).1 hdecoded
      rw [← hlong, Scanner.feed_append, hsource] at hfeed
      cases hfeed

/-- In a string the occurrences of a pattern are replaced as if the string stood alone, and what
comes of it can stand in its place. -/
theorem replaceAll_string {scanner : Scanner} (hbare : scanner.bare = scanner) (hinside : scanner.inside)
    {source chars : Text} (hsource : scanner.feed source = ([], .string 0 chars))
    (hpattern : (decoded? ('$' :: more)).isSome) (hvalue : (decoded? value).isSome) :
    (∀ rest, Text.replaceAll ('$' :: more) value (source ++ '"' :: rest) =
        Text.replaceAll ('$' :: more) value source ++ '"' :: Text.replaceAll ('$' :: more) value rest) ∧
      ∃ chars', scanner.feed (Text.replaceAll ('$' :: more) value source) = ([], .string 0 chars') := by
  obtain ⟨patternMeant, hpatternMeant⟩ := Option.isSome_iff_exists.1 hpattern
  obtain ⟨valueMeant, hvalueMeant⟩ := Option.isSome_iff_exists.1 hvalue
  induction hlength : source.length using Nat.strongRecOn generalizing scanner source with
  | ind length ih =>
      by_cases hbegins : '$' :: more <+: source
      · obtain ⟨source, rfl⟩ := hbegins
        obtain ⟨before, first, rfl⟩ := Scanner.eq_string_of_feed_dollar hinside hsource
        cases hbare
        rw [Scanner.feed_append, (Scanner.decoded?_eq_some_iff first).1 hpatternMeant] at hsource
        obtain ⟨hrest, chars', hfeed⟩ := ih source.length (by simp at hlength; omega) rfl rfl hsource rfl
        obtain ⟨meant, hmeant⟩ := Scanner.exists_decoded?_of_feed hfeed
        refine ⟨fun rest => ?_, meant.reverse ++ (valueMeant.reverse ++ first), ?_⟩
        · rw [List.append_assoc, Text.replaceAll_pattern_append value (by simp), hrest,
            Text.replaceAll_pattern_append value (by simp), List.append_assoc]
        · rw [Text.replaceAll_pattern_append value (by simp), Scanner.feed_append,
            (Scanner.decoded?_eq_some_iff first).1 hvalueMeant, (Scanner.decoded?_eq_some_iff _).1 hmeant]
          rfl
      · have hbeyond := not_prefix_of_string hbare hinside hsource hpattern hbegins
        cases source with
        | nil => exact ⟨fun rest => Text.replaceAll_cons_of_not value (hbeyond rest), chars, hsource⟩
        | cons c source =>
            obtain ⟨hon, hsource⟩ := Scanner.goesOn_of_feed hinside hsource
            obtain ⟨hrest, chars', hfeed⟩ := ih source.length (by simp at hlength; omega)
              (Scanner.bare_advance _ c) hon.inside hsource rfl
            refine ⟨fun rest => ?_, chars', ?_⟩
            · refine (Text.replaceAll_cons_of_not value (hbeyond rest)).trans ?_
              rw [Text.replaceAll_cons_of_not value hbegins]
              exact congrArg (c :: ·) (hrest rest)
            · rw [Text.replaceAll_cons_of_not value hbegins, Scanner.feed, hon.tokens, hfeed]
              rfl

theorem Piece.Proper.replaceAll {piece : Piece} (h : piece.Proper)
    (hpattern : (decoded? ('$' :: more)).isSome) (hvalue : (decoded? value).isSome) :
    (piece.rewrite (Text.replaceAll ('$' :: more) value)).Proper := by
  obtain ⟨meant, hmeant⟩ := Option.isSome_iff_exists.1 h.source
  obtain ⟨-, chars, hfeed⟩ := replaceAll_string rfl rfl
    ((Scanner.decoded?_eq_some_iff []).1 hmeant) hpattern hvalue
  obtain ⟨meant', hmeant'⟩ := Scanner.exists_decoded?_of_feed hfeed
  exact ⟨h.quote, h.dollar, Option.isSome_iff_exists.2 ⟨meant', hmeant'⟩⟩

/-- A pattern is replaced in one string after the other. -/
theorem replaceAll_weave (hpattern : (decoded? ('$' :: more)).isSome) (hvalue : (decoded? value).isSome)
    {pieces : List Piece} (hproper : ∀ piece ∈ pieces, piece.Proper) {tail : Text} (htail : '$' ∉ tail) :
    Text.replaceAll ('$' :: more) value (weave pieces tail) =
      weave (pieces.map (Piece.rewrite (Text.replaceAll ('$' :: more) value))) tail := by
  induction pieces with
  | nil =>
      have hself := @Text.replaceAll_append_of_not_mem value _ more tail htail []
      rw [List.append_nil] at hself
      exact hself.trans (List.append_nil _)
  | cons piece pieces ih =>
      obtain ⟨hpiece, hpieces⟩ := List.forall_mem_cons.1 hproper
      obtain ⟨meant, hmeant⟩ := Option.isSome_iff_exists.1 hpiece.source
      obtain ⟨hstring, -⟩ := replaceAll_string rfl rfl
        ((Scanner.decoded?_eq_some_iff []).1 hmeant) hpattern hvalue
      have hlead : '$' ∉ piece.lead ++ ['"'] := by simp [hpiece.dollar]
      rw [weave, List.map_cons, weave, List.append_cons,
        Text.replaceAll_append_of_not_mem value hlead, hstring, ih hpieces, ← List.append_cons]
      rfl

end Replacing

end ServerPack.Json
