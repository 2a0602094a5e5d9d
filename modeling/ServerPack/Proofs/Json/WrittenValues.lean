import ServerPack.Proofs.Json.NumberSpelling
import ServerPack.Proofs.Json.StringPieces
import ServerPack.Proofs.Settings.DocumentShape

/-!
Values as they are written. `readWritten?` reads a text like `read`, but takes the strings that are
values as they stand between their quotes, escapes and all. In a text that can be read, what is
written for a string value can be replaced by any other scalar, quotes included: the new text is
read as the same tree with that scalar in its place, where `read` gives that tree with each string
decoded (`exists_read_splice`).
-/

namespace ServerPack.Json

open Scanner (between decoded?)

/-- The tokens of the rest of a text, each with what stands between its quotes if it is a string.
What has been read of the string so far is `source`, backwards. -/
def Scanner.written (scanner : Scanner) (source : Text) : Text → List (Token × Text)
  | [] => scanner.closing.map fun token => (token, source.reverse)
  | c :: rest =>
    (scanner.advance c).1.map (fun token => (token, source.reverse)) ++
      written (scanner.advance c).2 (if scanner.inside && (scanner.advance c).2.inside then c ::
        source else []) rest

/-- The token as a reader sees that takes the strings among values as they are written. -/
def Reader.asWritten (reader : Reader Json) : Token × Text → Token
  | (.string value, source) =>
    match reader with
    | .reading _ expecting => .string (if expecting.takesValue then source else value)
    | .done _ => .string value
  | (token, _) => token

/-- The reader that takes the strings among values as they are written, behind tokens. -/
def Reader.runWritten (reader : Reader Json) (tokens : List (Token × Text)) : Except Fault (Reader Json) :=
  tokens.foldlM (fun reader token => reader.step .json ⟨reader.asWritten token, 0, 0⟩) reader

/-- The value that a text is written for, with the strings among its values as they are written. -/
def readWritten? (text : Text) : Option Json :=
  match Reader.runWritten (.reading [] .value) (between.written [] text) with
  | .ok (.done value) => some value
  | _ => none

/-- A string as it is written, with its quotes. -/
def inQuotes (source : Text) : Text := '"' :: source ++ ['"']

/-- The text that a string as it is written stands for. -/
def decodedText (source : Text) : Text := (decoded? source).getD []

/-- The value that it is. -/
def decodedString (source : Text) : Json := .string (decodedText source)

theorem decodedString_of_decoded? {source meant : Text} (h : decoded? source = some meant) :
    decodedString source = .string meant := by
  rw [decodedString, decodedText, h]
  rfl

namespace Scanner

theorem written_outside {scanner : Scanner} (h : scanner.inside = false) (c : Char) (rest : Text) :
    scanner.written [] (c :: rest) =
      (scanner.advance c).1.map (fun token => (token, [])) ++ (scanner.advance c).2.written [] rest := by
  rw [written, h]
  rfl

theorem written_string {source value : Text} (h : decoded? source = some value) (rest : Text) :
    (string 0 []).written [] (source ++ '"' :: rest) = (.string value, source) :: between.written
      [] rest := by
  suffices ∀ {scanner : Scanner} {chars read : Text}, scanner.inside → scanner.bare = scanner →
      scanner.feed source = ([], .string 0 chars) → scanner.written read (source ++ '"' :: rest) =
        (.string chars.reverse, read.reverse ++ source) :: between.written [] rest by
    have hfeed := (decoded?_eq_some_iff []).1 h
    rw [this rfl rfl hfeed]
    simp
  clear h
  induction source with
  | nil =>
      intro scanner chars read hinside hbare hfeed
      obtain rfl : scanner = .string 0 chars := congrArg Prod.snd hfeed
      have hend : (string 0 chars).advance '"' = ([.string chars.reverse], .between) := rfl
      rw [List.nil_append, written, hend, List.append_nil]
      rfl
  | cons c source ih =>
      intro scanner chars read hinside hbare hfeed
      obtain ⟨hon, hrest⟩ := goesOn_of_feed hinside hfeed
      rw [List.cons_append, written, hon.tokens, hon.inside, hinside,
        ih hon.inside (bare_advance scanner c) hrest]
      simp

end Scanner

/-- Up to the next quote the scanner stays outside of strings and finds none. -/
theorem feed_outside {scanner : Scanner} (houtside : scanner.outside) {text : Text} (hquote : '"' ∉ text)
    (h : .stray ∉ (scanner.feed text).1) :
    (scanner.feed text).2.outside ∧ (∀ token ∈ (scanner.feed text).1, token.isString = false) ∧
      ∀ rest, scanner.written [] (text ++ rest) =
        (scanner.feed text).1.map (fun token => (token, [])) ++ (scanner.feed text).2.written [] rest := by
  induction text generalizing scanner with
  | nil => exact ⟨houtside, by simp [Scanner.feed], fun rest => rfl⟩
  | cons c text ih =>
      obtain ⟨hc, htext⟩ := not_or.1 (mt List.mem_cons.2 hquote)
      obtain ⟨hfirst, hrest⟩ := not_or.1 (mt List.mem_append.2 h)
      have hinside : scanner.inside = false := by cases scanner <;> first | rfl | cases houtside
      rcases Scanner.advance_outside houtside c with ⟨heq, -⟩ | hstray | ⟨-, -, houtside'⟩
      · exact absurd heq.symm hc
      · exact absurd hstray hfirst
      · obtain ⟨hstate, hstrings, hwritten⟩ := ih houtside' htext hrest
        refine ⟨hstate, fun token hmem => ?_, fun rest => ?_⟩
        · rcases List.mem_append.1 hmem with hmem | hmem
          · exact Scanner.isString_of_mem_advance houtside hmem
          · exact hstrings token hmem
        · rw [List.cons_append, Scanner.written_outside hinside, hwritten, Scanner.feed, List.map_append,
            List.append_assoc]

namespace Reader

theorem asWritten_of_not_string {token : Token} (h : token.isString = false) (reader : Reader Json)
    (source : Text) :
    reader.asWritten (token, source) = token := by
  cases token <;> first | rfl | cases h

theorem runWritten_cons {reader next : Reader Json} {token : Token × Text}
    (h : Goes .json reader (reader.asWritten token) next) (rest : List (Token × Text)) :
    reader.runWritten (token :: rest) = next.runWritten rest := by
  have hstep : reader.step .json ⟨reader.asWritten token, 0, 0⟩ = .ok next := step_eq_ok_iff.2 h
  rw [runWritten, List.foldlM_cons, hstep]
  rfl

/-- Where there are no strings the reader goes on as ever. -/
theorem Runs.runWritten {reader next : Reader Json} {tokens : List Token}
    (h : Runs .json reader tokens next) (hstrings : ∀ token ∈ tokens, token.isString = false)
    (rest : List (Token × Text)) :
    reader.runWritten (tokens.map (fun token => (token, [])) ++ rest) = next.runWritten rest := by
  induction h with
  | nil => rfl
  | @cons reader token between tokens next hgoes _ ih =>
      obtain ⟨htoken, htokens⟩ := List.forall_mem_cons.1 hstrings
      rw [List.map_cons, List.cons_append, runWritten_cons
        (by rw [asWritten_of_not_string htoken]; exact hgoes), ih htokens]

/-- Tokens that are no strings do the same for values that agree up to strings. -/
theorem allAlike_of_not_string (f g : Text → Json) {tokens : List Token}
    (hstrings : ∀ token ∈ tokens, token.isString = false) (reader : Reader Json) :
    AllAlike (SameWith f g) .json .json reader tokens tokens := by
  refine allAlike_self (fun token hmem value value' hvalue hvalue' => ?_) reader
  obtain rfl := Option.some.inj (hvalue.symm.trans hvalue')
  have htoken := hstrings token hmem
  cases token with
  | null =>
      cases hvalue
      rfl
  | bool value =>
      cases hvalue
      rfl
  | number spelling =>
      cases hvalue
      rfl
  | string text => cases htoken
  | _ => cases hvalue

/-- Behind a whole value no other value begins. -/
theorem scalar?_of_goes_complete {α : Type} {build : Builder α} {value : α} {stack : List (Frame α)}
    {token : Token} {next : Reader α} (h : Goes build (complete value stack) token next) :
    token.scalar? build = none := by
  rcases stack with _ | ⟨items | ⟨members, key⟩, stack⟩
  · cases h
  · cases h <;> first | rfl | cases ‹Expecting.takesValue _ = _›
  · cases h <;> first | rfl | cases ‹Expecting.takesValue _ = _›

end Reader

/-- Behind a number no value may come next. -/
theorem Reader.not_takesValue_of_number {α : Type} {build : Builder α} {reader : Reader α} {spelling : Text}
    {stack : List (Frame α)} {expecting : Expecting}
    (h : Goes build reader (.number spelling) (.reading stack expecting)) :
    expecting.takesValue = false := by
  generalize hnext : Reader.reading stack expecting = next at h
  cases h with
  | @scalar stack' _ _ value _ _ =>
      rcases stack' with _ | ⟨items | ⟨members, key⟩, stack'⟩ <;> cases hnext <;> rfl

/-! Behind and in front of a value. -/

theorem Scanner.number_scan (stage : Number.Stage) (chars text : Text) :
    ∃ token more, (Scanner.number 0 stage chars).scan text = token :: more ∧
      (token = .stray ∨ ∃ spelling, token = .number spelling) := by
  induction text generalizing stage chars with
  | nil =>
      rw [scan, feed, List.nil_append, closing, finish]
      split
      · exact ⟨_, _, rfl, .inr ⟨_, rfl⟩⟩
      · exact ⟨_, _, rfl, .inl rfl⟩
  | cons c rest ih =>
      cases hnext : stage.next c with
      | some next =>
          have hadvance : (number 0 stage chars).advance c = ([], .number 0 next (c :: chars)) := by
            simp only [advance, step, hnext]
            rfl
          rw [scan, feed, hadvance]
          exact ih next (c :: chars)
      | none =>
          rw [scan, feed, advance]
          simp only [step, hnext]
          split
          · exact ⟨_, _, rfl, .inl rfl⟩
          · exact ⟨_, _, rfl, .inr ⟨_, rfl⟩⟩

/-- A character of numbers begins a number or what is none. -/
theorem Scanner.scan_mark {c : Char} (h : Number.Mark c) (rest : Text) : ∃ token more,
    between.scan (c :: rest) = token :: more ∧ (token = .stray ∨ ∃ spelling, token = .number spelling) := by
  cases hfirst : Number.Stage.first c with
  | some stage =>
      have hadvance : between.advance c = ([], .number 0 stage [c]) := by
        rw [advance, step, start_of_first hfirst]
        rfl
      rw [scan, feed, hadvance]
      exact number_scan stage [c] rest
  | none =>
      have hmarks : ['.', 'e', 'E', '+', '-'].all (fun c => Number.Stage.first c = none →
          between.advance c = ([.stray], .stopped)) = true := by decide
      have hadvance : between.advance c = ([.stray], .stopped) := by
        rcases h with hdigit | hmem
        · rw [Number.Stage.first, hdigit] at hfirst
          split at hfirst
          · cases hfirst
          · split at hfirst <;> cases hfirst
        · exact of_decide_eq_true (List.all_eq_true.1 hmarks c hmem) hfirst
      exact ⟨_, _, by rw [scan, feed, hadvance]; rfl, .inl rfl⟩

/-- Behind a whole value no number goes on. -/
theorem Reader.Runs.not_mark {value value' : Json} {stack : List (Frame Json)} {c : Char} {rest : Text}
    (h : Runs .json (complete value stack) (between.scan (c :: rest)) (.done value')) : ¬Number.Mark c := by
  intro hmark
  obtain ⟨token, more, hscan, htoken⟩ := Scanner.scan_mark hmark rest
  have hstray := h.not_stray
  rw [hscan] at h hstray
  obtain ⟨next, hgoes, -⟩ := runs_cons_iff.1 h
  rcases htoken with rfl | ⟨spelling, rfl⟩
  · exact hstray List.mem_cons_self
  · cases scalar?_of_goes_complete hgoes

/-- Where a value may come next no number has been begun in front of a quote. -/
theorem between_of_takesValue {scanner : Scanner} (houtside : scanner.outside) {reader : Reader Json}
    {stack : List (Frame Json)} {expecting : Expecting}
    (h : Reader.Runs .json reader (scanner.advance '"').1 (.reading stack expecting))
    (htakes : expecting.takesValue) :
    scanner = .between := by
  cases scanner with
  | between => rfl
  | number before stage chars =>
      have hnext : stage.next '"' = none := by cases stage <;> rfl
      have hstray := h.not_stray
      simp only [Scanner.advance, Scanner.step, hnext] at h hstray
      split at h
      · next hbroken =>
        rw [if_pos hbroken] at hstray
        exact absurd List.mem_cons_self hstray
      · obtain ⟨next, hgoes, hrest⟩ := Reader.runs_cons_iff.1 h
        cases hrest
        exact absurd (Reader.not_takesValue_of_number hgoes) (by simp [htakes])
  | literal before token rest =>
      rcases Scanner.advance_outside houtside '"' with ⟨-, hstring⟩ | hstray | ⟨hne, -⟩
      · cases rest with
        | nil => simp [Scanner.outside] at houtside
        | cons expected more =>
            rw [Scanner.outside, List.all_cons, Bool.and_eq_true, Bool.and_eq_true,
              Bool.and_eq_true] at houtside
            have hne : '"' ≠ expected := by
              rintro rfl
              exact absurd houtside.2.1 (by decide)
            rw [Scanner.advance, Scanner.step, if_pos hne] at hstring
            cases hstring
      · exact absurd hstray h.not_stray
      · exact absurd rfl hne
  | _ => cases houtside

/-! Other values in place of strings. -/

/-- A text that is read as this value where it stands in place of a string with its quotes. -/
inductive StandsFor (text : Text) (value : Json) : Prop
  | string {source meant} (htext : text = inQuotes source) (hmeant : decoded? source = some meant)
      (hvalue : value = .string meant)
  | scalar {token} (hquote : '"' ∉ text) (hscalar : token.scalar? .json = some value)
      (hscan : ∀ rest, (∀ c more, rest = c :: more → ¬Number.Mark c) →
        between.scan (text ++ rest) = token :: between.scan rest)

/-- A text of pieces with something else in place of each string and its quotes. -/
def splice (quote : Text → Text) : List Piece → Text → Text
  | [], tail => tail
  | piece :: rest, tail => piece.lead ++ (quote piece.source ++ splice quote rest tail)

section Splicing

variable {quote : Text → Text} {g : Text → Json}

/-- What is spliced in does not go on with a number behind a value. -/
theorem not_mark_splice {pieces : List Piece} {tail : Text} (hproper : ∀ piece ∈ pieces, piece.Proper)
    {value value' : Json} {stack : List (Frame Json)}
    (h : Reader.Runs .json (Reader.complete value stack) (between.scan (weave pieces tail))
      (.done value')) {c : Char}
    {more : Text} (hsplice : splice quote pieces tail = c :: more) : ¬Number.Mark c := by
  cases pieces with
  | nil =>
      obtain rfl : tail = c :: more := hsplice
      exact h.not_mark
  | cons piece pieces =>
      have hpiece := hproper piece List.mem_cons_self
      obtain ⟨lead, source⟩ := piece
      cases lead with
      | nil =>
          obtain ⟨meant, hmeant⟩ := Option.isSome_iff_exists.1 hpiece.source
          have hquote : .stray ∉ (between.feed ['"']).1 := by decide
          have hfeed := @feed_piece between rfl ⟨[], source⟩ hpiece.quote meant hmeant hquote
            (weave pieces tail)
          rw [weave, Scanner.scan, hfeed] at h
          obtain ⟨next, hgoes, -⟩ := Reader.runs_cons_iff.1 h
          cases Reader.scalar?_of_goes_complete hgoes
      | cons first lead =>
          obtain rfl : first = c := (List.cons_eq_cons.1 hsplice).1
          exact h.not_mark

/-- The tokens of a text that begins with a piece, as they are written. -/
theorem written_piece {piece : Piece} (hquote : '"' ∉ piece.lead) {meant : Text}
    (hmeant : decoded? piece.source = some meant)
    (h : .stray ∉ (between.feed (piece.lead ++ ['"'])).1) (rest : Text) :
    (∀ token ∈ (between.feed (piece.lead ++ ['"'])).1, token.isString = false) ∧
      between.written [] (piece.lead ++ '"' :: (piece.source ++ '"' :: rest)) =
        (between.feed (piece.lead ++ ['"'])).1.map (fun token => (token, [])) ++
          (.string meant, piece.source) :: between.written [] rest := by
  have hstring := feed_lead rfl hquote h
  rw [Scanner.feed_append] at h hstring ⊢
  obtain ⟨houtside, hstrings, hwritten⟩ := @feed_outside between rfl piece.lead hquote fun hmem =>
    h (List.mem_append_left _ hmem)
  have hinside : (between.feed piece.lead).2.inside = false := by
    cases hstate : (between.feed piece.lead).2 <;> first | rfl | (rw [hstate] at houtside; cases houtside)
  simp only [Scanner.feed, List.append_nil] at hstring ⊢
  refine ⟨fun token hmem => ?_, ?_⟩
  · rcases List.mem_append.1 hmem with hmem | hmem
    · exact hstrings token hmem
    · exact Scanner.isString_of_mem_advance houtside hmem
  · rw [hwritten, Scanner.written_outside hinside, hstring, Scanner.written_string hmeant, List.map_append,
      List.append_assoc]

/-- The end of a text without another quote, as it is written. -/
theorem written_tail {tail : Text} (hquote : '"' ∉ tail) (h : .stray ∉ between.scan tail) :
    (∀ token ∈ between.scan tail, token.isString = false) ∧
      between.written [] tail = (between.scan tail).map fun token => (token, []) := by
  obtain ⟨houtside, hstrings, hwritten⟩ := @feed_outside between rfl tail hquote fun hmem =>
    h (List.mem_append_left _ hmem)
  have hclosing : ∀ {scanner : Scanner}, scanner.outside → ∀ token ∈ scanner.closing,
      token.isString = false := by
    intro scanner houtside token hmem
    cases scanner with
    | between => cases hmem
    | number before stage chars =>
        rw [Scanner.closing, Scanner.finish] at hmem
        split at hmem <;> rw [List.mem_singleton.1 hmem] <;> rfl
    | literal before literal rest =>
        rw [List.mem_singleton.1 hmem]
        rfl
    | _ => cases houtside
  refine ⟨fun token hmem => (List.mem_append.1 hmem).elim (hstrings token) (hclosing houtside token), ?_⟩
  rw [← List.append_nil tail, hwritten, List.append_nil, Scanner.scan, List.map_append]
  rfl

/-- The reader takes a value. -/
def Reader.TakesValue {α : Type} (reader : Reader α) : Prop :=
  ∃ stack expecting, reader = .reading stack expecting ∧ expecting.takesValue

/-- Three readers are at the same place: one of a text, one that takes its strings as they are
written, and one of a text in which other values stand for strings. -/
structure Reader.Abreast (g : Text → Json) (reader written spliced : Reader Json) : Prop where
  left : Related (SameWith .string decodedString) .json .json reader written
  right : Related (SameWith g .string) .json .json written spliced

namespace Reader.Abreast

variable {reader written spliced next : Reader Json}

theorem runs_of_not_string (h : Abreast g reader written spliced) {tokens : List Token}
    (hstrings : ∀ token ∈ tokens, token.isString = false) (hruns : Runs .json reader tokens next) :
    ∃ written' spliced', Abreast g next written' spliced' ∧
      (∀ rest, written.runWritten (tokens.map (fun token => (token, [])) ++ rest) =
        written'.runWritten rest) ∧
      Runs .json spliced tokens spliced' := by
  obtain ⟨written', hwritten, hrelated⟩ :=
    hruns.related (related_sameWith ..) h.left (allAlike_of_not_string _ _ hstrings _)
  obtain ⟨spliced', hspliced, hrelated'⟩ :=
    hwritten.related (related_sameWith ..) h.right (allAlike_of_not_string _ _ hstrings _)
  exact ⟨written', spliced', ⟨hrelated, hrelated'⟩, hwritten.runWritten hstrings, hspliced⟩

/-- A string that is a value, and what stands for it. -/
theorem goes_of_value (h : Abreast g reader written spliced) (htakes : reader.TakesValue)
    {source meant : Text} (hmeant : decoded? source = some meant) {token : Token}
    (htoken : token.scalar? .json = some (g source))
    (hgoes : Goes .json reader (.string meant) next) :
    ∃ written' spliced', Abreast g next written' spliced' ∧
      Goes .json written (written.asWritten (.string meant, source)) written' ∧
      Goes .json spliced token spliced' := by
  obtain ⟨stack, expecting, rfl, hexpecting⟩ := htakes
  obtain rfl := hgoes.unique (.scalar hexpecting rfl)
  obtain ⟨hwritten, hspliced⟩ := h
  cases hwritten with
  | @reading _ writtenStack _ hstack _ =>
      cases hspliced with
      | @reading _ splicedStack _ hstack' _ =>
          have hsource : SameWith .string decodedString (.string meant) (.string source) :=
            (decodedString_of_decoded? hmeant).symm
          have hvalue : SameWith g .string (.string source) (g source) := by
            rw [SameWith, mapStrings_string, mapStrings]
          refine ⟨complete (.string source) writtenStack, complete (g source) splicedStack, ⟨?_, ?_⟩, ?_,
            .scalar hexpecting htoken⟩
          · exact related_complete hsource hstack
          · exact related_complete hvalue hstack'
          · rw [asWritten, if_pos hexpecting]
            exact .scalar hexpecting rfl

/-- A string that is no value. -/
theorem goes_of_not_value (h : Abreast g reader written spliced) (htakes : ¬reader.TakesValue)
    {meant : Text} (source : Text) (hgoes : Goes .json reader (.string meant) next) : ∃ written' spliced',
      Abreast g next written' spliced' ∧ Goes .json written
        (written.asWritten (.string meant, source)) written' ∧
      Goes .json spliced (.string meant) spliced' := by
  have hnot : ∀ {reader' : Reader Json}, ¬reader'.TakesValue → ∀ {f f' : Text → Json},
      Alike (SameWith f f') .json .json reader' (.string meant) (.string meant) := fun htakes' _ _ =>
    .same fun heq hexpecting => absurd ⟨_, _, heq, hexpecting⟩ htakes'
  obtain ⟨written', hwritten, hrelated⟩ := hgoes.related (related_sameWith ..) h.left (hnot htakes)
  have htakes' : ¬written.TakesValue := by
    rintro ⟨stack, expecting, rfl, hexpecting⟩
    cases h.left
    exact htakes ⟨_, _, rfl, hexpecting⟩
  obtain ⟨spliced', hspliced, hrelated'⟩ := hwritten.related (related_sameWith ..) h.right (hnot htakes')
  refine ⟨written', spliced', ⟨hrelated, hrelated'⟩, ?_, hspliced⟩
  cases written with
  | done value => exact hwritten
  | reading stack expecting =>
      have hexpecting : expecting.takesValue = false :=
        Bool.eq_false_iff.2 fun hexpecting => htakes' ⟨_, _, rfl, hexpecting⟩
      rw [asWritten, hexpecting]
      exact hwritten

end Reader.Abreast

/-- What is spliced in for a string that is a value is one token in its place. -/
theorem scan_splice_of_takesValue {piece : Piece} {pieces : List Piece} {tail : Text}
    (hpiece : piece.Proper) (hpieces : ∀ piece ∈ pieces, piece.Proper)
    (hstands : StandsFor (quote piece.source) (g piece.source))
    (hlead : .stray ∉ (between.feed (piece.lead ++ ['"'])).1) {reader next next' : Reader Json}
    {meant : Text} {value : Json}
    (hruns : Reader.Runs .json reader (between.feed (piece.lead ++ ['"'])).1 next)
    (htakes : next.TakesValue) (hgoes : Reader.Goes .json next (.string meant) next')
    (hrest : Reader.Runs .json next' (between.scan (weave pieces tail)) (.done value)) :
    ∃ token, token.scalar? .json = some (g piece.source) ∧
    between.scan (splice quote (piece :: pieces) tail) =
      (between.feed (piece.lead ++ ['"'])).1 ++ token :: between.scan (splice quote pieces tail) := by
  cases hstands with
  | @string source meant' htext hmeant hvalue =>
      refine ⟨.string meant', by rw [hvalue]; rfl, ?_⟩
      have hfeed := @feed_piece between rfl ⟨piece.lead, source⟩ hpiece.quote meant' hmeant hlead
        (splice quote pieces tail)
      have hsplice : splice quote (piece :: pieces) tail =
          piece.lead ++ '"' :: (source ++ '"' :: splice quote pieces tail) := by
        rw [splice, htext, inQuotes, List.append_assoc]
        rfl
      rw [hsplice, Scanner.scan, hfeed, List.append_assoc]
      rfl
  | @scalar token hquote hscalar hscan =>
      refine ⟨token, hscalar, ?_⟩
      obtain ⟨stack, expecting, rfl, hexpecting⟩ := htakes
      obtain rfl := hgoes.unique (.scalar hexpecting rfl)
      rw [Scanner.feed_append] at hlead hruns ⊢
      obtain ⟨houtside, -, -⟩ := @feed_outside between rfl piece.lead hpiece.quote fun hmem =>
        hlead (List.mem_append_left _ hmem)
      simp only [Scanner.feed, List.append_nil] at hruns ⊢
      obtain ⟨first, -, hquoted⟩ := Reader.runs_append_iff.1 hruns
      have hbetween := between_of_takesValue houtside hquoted hexpecting
      have hnone : (between.advance '"').1 = [] := rfl
      rw [hbetween, hnone, List.append_nil, splice, Scanner.scan, Scanner.feed_append, hbetween,
        List.append_assoc]
      exact congrArg ((between.feed piece.lead).1 ++ ·)
        (hscan _ fun c more heq => not_mark_splice hpieces hrest heq)

/-- What comes behind the last string is read the same. -/
theorem exists_splice_tail {tail : Text} (htail : '"' ∉ tail) {reader written spliced : Reader Json}
    (habreast : reader.Abreast g written spliced) {value : Json}
    (hruns : Reader.Runs .json reader (between.scan tail) (.done value)) :
    ∃ value' value'', written.runWritten (between.written [] tail) = .ok (.done value') ∧
      Reader.Runs .json spliced (between.scan tail) (.done value'') ∧
      value = value'.mapStrings decodedString ∧ value'' = value'.mapStrings g := by
  obtain ⟨hstrings, hwritten⟩ := written_tail htail hruns.not_stray
  obtain ⟨written', spliced', ⟨hvalue, hvalue'⟩, hrun, hspliced⟩ :=
    habreast.runs_of_not_string hstrings hruns
  cases hvalue with
  | done hvalue =>
      cases hvalue' with
      | done hvalue' =>
          rw [SameWith, mapStrings_string] at hvalue hvalue'
          refine ⟨_, _, ?_, hspliced, hvalue, hvalue'.symm⟩
          have hend := hrun []
          rw [List.append_nil] at hend
          rw [hwritten, hend]
          rfl

/-- One string and what is put in its place: a value and what stands for it, or a string that is no
value and stays. -/
theorem exists_goes_splice {piece : Piece} {pieces : List Piece} {tail : Text} (hpiece : piece.Proper)
    (hpieces : ∀ piece ∈ pieces, piece.Proper) (hstands : StandsFor (quote piece.source) (g piece.source))
    (hlead : .stray ∉ (between.feed (piece.lead ++ ['"'])).1) {meant : Text}
    (hmeant : decoded? piece.source = some meant) {reader next next' written spliced : Reader Json}
    {value : Json} (habreast : next.Abreast g written spliced)
    (hruns : Reader.Runs .json reader (between.feed (piece.lead ++ ['"'])).1 next)
    (hgoes : Reader.Goes .json next (.string meant) next')
    (hrest : Reader.Runs .json next' (between.scan (weave pieces tail)) (.done value))
    (hsame : ¬next.TakesValue → quote piece.source = inQuotes piece.source) :
    ∃ token written' spliced', between.scan (splice quote (piece :: pieces) tail) =
        (between.feed (piece.lead ++ ['"'])).1 ++ token :: between.scan (splice quote pieces tail) ∧
      next'.Abreast g written' spliced' ∧
      Reader.Goes .json written (written.asWritten (.string meant, piece.source)) written' ∧
      Reader.Goes .json spliced token spliced' := by
  by_cases htakes : next.TakesValue
  · obtain ⟨token, hscalar, hscan⟩ := scan_splice_of_takesValue hpiece hpieces hstands hlead hruns
      htakes hgoes hrest
    obtain ⟨_, _, habreast', hwritten, hspliced⟩ := habreast.goes_of_value htakes hmeant hscalar hgoes
    exact ⟨token, _, _, hscan, habreast', hwritten, hspliced⟩
  · obtain ⟨_, _, habreast', hwritten, hspliced⟩ := habreast.goes_of_not_value htakes piece.source hgoes
    refine ⟨.string meant, _, _, ?_, habreast', hwritten, hspliced⟩
    have hbody : splice quote (piece :: pieces) tail =
        piece.lead ++ '"' :: (piece.source ++ '"' :: splice quote pieces tail) := by
      rw [splice, hsame htakes, inQuotes, List.append_assoc]
      rfl
    rw [hbody, Scanner.scan, feed_piece rfl hpiece.quote hmeant hlead, List.append_assoc]
    rfl

/-- In a text that can be read other values can be put in place of the strings that are values. -/
theorem exists_splice {pieces : List Piece} {tail : Text} (hproper : ∀ piece ∈ pieces, piece.Proper)
    (htail : '"' ∉ tail)
    (hstands : ∀ piece ∈ pieces, StandsFor (quote piece.source) (g piece.source))
    {reader written spliced : Reader Json} (habreast : reader.Abreast g written spliced)
    {value : Json}
    (hruns : Reader.Runs .json reader (between.scan (weave pieces tail)) (.done value))
    (htakes : ∀ before piece after, pieces = before ++ piece :: after →
      quote piece.source ≠ inQuotes piece.source →
      ∀ next, Reader.Runs .json reader (between.feed (weave before (piece.lead ++ ['"']))).1 next →
      next.TakesValue) :
    ∃ value' value'', written.runWritten (between.written [] (weave pieces tail)) = .ok (.done value') ∧
      Reader.Runs .json spliced (between.scan (splice quote pieces tail)) (.done value'') ∧
      value = value'.mapStrings decodedString ∧ value'' = value'.mapStrings g := by
  induction pieces generalizing reader written spliced with
  | nil => exact exists_splice_tail htail habreast hruns
  | cons piece pieces ih =>
      obtain ⟨hpiece, hpieces⟩ := List.forall_mem_cons.1 hproper
      obtain ⟨hstandsPiece, hstandsPieces⟩ := List.forall_mem_cons.1 hstands
      obtain ⟨meant, hmeant⟩ := Option.isSome_iff_exists.1 hpiece.source
      have hlead : .stray ∉ (between.feed (piece.lead ++ ['"'])).1 :=
        not_stray_lead fun hmem => hruns.not_stray (List.mem_append_left _ hmem)
      have hfeed := feed_piece rfl hpiece.quote hmeant hlead
      obtain ⟨hstrings, hwritten⟩ := written_piece hpiece.quote hmeant hlead (weave pieces tail)
      rw [weave, Scanner.scan, hfeed, List.append_assoc] at hruns
      obtain ⟨first, hfirst, hruns⟩ := Reader.runs_append_iff.1 hruns
      obtain ⟨second, hgoes, hrest⟩ := Reader.runs_cons_iff.1 hruns
      obtain ⟨_, _, habreastFirst, hrunFirst, hsplicedFirst⟩ := habreast.runs_of_not_string hstrings hfirst
      have hsame : ¬first.TakesValue → quote piece.source = inQuotes piece.source := fun hnot =>
        Classical.byContradiction fun hne => hnot (htakes [] piece pieces rfl hne first hfirst)
      obtain ⟨token, _, _, hsplice, habreastSecond, hgoesWritten, hgoesSpliced⟩ :=
        exists_goes_splice hpiece hpieces hstandsPiece hlead hmeant habreastFirst hfirst hgoes hrest hsame
      obtain ⟨value', value'', hrunRest, hsplicedRest, hvalues⟩ :=
        ih hpieces hstandsPieces habreastSecond hrest
        fun before piece' after heq hne next hnext => htakes (piece :: before) piece' after
            (by rw [heq]; rfl) hne next <| by
          rw [weave, hfeed]
          exact Reader.runs_append_iff.2 ⟨first, hfirst, .cons hgoes hnext⟩
      refine ⟨value', value'', ?_, ?_, hvalues⟩
      · rw [weave, hwritten, hrunFirst, Reader.runWritten_cons hgoesWritten]
        exact hrunRest
      · rw [hsplice]
        exact Reader.runs_append_iff.2 ⟨_, hsplicedFirst, .cons hgoesSpliced hsplicedRest⟩

/-- In a text that can be read other values can be put in place of the strings that are values,
quotes included: it is read as the same tree with these values in it. -/
theorem exists_read_splice {pieces : List Piece} {tail : Text} (hproper : ∀ piece ∈ pieces, piece.Proper)
    (htail : '"' ∉ tail)
    (hstands : ∀ piece ∈ pieces, StandsFor (quote piece.source) (g piece.source)) {value : Json}
    (hread : read (weave pieces tail) = .ok value)
    (htakes : ∀ before piece after, pieces = before ++ piece :: after →
      quote piece.source ≠ inQuotes piece.source →
      ∀ next, Reader.Runs .json (.reading [] .value)
        (between.feed (weave before (piece.lead ++ ['"']))).1 next →
        next.TakesValue) :
    ∃ written, readWritten? (weave pieces tail) = some written ∧ value = written.mapStrings decodedString ∧
      read (splice quote pieces tail) = .ok (written.mapStrings g) := by
  have hstart : Reader.Abreast g (.reading [] .value) (.reading [] .value) (.reading [] .value) :=
    ⟨.reading .nil (by simp), .reading .nil (by simp)⟩
  obtain ⟨written, spliced, hwritten, hspliced, hvalue, rfl⟩ :=
    exists_splice hproper htail hstands hstart (read_eq_ok_iff.1 hread) htakes
  exact ⟨written, by rw [readWritten?, hwritten], hvalue, read_eq_ok_iff.2 hspliced⟩

end Splicing

end ServerPack.Json
