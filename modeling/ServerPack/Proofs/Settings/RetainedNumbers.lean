import ServerPack.Proofs.Json.NumberGrammar
import ServerPack.Proofs.Json.StringCount
import ServerPack.Proofs.Placeholder.SimultaneousSubstitution
import ServerPack.Proofs.Settings.LookupComposition
import ServerPack.Proofs.Settings.ResolvedTree

/-!
Numbers keep their spelling. In a body whose only dollar sign stands in a number form, this is the
only placeholder, and its value takes its place as it is (`fill_of_alone`). If a string of the data
is written so, the number stands where the string stood and nothing else has changed: the string is
used once, so it is no suffix, and the settings can be read again (`exists_parse_of_writtenAt`).
Whatever a number of the grammar looks like, it is resolved as it was written, from the settings
themselves and from what they have become (`spelling_kept`).
-/

namespace ServerPack

open Json (Piece weave inQuotes decodedString mapMembers uses usesAmong)
open Json.Scanner (decoded? between)

/-! One placeholder. -/

namespace Form

/-- In front of a text that begins with no text form a text without a dollar sign is silent. -/
theorem silent_number_of_not_mem {lead rest : Text} (h : '$' ∉ lead)
    (hrest : Form.text.pathAt? rest = none) :
    Form.number.Silent lead rest := by
  induction lead with
  | nil => trivial
  | cons c lead ih =>
      obtain ⟨-, hlead⟩ := not_or.1 (mt List.mem_cons.2 h)
      refine ⟨pathAt?_number_of_text ?_, ih hlead⟩
      cases lead with
      | nil => exact hrest
      | cons d lead =>
          obtain ⟨hd, -⟩ := not_or.1 (mt List.mem_cons.2 hlead)
          exact pathAt?_text_of_ne (Ne.symm hd) _

theorem occurrencesFrom_of_silent {form : Form} {text : Text} (h : form.Silent text []) (start : Nat) :
    form.occurrencesFrom start 0 text = [] := by
  have hend := occurrencesFrom_silent h start
  rwa [List.append_nil] at hend

end Form

section Alone

variable {path front rest : Text} (hne : path ≠ []) (hclosing : ')' ∉ path) (hfront : '$' ∉ front)
  (hrest : '$' ∉ rest)

include hne hclosing hfront hrest

/-- In a body with a number form and no other dollar sign this is the only placeholder. -/
theorem Placeholder.occurringIn_of_alone :
    occurringIn (front ++ literal ⟨path, .number⟩ ++ rest) = [⟨path, .number⟩] := by
  have hnumbers : Form.number.occurrences (front ++ literal ⟨path, .number⟩ ++ rest) =
      [⟨path, front.length, front.length + Form.number.width path⟩] := by
    have hsilent : Form.number.Silent front (literal ⟨path, .number⟩ ++ rest) :=
      Form.silent_number_of_not_mem hfront (Form.pathAt?_text_of_ne (by decide) _)
    rw [Form.occurrences, List.append_assoc, Form.occurrencesFrom_silent hsilent,
      Form.occurrencesFrom_literal hne hclosing,
      Form.occurrencesFrom_of_silent (Form.silent_number_of_not_mem hrest rfl), Nat.zero_add]
  have htexts : Form.text.occurrences (front ++ literal ⟨path, .number⟩ ++ rest) =
      [⟨path, front.length + 1, front.length + 1 + Form.text.width path⟩] := by
    have hbody : front ++ literal ⟨path, .number⟩ ++ rest =
        (front ++ ['"']) ++ (literal ⟨path, .text⟩ ++ ("(number)\"".toList ++ rest)) := by
      rw [Form.literal_number]
      simp only [List.append_assoc, List.cons_append, List.nil_append]
    rw [Form.occurrences, hbody, Form.occurrencesFrom_silent (Form.silent_text (by simp [hfront]) _),
      Form.occurrencesFrom_literal hne hclosing,
      Form.occurrencesFrom_of_silent (Form.silent_text (by simp [hrest]) _), Nat.zero_add,
        List.length_append]
    rfl
  have hwidth := Form.width_number path
  have hinside : Occurrence.inside ⟨path, front.length + 1, front.length + 1 + Form.text.width path⟩
      ⟨path, front.length, front.length + Form.number.width path⟩ := by
    simp only [Occurrence.inside, Bool.and_eq_true, decide_eq_true_eq]
    omega
  rw [occurringIn, hnumbers, htexts]
  simp [hinside, Dictionary.distinct, Dictionary.insertMember]

/-- What has been resolved for its path takes its place. -/
theorem fill_of_alone (value : Text) :
    fill [⟨path, [.number], value⟩] (front ++ Placeholder.literal ⟨path, .number⟩ ++ rest) =
      front ++ value ++ rest := by
  have hsilent : Form.number.Silent front (Placeholder.literal ⟨path, .number⟩ ++ rest) :=
    Form.silent_number_of_not_mem hfront (Form.pathAt?_text_of_ne (by decide) _)
  have hbehind := Form.replaceAll_silent hne hclosing value
    (@Form.silent_number_of_not_mem rest [] hrest rfl)
  rw [List.append_nil] at hbehind
  rw [fill, List.foldl_cons, List.foldl_nil, Resolved.replaceIn, List.foldl_cons, List.foldl_nil,
    List.append_assoc,
    Form.replaceAll_silent hne hclosing value hsilent, Text.replaceAll_pattern_append value
      (Form.literal_ne_nil _), hbehind,
    List.append_assoc]
  exact congrArg (fun more => front ++ (value ++ more)) (List.append_nil rest)

end Alone

/-! One string in a tree. -/

namespace Json

/-- A value in place of a string that is written so. -/
def insteadOf (written : Text) (value : Json) (source : Text) : Json :=
  if source = written then value else decodedString source

/-- What is written for it. -/
def textInsteadOf (written text source : Text) : Text := if source = written then text else inQuotes source

theorem splice_append (quote : Text → Text) (pieces more : List Piece) (tail : Text) :
    splice quote (pieces ++ more) tail = splice quote pieces (splice quote more tail) := by
  induction pieces with
  | nil => rfl
  | cons piece rest ih => rw [List.cons_append, splice, splice, ih]

/-- A text in place of a string that does not occur changes nothing. -/
theorem splice_textInsteadOf {written text : Text} {pieces : List Piece}
    (h : ∀ piece ∈ pieces, piece.source ≠ written) (tail : Text) :
    splice (textInsteadOf written text) pieces tail = weave pieces tail := by
  induction pieces with
  | nil => rfl
  | cons piece rest ih =>
      obtain ⟨hpiece, hrest⟩ := List.forall_mem_cons.1 h
      rw [splice, textInsteadOf, if_neg hpiece, inQuotes, weave, ih hrest, List.append_assoc]
      rfl

theorem mem_weave {c : Char} {piece : Piece} {pieces : List Piece} (h : piece ∈ pieces)
    (hc : c ∈ piece.source) (tail : Text) : c ∈ weave pieces tail := by
  obtain ⟨before, after, rfl⟩ := List.append_of_mem h
  rw [weave_weave]
  simp [hc]

/-- Where a string holds the only dollar sign of a text there is none in front of it or behind
it. -/
theorem alone_of_count {before after : List Piece} {piece : Piece} {tail : Text}
    (hdollar : '$' ∈ piece.source) (honly : (weave (before ++ piece :: after) tail).count '$' = 1) :
    '$' ∉ weave before piece.lead ∧ '$' ∉ weave after tail ∧ ∀ other ∈ before ++ after,
    other.source ≠ piece.source := by
  have hpos := List.count_pos_iff.2 hdollar
  rw [weave_weave, weave_append] at honly
  simp only [List.count_append, List.count_cons, List.count_nil] at honly
  have hfront : '$' ∉ weave before piece.lead := List.count_eq_zero.1 (by omega)
  have hrest : '$' ∉ weave after tail := List.count_eq_zero.1 (by omega)
  refine ⟨hfront, hrest, fun other hother hsource => ?_⟩
  rw [← hsource] at hdollar
  rcases List.mem_append.1 hother with hother | hother
  · exact hfront (mem_weave hother hdollar _)
  · exact hrest (mem_weave hother hdollar _)

/-- In place of the string of one piece a text is spliced in. -/
theorem splice_textInsteadOf_of_alone {before after : List Piece} {piece : Piece}
    (h : ∀ other ∈ before ++ after, other.source ≠ piece.source) (text tail : Text) :
    splice (textInsteadOf piece.source text) (before ++ piece :: after) tail =
      weave before piece.lead ++ text ++ weave after tail := by
  obtain ⟨hbefore, hafter⟩ := List.forall_mem_append.1 h
  rw [splice_append, splice_textInsteadOf hbefore, splice, splice_textInsteadOf hafter,
    textInsteadOf, if_pos rfl, weave_append, List.append_assoc]

/-- What is written for the spelling of a number in place of a string stands for that number. -/
theorem standsFor_insteadOf {spelling : Text} (hspelling : Number.WellSpelled spelling)
    (written : Text) {source : Text} (hsource : (decoded? source).isSome) :
    StandsFor (textInsteadOf written spelling source) (insteadOf written (.number spelling) source) := by
  obtain ⟨meant, hmeant⟩ := Option.isSome_iff_exists.1 hsource
  rw [textInsteadOf, insteadOf]
  by_cases hwritten : source = written
  · rw [if_pos hwritten, if_pos hwritten]
    exact .scalar (fun hmem => (hspelling.literal _ hmem).1 rfl) rfl fun rest hrest =>
      Scanner.scan_spelling hspelling hrest
  · rw [if_neg hwritten, if_neg hwritten, decodedString_of_decoded? hmeant]
    exact .string rfl hmeant rfl

/-- A text is scanned on its own behind one that has been scanned to its end. -/
theorem Scanner.scan_append_of_feed {first : Text} {tokens : List Token}
    (h : between.feed first = (tokens, between)) (rest : Text) :
    between.scan (first ++ rest) = tokens ++ between.scan rest := by
  rw [scan, feed_append, h, List.append_assoc]
  rfl

theorem isScalar_insteadOf_number (written spelling source : Text) :
    (insteadOf written (.number spelling) source).IsScalar := by
  rw [insteadOf]
  split <;> simp [Json.IsScalar, decodedString, Json.kind]

end Json

namespace Settings

variable {document : Document} {raw path source : Text}

theorem Leads.mapStrings {members : List (Text × Json)} {keys : List Text} {value : Json}
    (h : Leads members keys value) (f : Text → Json) :
    Leads (mapMembers f members) keys (value.mapStrings f) := by
  induction h with
  | last hlast => exact .last (by rw [Json.get?_mapMembers, hlast]; rfl)
  | inner hinner _ ih => exact .inner (by rw [Json.get?_mapMembers, hinner]; rfl) ih

/-- The strings of a value are among those of the members from which keys lead to it. -/
theorem Leads.uses_le {members : List (Text × Json)} {keys : List Text} {value : Json}
    (h : Leads members keys value) (text : Text) : uses text value ≤ usesAmong text members := by
  induction h with
  | last hlast => exact Json.uses_le_usesAmong hlast
  | inner hinner _ ih => exact Nat.le_trans ih (Json.uses_le_usesAmong hinner)

/-- A path of the data leads to a string, and so it is written, with its quotes. -/
def WrittenAt (raw path text : Text) : Prop :=
  ∃ written source, Json.readWritten? raw = some (.object written) ∧
    Leads written (sectionKey :: dataKey :: Text.split '.' path) (.string source) ∧ inQuotes source = text

/-- The string to which a path of the data leads in an object, if there is one, is written so. -/
def leadsToWritten (path text : Text) : Json → Bool
  | .object written => (descend written (sectionKey :: dataKey :: Text.split '.'
    path)).toOption.any fun value =>
      value.text?.any fun source => inQuotes source = text
  | _ => false

theorem any_leadsToWritten_iff {text : Text} :
    ((Json.readWritten? raw).any (leadsToWritten path text)) ↔ WrittenAt raw path text := by
  rw [WrittenAt]
  rcases Json.readWritten? raw with _ | value
  · simp
  cases value with
  | object written =>
      rw [Option.any_some, leadsToWritten]
      constructor
      · intro h
        obtain ⟨value, hvalue, htext⟩ := (Option.any_eq_true _ _).1 h
        obtain ⟨source, hsource, htext⟩ := (Option.any_eq_true _ _).1 htext
        have hfound : descend written (sectionKey :: dataKey :: Text.split '.' path) = .ok value := by
          cases hdescend : descend written (sectionKey :: dataKey :: Text.split '.' path) <;>
            rw [hdescend] at hvalue <;>
            cases hvalue
          rfl
        have hstring : value = .string source := by
          cases value <;> cases hsource
          rfl
        exact ⟨written, source, rfl, descend_eq_ok_iff.1 (hstring ▸ hfound), of_decide_eq_true htext⟩
      · rintro ⟨_, source, heq, hleads, htext⟩
        cases heq
        rw [descend_eq_ok_iff.2 hleads]
        exact decide_eq_true htext
  | _ => simp [leadsToWritten]

instance (raw path text : Text) : Decidable (WrittenAt raw path text) :=
    decidable_of_iff _ any_leadsToWritten_iff

/-- They are among those of the first member on the way. -/
theorem Leads.exists_first {members : List (Text × Json)} {key : Text} {keys : List Text} {value : Json}
    (h : Leads members (key :: keys) value) (text : Text) :
    ∃ first, Dictionary.get? key members = some first ∧ uses text value ≤ uses text first := by
  cases h with
  | last hlast => exact ⟨value, hlast, Nat.le_refl _⟩
  | inner hinner hrest => exact ⟨_, hinner, hrest.uses_le text⟩

theorem uses_pos_of_mem_texts {value : Json} {text : Text} (h : text ∈ value.texts) :
    0 < uses text value := by
  cases value with
  | array items =>
      obtain ⟨item, hmem, htext⟩ := List.mem_filterMap.1 h
      have hitem : item = .string text := by
        cases item <;> cases htext
        rfl
      have hself : uses text (.string text) = 1 := if_pos rfl
      have hle := @Json.uses_le_usesIn text _ _ hmem
      rw [hitem, hself] at hle
      exact hle
  | _ => cases h

/-- What is written in the data and as a suffix is written twice. -/
theorem two_le_uses_of_mem_writtenSuffixes {written : List (Text × Json)}
    (hwritten : Json.readWritten? raw = some (.object written))
    (h : Leads written (sectionKey :: dataKey :: Text.split '.' path) (.string source))
    (hsuffix : source ∈ writtenSuffixes raw) : 2 ≤ usesAmong source written := by
  have hself : uses source (.string source) = 1 := if_pos rfl
  cases h with
  | @inner _ _ fields _ _ hfields hdata =>
      rw [writtenSuffixes, hwritten] at hsuffix
      dsimp only at hsuffix
      rw [hfields, Option.map_some, Option.getD_some, suffixTexts, suffixesOf?] at hsuffix
      cases hfound : Dictionary.get? "suffixes".toList fields with
      | none =>
          rw [hfound] at hsuffix
          cases hsuffix
      | some suffixes =>
          rw [hfound] at hsuffix
          have hpos := uses_pos_of_mem_texts hsuffix
          obtain ⟨data, hget, hle⟩ := hdata.exists_first source
          have hapart := @Json.uses_add_uses_le source _ _ _ _ _ (by decide) hget hfound
          have hpart := @Json.uses_le_usesAmong source _ _ _ hfields
          rw [uses] at hpart
          omega

/-- The suffixes stay when a number is written instead of a string of the data that is written
nowhere else. -/
theorem readSection_insteadOf_number {written : List (Text × Json)} {part : Json} {suffixes : List Text}
    (hwritten : Json.readWritten? raw = some (.object written))
    (hpart : Dictionary.get? sectionKey written = some part)
    (hleads : Leads written (sectionKey :: dataKey :: Text.split '.' path) (.string source))
    (honce : usesAmong source written ≤ 1)
    (hsection : readSection (part.mapStrings decodedString) = .ok suffixes) (spelling : Text) :
    readSection (part.mapStrings (Json.insteadOf source (.number spelling))) =
      .ok ((suffixTexts part).map Json.decodedText) := by
  have hsuffixes : writtenSuffixes raw = suffixTexts part := by
    rw [writtenSuffixes, hwritten]
    dsimp only
    rw [hpart]
    rfl
  refine readSection_mapStrings (fun _ => by simp [Json.IsScalar, decodedString, Json.kind])
    (Json.isScalar_insteadOf_number _ _) hsection (fun _ _ => rfl) fun suffix hmem => ?_
  have hne : suffix ≠ source := by
    rintro rfl
    have htwo := two_le_uses_of_mem_writtenSuffixes hwritten hleads (hsuffixes ▸ hmem)
    omega
  rw [Json.insteadOf, if_neg hne]
  rfl

/-- Where the only dollar sign of settings stands in a string of the data, a number can be written
instead of the string. -/
theorem exists_parse_of_writtenAt (hparse : parse raw = .ok document) {text : Text}
    (hwritten : WrittenAt raw path text) (hdollar : '$' ∈ text) (honly : raw.count '$' = 1)
    {spelling : Text} (hspelling : Json.Number.WellSpelled spelling) :
    ∃ front rest settings, raw = front ++ text ++ rest ∧ '$' ∉ front ∧ '$' ∉ rest ∧
      parse (front ++ spelling ++ rest) = .ok settings ∧
      settings.get (qualified path) = .ok (.number spelling) := by
  obtain ⟨written, source, hwritten, hleads, rfl⟩ := hwritten
  replace hdollar : '$' ∈ source := by simpa [inQuotes] using hdollar
  obtain ⟨hread, part, hpart, hsection⟩ := parse_eq_ok_iff.1 hparse
  have hstray := (Json.read_eq_ok_iff.1 hread).not_stray
  obtain ⟨pieces, tail, hraw, hproper, hquote, -⟩ := @Json.exists_weave between rfl raw hstray
  have hself : uses source (.string source) = 1 := if_pos rfl
  have huses := hleads.uses_le source
  rw [hself] at huses
  have halone : ∀ before piece after, pieces = before ++ piece :: after → piece.source = source →
      ('$' ∉ weave before piece.lead ∧ '$' ∉ weave after tail ∧ ∀ other ∈ before ++ after,
        other.source ≠ piece.source) ∧
        usesAmong source written ≤ 1 ∧ ∀ next,
          Json.Reader.Runs .json (.reading [] .value)
            (between.feed (weave before (piece.lead ++ ['"']))).1 next →
            next.TakesValue := by
    rintro before piece after rfl rfl
    have hothers := Json.alone_of_count hdollar (hraw ▸ honly)
    obtain ⟨honce, htakes⟩ := Json.uses_of_written_once hproper hquote (hraw ▸ hread)
      (hraw ▸ hwritten) hothers.2.2
    exact ⟨hothers, honce, htakes huses⟩
  obtain ⟨piece, hmem, hsource⟩ := Json.exists_piece_of_uses hproper hquote (hraw ▸ hstray)
    (hraw ▸ hwritten) (show 0 < uses source (.object written) from huses)
  obtain ⟨before, after, hpieces⟩ := List.append_of_mem hmem
  obtain ⟨⟨hfront, hrest, hothers⟩, honce, -⟩ := halone before piece after hpieces hsource
  obtain ⟨written', hwritten', hdecoded, hspliced⟩ := Json.exists_read_splice hproper hquote
    (fun other hother => Json.standsFor_insteadOf hspelling source (hproper other hother).source)
      (hraw ▸ hread)
    fun before piece after heq hne => (halone before piece after heq (Classical.byContradiction fun hne' =>
      hne (if_neg hne'))).2.2
  obtain rfl := Option.some.inj ((hraw ▸ hwritten').symm.trans hwritten)
  have hroot : document.root = mapMembers decodedString written := Json.object.inj hdecoded
  rw [hroot, Json.get?_mapMembers, Option.map_eq_some_iff] at hpart
  obtain ⟨writtenPart, hwrittenPart, rfl⟩ := hpart
  rw [hpieces, ← hsource, Json.splice_textInsteadOf_of_alone hothers, hsource] at hspliced
  refine ⟨weave before piece.lead, weave after tail,
    ⟨mapMembers (Json.insteadOf source (.number spelling)) written,
    (suffixTexts writtenPart).map Json.decodedText⟩, ?_, hfront, hrest, parse_eq_ok_iff.2 ⟨hspliced,
      writtenPart.mapStrings (Json.insteadOf source (.number spelling)), ?_, ?_⟩, ?_⟩
  · rw [hraw, hpieces, Json.weave_weave, Json.weave_append, inQuotes, hsource]
    simp only [List.append_assoc, List.cons_append, List.nil_append]
  · rw [Json.get?_mapMembers, hwrittenPart]
    rfl
  · exact readSection_insteadOf_number hwritten hwrittenPart hleads honce hsection spelling
  · have hnumber := hleads.mapStrings (Json.insteadOf source (.number spelling))
    rw [Json.mapStrings, Json.insteadOf, if_pos rfl] at hnumber
    rw [Document.get, split_qualified, descend_eq_ok_iff.2 hnumber]
    rfl

/-- Settings with a number in the data. -/
def numberRaw (spelling : Text) : Text :=
  "\x7b\"placeholder\":\x7b\"data\":\x7b\"n\":".toList ++ (spelling ++ "\x7d\x7d\x7d".toList)

/-- The tokens of these settings. -/
def numberTokens (spelling : Text) : List Json.Token :=
  [.objectOpen, .string sectionKey, .colon, .objectOpen, .string dataKey, .colon, .objectOpen,
    .string ['n'], .colon, .number spelling, .objectClose, .objectClose, .objectClose]

theorem tokens_numberRaw {spelling : Text} (h : Json.Number.WellSpelled spelling) :
    Json.tokens (numberRaw spelling) = numberTokens spelling := by
  have hfront : between.feed "\x7b\"placeholder\":\x7b\"data\":\x7b\"n\":".toList =
      ((numberTokens []).take 9, between) := by decide +kernel
  have hrest : between.scan "\x7d\x7d\x7d".toList = [.objectClose, .objectClose, .objectClose] := by
    decide +kernel
  have hmark : ∀ c more, "\x7d\x7d\x7d".toList = c :: more → ¬Json.Number.Mark c := by
    rintro c more ⟨⟩
    decide
  refine (Json.Scanner.scan_append_of_feed hfront _).trans ?_
  rw [Json.Scanner.scan_spelling h hmark, hrest]
  rfl

/-- Any number can stand there. -/
theorem exists_parse_numberRaw {spelling : Text} (h : Json.Number.WellSpelled spelling) :
    ∃ document, parse (numberRaw spelling) = .ok document ∧
    document.get (qualified ['n']) = .ok (.number spelling) := by
  have hfold : ((numberTokens spelling).map fun token => (⟨token, 0, 0⟩ : Json.Lexeme)).foldlM
    (Json.Reader.step .json)
      (.reading [] .value) = .ok (.done (.object
          [(sectionKey, .object [(dataKey, .object [(['n'], .number spelling)])])])) :=
    rfl
  have hruns := Json.Reader.foldlM_step_eq_ok_iff.1 hfold
  rw [List.map_map] at hruns
  have hread := Json.read_eq_ok_iff.2 ((tokens_numberRaw h).symm ▸ Json.Reader.runs_map_bare.1 hruns)
  refine ⟨⟨_, []⟩, parse_eq_ok_iff.2 ⟨hread, _, rfl, rfl⟩, ?_⟩
  rw [Document.get, split_qualified]
  rfl

theorem wellSpelled_of_get {spelling : Text} (hparse : parse raw = .ok document)
    (hget : document.get path = .ok (.number spelling)) : Json.Number.WellSpelled spelling := by
  cases Document.spelled_of_get hparse hget with
  | number hspelling => exact hspelling

/-- What is found is a number if it is written as one. -/
theorem eq_number_of_render {found : Except Failure Json} {spelling : Text}
    (h : found.toOption.map (fun value => (value.kind, value.render)) = some (.number, spelling)) :
    found = .ok (.number spelling) := by
  rcases found with failure | value
  · cases h
  · obtain ⟨hkind, hrender⟩ := Prod.mk.inj (Option.some.inj h)
    cases value <;> cases hkind
    rw [← hrender, Json.render]

theorem perform_resolve_of_number {spelling : Text}
    (hget : document.get (qualified path) = .ok (.number spelling)) (session : Session) :
    (document.resolve path).perform session = (.ok spelling, session) := by
  rw [Document.resolve, Document.value_of_get hget rfl]
  rfl

section Alone

variable {front rest spelling : Text} (hne : path ≠ []) (hclosing : ')' ∉ path)
  (hfront : '$' ∉ front) (hrest : '$' ∉ rest)
    (hget : document.get (qualified path) = .ok (.number spelling))

include hne hclosing hfront hrest hget

/-- A run puts the number in place of a number form without another dollar sign around it. -/
theorem exists_returns_run_of_number {σ : Type} {persist : Text → StateT σ Action Unit}
    (hpersist : ∀ text start, ∃ after, Returns (persist text) start () after) (mode : WriteMode)
    (start : σ × Session) :
    ∃ after, Returns (Substitution.run mode (fun path => document.resolve path) persist
      (Placeholder.occurringIn (front ++ Placeholder.literal ⟨path, .number⟩ ++ rest))
      (front ++ Placeholder.literal ⟨path, .number⟩ ++ rest)) start (front ++ spelling ++ rest) after := by
  have hresolve : Returns (document.resolve path : StateT σ Action Text) start spelling start := by
    change ((document.resolve path >>= fun text => pure (text, start.1) : Action
      (Text × σ))).perform start.2 = _
    rw [Action.perform_bind, perform_resolve_of_number hget]
    rfl
  have hresolved : Returns (Substitution.resolveAll (m := StateT σ Action)
    (fun path => document.resolve path)
      [⟨path, .number⟩]) start [⟨path, [.number], spelling⟩] start := by
    have hentry : Returns (Substitution.resolveEntry
      (fun path => (document.resolve path : StateT σ Action Text))
      (path, [.number])) start ⟨path, [.number], spelling⟩ start := hresolve.bind (returns_pure _ _)
    change Returns ([(path, [Form.number])].mapM _) _ _ _
    rw [List.mapM_cons]
    exact hentry.bind ((returns_pure [] start).bind (returns_pure _ _))
  rw [Placeholder.occurringIn_of_alone hne hclosing hfront hrest]
  obtain ⟨after, hafter⟩ := Substitution.exists_returns_run hpersist mode hresolved
    (front ++ Placeholder.literal ⟨path, .number⟩ ++ rest)
  rw [fill_of_alone hne hclosing hfront hrest] at hafter
  exact ⟨after, hafter⟩

/-- In settings they are resolved as nothing else than that number. -/
theorem expandFrom_of_number (hparse : parse
      (front ++ Placeholder.literal ⟨path, .number⟩ ++ rest) = .ok document)
    (randomness : RandomSource) :
    expandFrom (front ++ Placeholder.literal ⟨path, .number⟩ ++ rest) randomness =
      (.ok (front ++ spelling ++ rest), randomness) := by
  have hresolved : document.resolveIn (front ++ Placeholder.literal ⟨path, .number⟩ ++ rest) randomness =
      (.ok [⟨path, [.number], spelling⟩], randomness) := by
    rw [Document.resolveIn, ← Placeholder.byPath_occurringIn,
      Placeholder.occurringIn_of_alone hne hclosing hfront hrest]
    change document.resolveFrom [(path, [.number])] randomness = _
    rw [Document.resolveFrom, Document.valueFrom, Document.value_of_get hget rfl]
    rfl
  rw [expandFrom_of_resolveIn hparse hresolved, fill_of_alone hne hclosing hfront hrest]

end Alone

/-- Numbers keep their spelling. Every number of the grammar but `-0` can be written in settings,
and no other can be there. It is resolved as it is written, and a run puts it so in place of a
number form that holds the only dollar sign of a body. If that is how a string of the data is
written, and it holds the only dollar sign of the settings, these are resolved against themselves,
and then the same number is at the path of the string and is resolved as it was written. -/
theorem spelling_kept :
    (∀ spelling, Json.Number.Grammatical spelling → spelling ≠ ['-', '0'] → ∃ document,
      parse (numberRaw spelling) = .ok document ∧ document.get (qualified ['n']) = .ok (.number spelling)) ∧
    ∀ raw document path spelling, parse raw = .ok document →
    document.get (qualified path) = .ok (.number spelling) →
      path ≠ [] → ')' ∉ path →
      (Json.Number.Grammatical spelling ∧ spelling ≠ ['-', '0']) ∧
      (∀ session, (document.resolve path).perform session = (.ok spelling, session)) ∧
      (∀ front rest, '$' ∉ front → '$' ∉ rest → ∀ (σ : Type) (persist : Text → StateT σ Action Unit),
        (∀ text start, ∃ after, Returns (persist text) start () after) → ∀ mode start, ∃ after,
          Returns (Substitution.run mode (fun path => document.resolve path) persist
            (Placeholder.occurringIn (front ++ Placeholder.literal ⟨path, .number⟩ ++ rest))
            (front ++ Placeholder.literal ⟨path, .number⟩ ++ rest)) start
              (front ++ spelling ++ rest) after) ∧
      ∀ other, WrittenAt raw other (Placeholder.literal ⟨path, .number⟩) → raw.count '$' = 1 →
      ∀ session, ∃ settings,
        ((parseExpanded raw).outcome session).1 = .ok settings ∧
        settings.get (qualified other) = .ok (.number spelling) ∧
        ∀ session, (settings.resolve other).perform session = (.ok spelling, session) := by
  refine ⟨fun spelling hgrammar hne => exists_parse_numberRaw
    (Json.Number.wellSpelled_iff.2 ⟨hgrammar, hne⟩), ?_⟩
  intro raw document path spelling hparse hget hne hclosing
  have hspelling := wellSpelled_of_get hparse hget
  refine ⟨Json.Number.wellSpelled_iff.1 hspelling, perform_resolve_of_number hget, ?_, ?_⟩
  · intro front rest hfront hrest σ persist hpersist mode start
    exact exists_returns_run_of_number hne hclosing hfront hrest hget hpersist mode start
  · intro other hwritten honly session
    have hdollar : '$' ∈ Placeholder.literal ⟨path, .number⟩ := by
      simp [Form.literal_number, Form.literal_text]
    obtain ⟨front, rest, settings, rfl, hfront, hrest, hsettings, hnumber⟩ :=
      exists_parse_of_writtenAt hparse hwritten hdollar honly hspelling
    refine ⟨settings, ?_, hnumber, perform_resolve_of_number hnumber⟩
    rw [outcome_parseExpanded, worked, expandFrom_of_number hne hclosing hfront hrest hget hparse]
    exact hsettings

/-- Settings with a reference to a number that has a sign, zeros at its end and an exponent with a
sign and zeros in front. -/
def exponentRaw : Text :=
  ("\x7b\"placeholder\":\x7b\"data\":\x7b\"a\":\x7b\"n\":-1.50E+007\x7d,\"v\":\"$(mcp.a.n)(number)\"\x7d," ++
    "\"suffixes\":[\"a\"]\x7d\x7d").toList

theorem spelling_kept_exponent :
    WrittenAt exponentRaw ['v'] (Placeholder.literal ⟨"a.n".toList, .number⟩) ∧
    ∃ settings, ((parseExpanded exponentRaw).outcome (Build.sampleSession "")).1 = .ok settings ∧
      settings.get (qualified ['v']) = .ok (.number "-1.50E+007".toList) := by
  have hwritten : WrittenAt exponentRaw ['v'] (Placeholder.literal ⟨"a.n".toList, .number⟩) := by
    decide +kernel
  have hparse : parse exponentRaw = .ok (settingsOf exponentRaw) := parse_eq_settingsOf (by decide +kernel)
  have hget : (settingsOf exponentRaw).get (qualified "a.n".toList) = .ok (.number "-1.50E+007".toList) :=
    eq_number_of_render (by decide +kernel)
  obtain ⟨-, hkept⟩ := spelling_kept
  obtain ⟨-, -, -, hnumber⟩ := hkept _ _ _ _ hparse hget (by decide) (by decide)
  obtain ⟨settings, hsettings, hvalue, -⟩ :=
    hnumber ['v'] hwritten (by decide +kernel) (Build.sampleSession "")
  exact ⟨hwritten, settings, hsettings, hvalue⟩

end Settings

end ServerPack
